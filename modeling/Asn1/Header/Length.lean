import Asn1.Error
import Asn1.Mode
import Asn1.Octets

/-!
# `Asn1.Header.Length` — the length octets

A length up to 127 is a single octet. A longer one is given by an octet with the top bit set that
counts the octets that follow, which spell the length. The count zero stands for an indefinite length.

## Contents
- **Length.** Definite, with the number of content octets, or indefinite.
- **Writing.** `Length.octets` uses the fewest octets, `Length.encodedLen` counts them.
- **Reading.** `Length.take` reads from the front of octets and returns the rest. At most eight length
  octets are taken, so a length read is below 2^64.
-/

namespace Asn1

/-- The length of the content octets. -/
inductive Length where
  /-- The content has this many octets. -/
  | definite (octets : Nat)
  /-- The content is delimited by a marker. -/
  | indefinite
deriving DecidableEq

namespace Length

/-- The number of content octets, if it is known. -/
def toNat? : Length → Option Nat
  | definite octets => some octets
  | indefinite => none

/-- Whether the content is delimited by a marker. -/
def isIndefinite : Length → Bool
  | definite _ => false
  | indefinite => true

/-! ## Writing -/

/-- The length octets in their shortest form. -/
def octets : Length → Octets
  | definite number =>
    if number < 128 then [UInt8.ofNat number]
    else UInt8.ofNat (128 + Octets.lengthOfNat number) :: Octets.ofNat number
  | indefinite => [0x80]

/-- How many length octets there are. -/
def encodedLen : Length → Nat
  | definite number => if number < 128 then 1 else 1 + Octets.lengthOfNat number
  | indefinite => 1

@[simp] theorem length_octets (length : Length) : length.octets.length = length.encodedLen := by
  fun_cases octets length with
  | case1 number h => simp [encodedLen, h]
  | case2 number h =>
    have : number ≠ 0 := by omega
    simp [encodedLen, h, Octets.length_ofNat this, Nat.add_comm]
  | case3 => rfl

/-! ## Reading -/

/-- The most octets that a length may be spelled with. -/
def maxOctets : Nat := 8

/-- Whether no shorter length octets spell the same number as these octets of a long form. -/
def isMinimal : Octets → Bool
  | [] => false
  | [octet] => 128 ≤ octet.toNat
  | first :: _ => first ≠ 0

/-- Reads the length octets at the front of the data and returns what follows them. -/
def take (mode : Mode) : Octets → Except ErrorKind (Length × Octets)
  | [] => .error .headerTruncated
  | first :: rest =>
    if first.toNat < 128 then .ok (definite first.toNat, rest)
    else if first = 0x80 then
      if mode.isDer then .error (.content .indefiniteLengthInDer) else .ok (indefinite, rest)
    else if first = 0xFF then .error (.content .reservedLength)
    else
      let count := first.toNat - 128
      if maxOctets < count then .error .lengthTooLarge
      else if rest.length < count then .error .headerTruncated
      else if mode.isDer ∧ ¬ isMinimal (rest.take count) then .error (.content .lengthNotMinimal)
      else .ok (definite (Octets.toNat (rest.take count)), rest.drop count)

end Length

end Asn1
