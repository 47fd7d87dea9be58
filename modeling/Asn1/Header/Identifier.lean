import Asn1.Error
import Asn1.Mode
import Asn1.Tag

/-!
# `Asn1.Header.Identifier` — the identifier octets

The first octet holds the class in its two top bits, the constructed flag in the next one, and a tag
number up to 30 in the other five. If those five bits are all set, the number follows in base 128.

## Contents
- **Identifier.** A tag and whether the value is constructed.
- **Writing.** `Identifier.octets` uses the shortest form.
- **Reading.** `Identifier.take` reads from the front of octets and returns the rest.
-/

namespace Asn1

/-- What the identifier octets say: the tag, and whether the value is constructed. -/
structure Identifier where
  tag : Tag
  constructed : Bool
deriving DecidableEq

namespace Identifier

/-! ## Writing -/

/-- The first octet, with the given number in the five low bits. -/
def leadOctet (identifier : Identifier) (low : Nat) : UInt8 :=
  UInt8.ofNat (identifier.tag.tagClass.toBits * 64 + identifier.constructed.toNat * 32 + low)

/-- The identifier octets. A number above 30 follows the first octet in base 128. -/
def octets (identifier : Identifier) : Octets :=
  let number := identifier.tag.number.toNat
  if number ≤ Tag.maxLowNumber then [identifier.leadOctet number]
  else identifier.leadOctet 31 :: Base128.encode number

/-- The size of the tag counts the octets written. -/
@[simp] theorem length_octets (identifier : Identifier) :
    identifier.octets.length = identifier.tag.encodedLen := by
  simp only [octets, Tag.encodedLen]
  split
  · rfl
  · simp [Nat.add_comm]

/-! ## Reading -/

/-- The largest tag number. -/
def maxNumber : Nat := 0xFFFFFFFF

/-- Reads the digits of a tag number after `number`, the number the digits so far spell. The size is
    checked before a digit is added, so the number never exceeds 32 bits. -/
def takeNumber (mode : Mode) (number : Nat) : Octets → Except ErrorKind (UInt32 × Octets)
  | [] => .error .headerTruncated
  | octet :: rest =>
    if number > maxNumber / 128 then .error (.content .tagNumberTooLarge)
    else
      let number := number * 128 + Base128.digit octet
      if Base128.continues octet then takeNumber mode number rest
      else if mode.isDer ∧ number ≤ Tag.maxLowNumber then .error (.content .highFormOfLowTag)
      else .ok (UInt32.ofNat number, rest)

/-- Reads the identifier octets at the front of the data and returns what follows them. -/
def take (mode : Mode) : Octets → Except ErrorKind (Identifier × Octets)
  | [] => .error .headerTruncated
  | first :: rest =>
    let tagClass := TagClass.ofBits (first.toNat / 64)
    let constructed : Bool := first.toNat / 32 % 2 = 1
    let low := first.toNat % 32
    if low ≠ 31 then .ok (⟨⟨tagClass, UInt32.ofNat low⟩, constructed⟩, rest)
    else if rest.head? = some 0x80 then .error (.content .tagNumberLeadingZero)
    else do
      let (number, rest) ← takeNumber mode 0 rest
      return (⟨⟨tagClass, number⟩, constructed⟩, rest)

end Identifier

end Asn1
