import Asn1.Error
import Asn1.Mode
import Asn1.Octets.Hex

/-!
# `Asn1.Integer` — integers of any size

An integer keeps its sign apart from its magnitude, the big-endian octets of its absolute value. It
moves in and out of its encoded form and can be compared; there is no arithmetic.

## Contents
- **Integer.** The type admits no leading zero and no negative zero, so each number has one form.
  `Integer.toInt` is the number.
- **Native integers.** `ofInt64`, `ofUInt64`, and their partial inverses `toInt64?` and `toUInt64?`.
- **Content octets.** `ofContent` reads two's complement, `content` writes the shortest form, and
  `contentLen` counts its octets.
- **Order and text.** `compare` goes by sign and magnitude; text is decimal if the number fits 64 bits.
-/

namespace Asn1

/-! ## The type -/

/-- A signed integer of any size. -/
structure Integer where
  /-- Whether the number is below zero. -/
  negative : Bool
  /-- The absolute value as a big-endian number. -/
  magnitude : Octets
  /-- The magnitude has no leading zero octet. -/
  head?_magnitude : magnitude.head? ≠ some 0
  /-- Zero, the number without magnitude, is not negative. -/
  nonneg_of_zero : magnitude = [] → negative = false
deriving DecidableEq

namespace Integer

/-- The integer with the given sign and absolute value. Leading zeros and the sign of zero are
    dropped. -/
def ofMagnitude (negative : Bool) (octets : Octets) : Integer where
  negative := negative && !octets.stripZeros.isEmpty
  magnitude := octets.stripZeros
  head?_magnitude := octets.head?_stripZeros
  nonneg_of_zero h := by simp [h]

/-- The integer zero. -/
def zero : Integer := ofMagnitude false []

instance : Inhabited Integer := ⟨zero⟩

/-- Whether the integer is zero. -/
def isZero (integer : Integer) : Bool := integer.magnitude.isEmpty

/-- The number that the integer stands for. -/
def toInt (integer : Integer) : Int :=
  if integer.negative then -integer.magnitude.toNat else integer.magnitude.toNat

/-- Sign and absolute value give the number, however they are written. -/
@[simp] theorem toInt_ofMagnitude (negative : Bool) (octets : Octets) :
    (ofMagnitude negative octets).toInt = if negative then -(octets.toNat : Int) else octets.toNat := by
  cases negative with
  | false => simp [toInt, ofMagnitude]
  | true =>
    by_cases h : octets.stripZeros = []
    · have : octets.toNat = 0 := by rw [← Octets.toNat_stripZeros, h, Octets.toNat_nil]
      simp [toInt, ofMagnitude, h, this]
    · simp [toInt, ofMagnitude, h]

/-- The non-negative integer with the given big-endian octets. -/
def ofUnsigned (octets : Octets) : Integer := ofMagnitude false octets

/-! ## Native integers -/

/-- The integer for a native signed integer. -/
def ofInt64 (value : Int64) : Integer :=
  ofMagnitude (value.toInt < 0) (Octets.ofNat value.toInt.natAbs)

/-- The integer for a native unsigned integer. -/
def ofUInt64 (value : UInt64) : Integer := ofUnsigned (Octets.ofNat value.toNat)

/-- The native unsigned integer of the same value. A magnitude of more than eight octets cannot fit. -/
def toUInt64? (integer : Integer) : Option UInt64 :=
  if integer.negative ∨ 8 < integer.magnitude.length then none
  else some (UInt64.ofNat integer.magnitude.toNat)

/-- The absolute value of the least native signed integer, 2^63. -/
def minNative : Nat := 0x8000000000000000

/-- The native signed integer of the same value. The absolute value may reach 2^63 below zero only. -/
def toInt64? (integer : Integer) : Option Int64 :=
  if 8 < integer.magnitude.length then none
  else
    let absolute := integer.magnitude.toNat
    if integer.negative then
      if minNative < absolute then none else some (Int64.ofInt (-absolute))
    else
      if absolute < minNative then some (Int64.ofInt absolute) else none

/-! ## Content octets -/

/-- Whether the first octet of a two's complement number only repeats the sign of the second. -/
def isPadded : Octets → Bool
  | first :: second :: _ =>
    (first = 0x00 ∧ second.toNat < 128) ∨ (first = 0xFF ∧ 128 ≤ second.toNat)
  | _ => false

/-- Reads the two's complement content octets of an INTEGER. BER drops superfluous leading octets,
    DER refuses them. -/
def ofContent (mode : Mode) (content : Octets) : Except ContentError Integer :=
  match content with
  | [] => .error .emptyInteger
  | first :: _ =>
    if mode.isDer ∧ isPadded content then .error .integerNotMinimal
    else if first.toNat < 128 then .ok (ofMagnitude false content)
    else .ok (ofMagnitude true content.negate)

/-- Whether two's complement takes one octet more than the magnitude because the top bit would give the
    wrong sign. A negative number has room up to an absolute value of 0x80 followed by zeros. -/
def needsSignOctet (negative : Bool) : Octets → Bool
  | [] => false
  | first :: rest =>
    if negative then 128 < first.toNat ∨ (first = 0x80 ∧ rest.any (· ≠ 0))
    else 128 ≤ first.toNat

/-- How many content octets the integer takes. Zero takes one. -/
def contentLen (integer : Integer) : Nat :=
  if integer.isZero then 1
  else integer.magnitude.length + (needsSignOctet integer.negative integer.magnitude).toNat

/-- The shortest two's complement content octets. -/
def content (integer : Integer) : Octets :=
  if integer.isZero then [0x00]
  else
    let sign : UInt8 := if integer.negative then 0xFF else 0x00
    let body := if integer.negative then integer.magnitude.negate else integer.magnitude
    if needsSignOctet integer.negative integer.magnitude then sign :: body else body

@[simp] theorem length_content (integer : Integer) : integer.content.length = integer.contentLen := by
  simp only [content, contentLen]
  split
  · rfl
  · cases integer.negative <;> cases needsSignOctet _ integer.magnitude <;> simp

/-! ## Order -/

/-- Compares two absolute values without leading zeros: length first, then octet by octet. -/
def compareMagnitude (a b : Octets) : Ordering :=
  (Ord.compare a.length b.length).then (Ord.compare a b)

/-- Negative numbers come first, and among them the larger magnitude does. -/
def compare (a b : Integer) : Ordering :=
  match a.negative, b.negative with
  | false, false => compareMagnitude a.magnitude b.magnitude
  | true, true => (compareMagnitude a.magnitude b.magnitude).swap
  | false, true => .gt
  | true, false => .lt

instance : Ord Integer := ⟨compare⟩

/-- The integers in ascending order. -/
def sort (integers : List Integer) : List Integer :=
  integers.mergeSort fun a b => (compare a b).isLE

/-! ## Text -/

/-- The integer as text: decimal if it fits a native signed integer, else the sign and the
    hexadecimal magnitude. -/
def text (integer : Integer) : String :=
  match integer.toInt64? with
  | some value => toString value.toInt
  | none => (if integer.negative then "-0x" else "0x") ++ integer.magnitude.toHex

instance : ToString Integer := ⟨text⟩

/-- The text of the integer, marked as that of an integer. -/
def describe (integer : Integer) : String := "Integer(" ++ integer.text ++ ")"

end Integer

end Asn1
