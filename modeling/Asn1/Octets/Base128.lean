import Asn1.Octets

/-!
# `Asn1.Octets.Base128` — numbers in groups of seven bits

Tag numbers above 30 and the sub-identifiers of object identifiers are written in base 128, most
significant digit first. Every octet but the last has its top bit set.

## Contents
- **Digits.** `continues` is the top bit of an octet, `digit` the other seven.
- **Numbers.** `value` reads octets as a number, `encode` gives the shortest octets of a number,
  `encodedLen` counts them.
-/

namespace Asn1.Base128

/-- Whether more digits follow this one. -/
def continues (octet : UInt8) : Bool := 128 ≤ octet.toNat

/-- The digit that the octet carries. -/
def digit (octet : UInt8) : Nat := octet.toNat % 128

/-- The number that the digits spell, most significant digit first. -/
def value (octets : Octets) : Nat :=
  octets.foldl (fun number octet => number * 128 + digit octet) 0

@[simp] theorem value_nil : value [] = 0 := rfl

/-- The last digit is the least significant one. -/
@[simp] theorem value_concat (octets : Octets) (octet : UInt8) :
    value (octets ++ [octet]) = value octets * 128 + digit octet := by
  simp [value]

/-- The shortest digits of a number, each marked as being followed by more. Zero has none. -/
def leadingDigits (number : Nat) : Octets :=
  if number = 0 then [] else leadingDigits (number / 128) ++ [UInt8.ofNat (number % 128 + 128)]
termination_by number
decreasing_by omega

@[simp] theorem value_leadingDigits (number : Nat) : value (leadingDigits number) = number := by
  fun_induction leadingDigits number with
  | case1 => rfl
  | case2 number _ ih =>
    rw [value_concat, ih, digit, UInt8.toNat_ofNat']
    omega

/-- Each leading digit announces another one. -/
theorem continues_of_mem_leadingDigits {number : Nat} {octet : UInt8}
    (h : octet ∈ leadingDigits number) : continues octet = true := by
  fun_induction leadingDigits number with
  | case1 => simp at h
  | case2 number _ ih =>
    rcases List.mem_append.1 h with h | h
    · exact ih h
    · rw [List.mem_singleton.1 h, continues, decide_eq_true_iff, UInt8.toNat_ofNat']
      omega

/-- The shortest base-128 form of a number. Zero is a single zero octet. -/
def encode (number : Nat) : Octets :=
  leadingDigits (number / 128) ++ [UInt8.ofNat (number % 128)]

/-- Reading undoes writing. -/
@[simp] theorem value_encode (number : Nat) : value (encode number) = number := by
  rw [encode, value_concat, value_leadingDigits, digit, UInt8.toNat_ofNat']
  omega

/-- How many octets `encode` produces. -/
def encodedLen (number : Nat) : Nat :=
  if number < 128 then 1 else encodedLen (number / 128) + 1
termination_by number
decreasing_by omega

@[simp] theorem length_encode (number : Nat) : (encode number).length = encodedLen number := by
  fun_induction encodedLen number with
  | case1 number hsmall =>
    rw [encode, leadingDigits, if_pos (by omega)]
    rfl
  | case2 number hlarge ih =>
    rw [← ih, encode, encode, leadingDigits, if_neg (by omega)]
    simp

end Asn1.Base128
