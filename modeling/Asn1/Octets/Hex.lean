import Asn1.Octets

/-!
# `Asn1.Octets.Hex` — octets as hexadecimal text

Each octet is two digits, most significant first. Writing uses lower case; reading takes either case
and refuses text of odd length.

## Contents
- **Digits.** `hexDigit` and its reading counterpart `hexDigit?`, which works on ASCII octets. `IsHexDigit` says
  which octets are digits, by way of the digits that numbers are printed with.
- **Text.** `Octets.toHex` writes, `Octets.ofHex?` reads the octets of a text. `Octets.SpelledBy` relates octets to
  their texts, and `Octets.ofHex?_eq_some_iff` says that these are what is read.
- **Readers.** Any `HexReader` reads these texts and no others.
-/

namespace Asn1

/-! ## Digits -/

/-- The lower-case digit of a number below sixteen. -/
def hexDigit (n : Nat) : Char :=
  if n < 10 then Char.ofNat (48 + n) else Char.ofNat (87 + n)

/-- The number an ASCII digit stands for, in either case. -/
def hexDigit? (octet : UInt8) : Option Nat :=
  let n := octet.toNat
  if 48 ≤ n ∧ n ≤ 57 then some (n - 48)
  else if 97 ≤ n ∧ n ≤ 102 then some (n - 87)
  else if 65 ≤ n ∧ n ≤ 70 then some (n - 55)
  else none

/-- The octet is the ASCII digit of a number below sixteen, in lower or in upper case. -/
def IsHexDigit (number : Nat) (octet : UInt8) : Prop :=
  number < 16 ∧
    (octet.toNat = (Nat.digitChar number).toNat ∨ octet.toNat = (Nat.digitChar number).toUpper.toNat)

instance (number : Nat) (octet : UInt8) : Decidable (IsHexDigit number octet) :=
  inferInstanceAs (Decidable (_ ∧ _))

/-- The digits are three ranges of octets. -/
theorem isHexDigit_iff {number : Nat} {octet : UInt8} :
    IsHexDigit number octet ↔
      (number < 10 ∧ octet.toNat = 48 + number) ∨
        (10 ≤ number ∧ number < 16 ∧ (octet.toNat = 87 + number ∨ octet.toNat = 55 + number)) := by
  have hdigits : ∀ number < 16,
      (Nat.digitChar number).toNat = (if number < 10 then 48 else 87) + number ∧
        (Nat.digitChar number).toUpper.toNat = (if number < 10 then 48 else 55) + number := by
    decide
  unfold IsHexDigit
  by_cases hsmall : number < 16
  · obtain ⟨hlower, hupper⟩ := hdigits number hsmall
    rw [hlower, hupper]
    by_cases hdecimal : number < 10
    · rw [if_pos hdecimal, if_pos hdecimal]
      omega
    · rw [if_neg hdecimal, if_neg hdecimal]
      omega
  · omega

/-- **What is read as a digit is a digit.** -/
theorem hexDigit?_eq_some_iff {octet : UInt8} {number : Nat} :
    hexDigit? octet = some number ↔ IsHexDigit number octet := by
  rw [isHexDigit_iff]
  simp only [hexDigit?]
  by_cases hdecimal : 48 ≤ octet.toNat ∧ octet.toNat ≤ 57
  · rw [if_pos hdecimal, Option.some.injEq]
    omega
  rw [if_neg hdecimal]
  by_cases hlower : 97 ≤ octet.toNat ∧ octet.toNat ≤ 102
  · rw [if_pos hlower, Option.some.injEq]
    omega
  rw [if_neg hlower]
  by_cases hupper : 65 ≤ octet.toNat ∧ octet.toNat ≤ 70
  · rw [if_pos hupper, Option.some.injEq]
    omega
  · rw [if_neg hupper]
    constructor
    · nofun
    · omega

/-! ## Text -/

namespace Octets

/-- The digits of all octets in order. -/
def hexDigits : Octets → List Char
  | [] => []
  | octet :: rest => hexDigit (octet.toNat / 16) :: hexDigit (octet.toNat % 16) :: hexDigits rest

/-- The octets as lower-case hexadecimal text. -/
def toHex (octets : Octets) : String := String.ofList octets.hexDigits

/-- The octets that a hexadecimal text describes, where the text is given by its own octets. -/
def ofHex? : Octets → Option Octets
  | [] => some []
  | [_] => none
  | high :: low :: rest =>
    match hexDigit? high, hexDigit? low with
    | some high, some low => (ofHex? rest).map (UInt8.ofNat (high * 16 + low) :: ·)
    | _, _ => none

/-- The text describes the octets: two digits for each of them, the more significant one first, each in either
    case. -/
inductive SpelledBy : (octets text : Octets) → Prop
  | nil : SpelledBy [] []
  | cons {octet high low : UInt8} {octets text : Octets} :
      IsHexDigit (octet.toNat / 16) high → IsHexDigit (octet.toNat % 16) low → SpelledBy octets text →
      SpelledBy (octet :: octets) (high :: low :: text)

/-- Two digits are read as the octet with these halves. -/
theorem ofHex?_cons {octet high low : UInt8} {text : Octets} (hhigh : IsHexDigit (octet.toNat / 16) high)
    (hlow : IsHexDigit (octet.toNat % 16) low) : ofHex? (high :: low :: text) = (ofHex? text).map (octet :: ·) := by
  have hoctet : UInt8.ofNat (octet.toNat / 16 * 16 + octet.toNat % 16) = octet := by
    rw [Nat.div_add_mod', UInt8.ofNat_toNat]
  simp only [ofHex?, hexDigit?_eq_some_iff.2 hhigh, hexDigit?_eq_some_iff.2 hlow, hoctet]

/-- **What is read from a text is what the text describes.** -/
theorem ofHex?_eq_some_iff {text octets : Octets} : ofHex? text = some octets ↔ SpelledBy octets text := by
  constructor
  · intro h
    fun_induction ofHex? text generalizing octets with
    | case1 =>
        obtain rfl := Option.some.inj h
        exact .nil
    | case2 => cases h
    | case3 high low rest highNumber lowNumber hlow hhigh ih =>
        obtain ⟨others, hothers, rfl⟩ := Option.map_eq_some_iff.1 h
        have hhigh := hexDigit?_eq_some_iff.1 hhigh
        have hlow := hexDigit?_eq_some_iff.1 hlow
        have hhighSmall := hhigh.1
        have hlowSmall := hlow.1
        have hoctet : (UInt8.ofNat (highNumber * 16 + lowNumber)).toNat = highNumber * 16 + lowNumber := by
          rw [UInt8.toNat_ofNat']
          omega
        refine .cons ?_ ?_ (ih hothers)
        · rwa [hoctet, show (highNumber * 16 + lowNumber) / 16 = highNumber by omega]
        · rwa [hoctet, show (highNumber * 16 + lowNumber) % 16 = lowNumber by omega]
    | case4 => cases h
  · intro h
    induction h with
    | nil => rfl
    | cons hhigh hlow _ ih => rw [ofHex?_cons hhigh hlow, ih, Option.map_some]

end Octets

/-! ## Readers -/

/-- A way to read hexadecimal text. It reads what is text of octets as these octets, and nothing else. -/
structure HexReader where
  read? : Octets → Option Octets
  read?_eq_some_iff : ∀ {text octets : Octets}, read? text = some octets ↔ Octets.SpelledBy octets text

namespace HexReader

/-- The reader that takes two digits at a time. -/
def plain : HexReader := ⟨Octets.ofHex?, Octets.ofHex?_eq_some_iff⟩

/-- **There is one way to read hexadecimal text.** -/
theorem unique (reader other : HexReader) : reader = other := by
  obtain ⟨read?, hread⟩ := reader
  obtain ⟨otherRead?, hother⟩ := other
  obtain rfl : read? = otherRead? := by
    funext text
    apply Option.ext
    intro octets
    exact hread.trans hother.symm
  rfl

end HexReader

end Asn1
