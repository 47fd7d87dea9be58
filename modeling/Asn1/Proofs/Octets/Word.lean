import Asn1.Proofs.Octets

/-!
# `Asn1.Proofs.Octets.Word` — numbers that are put together in a word

A machine puts a number together in a word of 64 bits: for each digit the word is shifted to the left, and the
bits of the digit go into the gap. Bits that are shifted out are lost, so the word is the number up to multiples
of 2^64, and the number itself as long as that is below 2^64.

## Contents
- **Shifts.** `Word.shiftIn` is one step, `Word.shiftIn_ofNat` says what it does to the number.
- **Octets and digits.** `Word.ofOctets_eq` for eight bits a step, `Word.ofDigits_eq` for seven.
- **Back to octets.** `Word.toOctets` cuts a word into eight octets.
- **Back to digits.** `Word.toDigits` writes the digits of a word from the last one on and turns them round.
-/

namespace Asn1

namespace Word

/-! ## Shifts -/

/-- Shifts a word to the left and puts a digit into the gap. -/
def shiftIn (width word digit : UInt64) : UInt64 := word <<< width ||| digit

/-- The word of a number becomes that of the number with one more digit. -/
theorem shiftIn_ofNat {width digit : UInt64} (number : Nat) (hwidth : width.toNat < 64)
    (hdigit : digit.toNat < 2 ^ width.toNat) :
    shiftIn width (.ofNat number) digit = .ofNat (number * 2 ^ width.toNat + digit.toNat) := by
  apply UInt64.toNat_inj.1
  rw [shiftIn, UInt64.toNat_or, UInt64.toNat_shiftLeft, UInt64.toNat_ofNat', UInt64.toNat_ofNat',
    Nat.mod_eq_of_lt hwidth, Nat.shiftLeft_eq]
  have hwidths : (2 : Nat) ^ 64 = 2 ^ (64 - width.toNat) * 2 ^ width.toNat := by
    rw [← pow_add, Nat.sub_add_cancel (Nat.le_of_lt hwidth)]
  -- what stays in the word is a multiple of the weight of its last bit, so the digit fits into the gap
  have hkept : number * 2 ^ width.toNat % 2 ^ 64 =
      2 ^ width.toNat * (number % 2 ^ (64 - width.toNat)) := by
    rw [hwidths, Nat.mul_mod_mul_right, Nat.mul_comm]
  have hword : number % 2 ^ 64 * 2 ^ width.toNat % 2 ^ 64 =
      2 ^ width.toNat * (number % 2 ^ (64 - width.toNat)) := by
    rw [Nat.mod_mul_mod, hkept]
  have hfits : 2 ^ width.toNat * (number % 2 ^ (64 - width.toNat)) + digit.toNat < 2 ^ 64 := by
    have hhigh : number % 2 ^ (64 - width.toNat) < 2 ^ (64 - width.toNat) :=
      Nat.mod_lt _ (Nat.two_pow_pos _)
    calc 2 ^ width.toNat * (number % 2 ^ (64 - width.toNat)) + digit.toNat
        < 2 ^ width.toNat * (number % 2 ^ (64 - width.toNat) + 1) := by
          rw [Nat.mul_succ]
          omega
      _ ≤ 2 ^ width.toNat * 2 ^ (64 - width.toNat) := Nat.mul_le_mul_left _ hhigh
      _ = 2 ^ 64 := by rw [hwidths, Nat.mul_comm]
  rw [hword, ← Nat.two_pow_add_eq_or_of_lt hdigit, Nat.add_mod, hkept, Nat.mod_eq_of_lt digit.toNat_lt,
    Nat.mod_eq_of_lt hfits]

/-! ## Octets and digits -/

/-- The word that octets make, eight bits a step. -/
def ofOctets (octets : Octets) : UInt64 :=
  octets.foldl (fun word octet => shiftIn 8 word octet.toUInt64) 0

/-- The word that base-128 digits make, seven bits a step. -/
def ofDigits (octets : Octets) : UInt64 :=
  octets.foldl (fun word octet => shiftIn 7 word (octet &&& 0x7F).toUInt64) 0

theorem ofOctets_concat (octets : Octets) (octet : UInt8) :
    ofOctets (octets ++ [octet]) = shiftIn 8 (ofOctets octets) octet.toUInt64 := by
  simp [ofOctets]

theorem ofDigits_concat (octets : Octets) (octet : UInt8) :
    ofDigits (octets ++ [octet]) = shiftIn 7 (ofDigits octets) (octet &&& 0x7F).toUInt64 := by
  simp [ofDigits]

/-- **Octets make the word of their number.** -/
theorem ofOctets_eq (octets : Octets) : ofOctets octets = .ofNat octets.toNat := by
  induction octets using List.reverseRecOn with
  | nil => rfl
  | append_singleton octets octet ih =>
      have hdigit : octet.toUInt64.toNat < 2 ^ (8 : UInt64).toNat := by
        rw [UInt8.toNat_toUInt64]
        exact octet.toNat_lt
      rw [ofOctets_concat, ih, shiftIn_ofNat _ (by decide) hdigit, Octets.toNat_concat, UInt8.toNat_toUInt64]
      rfl

/-- The mask leaves the digit of an octet. -/
theorem toNat_and_mask (octet : UInt8) : (octet &&& 0x7F).toUInt64.toNat = Base128.digit octet := by
  rw [UInt8.toNat_toUInt64, UInt8.toNat_and]
  exact Nat.and_two_pow_sub_one_eq_mod octet.toNat 7

/-- **Digits make the word of their number.** -/
theorem ofDigits_eq (octets : Octets) : ofDigits octets = .ofNat (Base128.value octets) := by
  induction octets using List.reverseRecOn with
  | nil => rfl
  | append_singleton octets octet ih =>
      have hdigit : (octet &&& 0x7F).toUInt64.toNat < 2 ^ (7 : UInt64).toNat := by
        rw [toNat_and_mask]
        exact Nat.mod_lt _ (by decide)
      rw [ofDigits_concat, ih, shiftIn_ofNat _ (by decide) hdigit, Base128.value_concat, toNat_and_mask]
      rfl

/-! ## Back to octets -/

/-- The eight octets of a word, most significant first. -/
def toOctets (word : UInt64) : Octets :=
  [56, 48, 40, 32, 24, 16, 8, 0].map fun shift : UInt64 => (word >>> shift).toUInt8

/-- The octets of a word spell its number. -/
theorem toNat_toOctets (word : UInt64) : (toOctets word).toNat = word.toNat := by
  have hoctet (shift : UInt64) (hshift : shift.toNat < 64) :
      (word >>> shift).toUInt8.toNat = word.toNat / 2 ^ shift.toNat % 256 := by
    rw [UInt64.toNat_toUInt8, UInt64.toNat_shiftRight, Nat.mod_eq_of_lt hshift, Nat.shiftRight_eq_div_pow]
  have hfirst : word.toNat / 2 ^ 56 % 256 = word.toNat / 2 ^ 56 :=
    Nat.mod_eq_of_lt (Nat.div_lt_of_lt_mul word.toNat_lt)
  -- the octets down to a place spell what is left of the number when it is shifted to that place
  have hstep (shift : Nat) : word.toNat / 2 ^ (shift + 8) * 256 + word.toNat / 2 ^ shift % 256 =
      word.toNat / 2 ^ shift := by
    rw [pow_add, ← Nat.div_div_eq_div_mul]
    exact Nat.div_add_mod' _ 256
  simp only [toOctets, List.map_cons, List.map_nil, Octets.toNat, List.foldl_cons, List.foldl_nil]
  rw [hoctet 56 (by decide), hoctet 48 (by decide), hoctet 40 (by decide), hoctet 32 (by decide),
    hoctet 24 (by decide), hoctet 16 (by decide), hoctet 8 (by decide), hoctet 0 (by decide)]
  simp only [UInt64.reduceToNat, hfirst, Nat.zero_mul, Nat.zero_add]
  rw [hstep 48, hstep 40, hstep 32, hstep 24, hstep 16, hstep 8, hstep 0, pow_zero, Nat.div_one]

/-! ## Back to digits -/

/-- The digits of a word that are followed by others, each with its mark, the least significant one first. -/
def markedDigits (word : UInt64) : Octets :=
  if word = 0 then [] else ((word &&& 0x7F).toUInt8 ||| 0x80) :: markedDigits (word >>> 7)
termination_by word.toNat
decreasing_by
  have hne : word.toNat ≠ 0 := fun h => ‹¬ word = 0› (UInt64.toNat_inj.1 h)
  rw [UInt64.toNat_shiftRight]
  show word.toNat >>> 7 < word.toNat
  rw [Nat.shiftRight_eq_div_pow]
  omega

/-- The base-128 digits of a word: the last one is written first, then the others, and in the end all of them are
    turned round. -/
def toDigits (word : UInt64) : Octets := ((word &&& 0x7F).toUInt8 :: markedDigits (word >>> 7)).reverse

theorem toNat_shiftRight_seven (word : UInt64) : (word >>> 7).toNat = word.toNat / 128 := by
  rw [UInt64.toNat_shiftRight]
  exact Nat.shiftRight_eq_div_pow word.toNat 7

/-- The mask leaves the last digit of a word. -/
theorem toNat_lastDigit (word : UInt64) : (word &&& 0x7F).toUInt8.toNat = word.toNat % 128 := by
  have hmask : (word &&& 0x7F).toNat = word.toNat % 128 := Nat.and_two_pow_sub_one_eq_mod word.toNat 7
  rw [UInt64.toNat_toUInt8, hmask]
  omega

/-- A digit is marked by the bit that it leaves free. -/
theorem toNat_markedDigit (word : UInt64) :
    ((word &&& 0x7F).toUInt8 ||| 0x80).toNat = word.toNat % 128 + 128 := by
  have hdigit : word.toNat % 128 < 2 ^ 7 := Nat.mod_lt _ (by decide)
  have hmark : 128 + word.toNat % 128 = 128 ||| word.toNat % 128 := Nat.two_pow_add_eq_or_of_lt hdigit 1
  rw [UInt8.toNat_or, toNat_lastDigit, Nat.or_comm]
  show 128 ||| word.toNat % 128 = word.toNat % 128 + 128
  rw [← hmark, Nat.add_comm]

/-- The digits behind the last one are those of the number, turned round. -/
theorem reverse_markedDigits (word : UInt64) : (markedDigits word).reverse = Base128.leadingDigits word.toNat := by
  fun_induction markedDigits word with
  | case1 =>
      rw [Base128.leadingDigits]
      rfl
  | case2 word hne ih =>
      -- a shift takes off the digit that `leadingDigits` appends
      have hnumber : word.toNat ≠ 0 := fun h => hne (UInt64.toNat_inj.1 h)
      have hdigit : (word &&& 0x7F).toUInt8 ||| 0x80 = .ofNat (word.toNat % 128 + 128) := by
        rw [← toNat_markedDigit, UInt8.ofNat_toNat]
      rw [List.reverse_cons, ih, toNat_shiftRight_seven, hdigit, Base128.leadingDigits.eq_def word.toNat,
        if_neg hnumber]

/-- **The digits of a word are those of its number.** -/
theorem toDigits_eq (word : UInt64) : toDigits word = Base128.encode word.toNat := by
  have hdigit : (word &&& 0x7F).toUInt8 = .ofNat (word.toNat % 128) := by
    rw [← toNat_lastDigit, UInt8.ofNat_toNat]
  rw [toDigits, List.reverse_cons, reverse_markedDigits, toNat_shiftRight_seven, hdigit, Base128.encode]

end Word

end Asn1
