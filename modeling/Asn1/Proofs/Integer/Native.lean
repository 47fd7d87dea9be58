import Asn1.Proofs.Integer.Order
import Asn1.Proofs.Octets.Word

/-!
# `Asn1.Proofs.Integer.Native` — native integers are exact

An integer has a native form exactly if its number is in the range of the native type, and the native integer
is that number. The check counts octets of the magnitude, which is a check of the number because a magnitude
has no leading zero: eight octets are enough for each number below 2^64, and for no other. All is the same when
the number is put together in a word, as bits that are shifted out of the word would belong to a ninth octet.

## Contents
- **Ranges.** `Octets.length_le_iff`, and with it what each conversion gives in terms of the number.
- **Back and forth.** `Integer.toInt64?_eq_some_iff_ofInt64` and `Integer.toUInt64?_eq_some_iff_ofUInt64`.
- **Words.** The conversions through a word, and that they are the same.
- **Result.** `Integer.native_exact`.
-/

namespace Asn1

/-! ## Ranges -/

/-- Octets without a leading zero are as many as their number needs. -/
theorem Octets.length_le_iff {octets : Octets} (h : octets.head? ≠ some 0) (width : Nat) :
    octets.length ≤ width ↔ octets.toNat < 256 ^ width := by
  constructor
  · intro hle
    exact Nat.lt_of_lt_of_le (toNat_lt octets) (Nat.pow_le_pow_right (by decide) hle)
  · intro hlt
    by_contra hlonger
    obtain ⟨first, rest, rfl⟩ := List.exists_cons_of_length_pos (Nat.zero_lt_of_lt (Nat.not_le.1 hlonger))
    have hwidth : 256 ^ width ≤ 256 ^ rest.length :=
      Nat.pow_le_pow_right (by decide) (by simp only [List.length_cons] at hlonger; omega)
    have hleast := le_toNat_of_head? h
    omega

namespace Integer

/-- At most eight octets are what a number below 2^64 has. -/
theorem length_magnitude_le_iff (integer : Integer) :
    integer.magnitude.length ≤ 8 ↔ integer.magnitude.toNat < 2 ^ 64 :=
  Octets.length_le_iff integer.head?_magnitude 8

variable {integer : Integer}

theorem toInt_of_negative (h : integer.negative = true) : integer.toInt = -(integer.magnitude.toNat : Int) :=
  if_pos h

theorem toInt_of_not_negative (h : integer.negative = false) : integer.toInt = integer.magnitude.toNat :=
  if_neg (Bool.not_eq_true _ ▸ h)

/-- **The native unsigned integer is the number.** -/
theorem toUInt64?_eq_some_iff {value : UInt64} :
    integer.toUInt64? = some value ↔ (value.toNat : Int) = integer.toInt := by
  have hvalue := value.toNat_lt
  have hlength := length_magnitude_le_iff integer
  have hsign := negative_eq_decide integer
  unfold toUInt64?
  cases hnegative : integer.negative with
  | true =>
      -- a negative number is not the number of an unsigned integer
      rw [hnegative, eq_comm, decide_eq_true_eq] at hsign
      rw [if_pos (.inl rfl)]
      constructor
      · nofun
      · intro h
        omega
  | false =>
      rw [toInt_of_not_negative hnegative]
      by_cases hfits : integer.magnitude.length ≤ 8
      · have hcheck : ¬ (false = true ∨ 8 < integer.magnitude.length) := by
          rintro (h | h)
          · cases h
          · omega
        rw [if_neg hcheck, Option.some.injEq, ← UInt64.toNat_inj, UInt64.toNat_ofNat_of_lt' (hlength.1 hfits)]
        omega
      · have hlarge := mt hlength.2 hfits
        rw [if_pos (.inr (Nat.not_le.1 hfits))]
        constructor
        · nofun
        · intro h
          omega

/-- **The native signed integer is the number.** -/
theorem toInt64?_eq_some_iff {value : Int64} :
    integer.toInt64? = some value ↔ value.toInt = integer.toInt := by
  have hmin := value.le_toInt
  have hmax := value.toInt_lt
  have hlength := length_magnitude_le_iff integer
  unfold toInt64?
  by_cases hfits : integer.magnitude.length ≤ 8
  · rw [if_neg (Nat.not_lt.2 hfits)]
    cases hnegative : integer.negative with
    | true =>
        rw [toInt_of_negative hnegative]
        by_cases hrange : minNative < integer.magnitude.toNat
        · simp only [if_true, if_pos hrange]
          unfold minNative at hrange
          constructor
          · nofun
          · intro h
            omega
        · simp only [if_true, if_neg hrange, Option.some.injEq]
          unfold minNative at hrange
          rw [← Int64.toInt_inj, Int64.toInt_ofInt_of_le (by omega) (by omega)]
          exact eq_comm
    | false =>
        rw [toInt_of_not_negative hnegative]
        by_cases hrange : integer.magnitude.toNat < minNative
        · simp only [Bool.false_eq_true, if_false, if_pos hrange, Option.some.injEq]
          unfold minNative at hrange
          rw [← Int64.toInt_inj, Int64.toInt_ofInt_of_le (by omega) (by omega)]
          exact eq_comm
        · simp only [Bool.false_eq_true, if_false, if_neg hrange]
          unfold minNative at hrange
          constructor
          · nofun
          · intro h
            omega
  · -- a ninth octet makes the number too large, whatever its sign
    have hlarge := mt hlength.2 hfits
    rw [if_pos (Nat.not_le.1 hfits), toInt]
    constructor
    · nofun
    · intro h
      split at h <;> omega

/-- There is no native signed integer exactly for the numbers out of its range. -/
theorem toInt64?_eq_none_iff : integer.toInt64? = none ↔ integer.toInt < -2 ^ 63 ∨ 2 ^ 63 ≤ integer.toInt := by
  constructor
  · intro hnone
    by_contra hrange
    have hvalue : (Int64.ofInt integer.toInt).toInt = integer.toInt :=
      Int64.toInt_ofInt_of_le (by omega) (by omega)
    rw [toInt64?_eq_some_iff.2 hvalue] at hnone
    cases hnone
  · intro hrange
    rw [Option.eq_none_iff_forall_ne_some]
    intro value hvalue
    have hmin := value.le_toInt
    have hmax := value.toInt_lt
    rw [toInt64?_eq_some_iff] at hvalue
    omega

/-- There is no native unsigned integer exactly for the numbers out of its range. -/
theorem toUInt64?_eq_none_iff : integer.toUInt64? = none ↔ integer.toInt < 0 ∨ 2 ^ 64 ≤ integer.toInt := by
  constructor
  · intro hnone
    by_contra hrange
    have hvalue : ((UInt64.ofNat integer.toInt.toNat).toNat : Int) = integer.toInt := by
      rw [UInt64.toNat_ofNat_of_lt' (by rw [UInt64.size]; omega)]
      omega
    rw [toUInt64?_eq_some_iff.2 hvalue] at hnone
    cases hnone
  · intro hrange
    rw [Option.eq_none_iff_forall_ne_some]
    intro value hvalue
    have hlt := value.toNat_lt
    rw [toUInt64?_eq_some_iff] at hvalue
    omega

/-! ## Back and forth -/

theorem toInt_ofInt64 (value : Int64) : (ofInt64 value).toInt = value.toInt :=
  @Source.toInt_of_integer (.int64 value) _ rfl

theorem toInt_ofUInt64 (value : UInt64) : (ofUInt64 value).toInt = value.toNat :=
  @Source.toInt_of_integer (.uint64 value) _ rfl

/-- An integer that has a native signed form is made from it, and from no other. -/
theorem toInt64?_eq_some_iff_ofInt64 {value : Int64} :
    integer.toInt64? = some value ↔ ofInt64 value = integer := by
  rw [toInt64?_eq_some_iff, ← toInt_ofInt64]
  constructor
  · exact toInt_inj
  · exact congrArg toInt

/-- An integer that has a native unsigned form is made from it, and from no other. -/
theorem toUInt64?_eq_some_iff_ofUInt64 {value : UInt64} :
    integer.toUInt64? = some value ↔ ofUInt64 value = integer := by
  rw [toUInt64?_eq_some_iff, ← toInt_ofUInt64]
  constructor
  · exact toInt_inj
  · exact congrArg toInt

/-! ## Words -/

/-- The absolute value as a word. The least native integer keeps its bits when it is negated. -/
def absoluteWord (value : Int64) : UInt64 := (if value < 0 then -value else value).toUInt64

/-- `ofInt64` by way of the eight octets of the absolute value. -/
def ofInt64Word (value : Int64) : Integer := ofMagnitude (value < 0) (Word.toOctets (absoluteWord value))

/-- `ofUInt64` by way of the eight octets of the value. -/
def ofUInt64Word (value : UInt64) : Integer := ofUnsigned (Word.toOctets value)

/-- `toUInt64?` with the number put together in a word. -/
def toUInt64Word? (integer : Integer) : Option UInt64 :=
  if integer.negative ∨ 8 < integer.magnitude.length then none else some (Word.ofOctets integer.magnitude)

/-- `toInt64?` with the absolute value put together in a word. -/
def toInt64Word? (integer : Integer) : Option Int64 :=
  if 8 < integer.magnitude.length then none
  else
    let absolute := Word.ofOctets integer.magnitude
    if integer.negative then
      if (1 : UInt64) <<< 63 < absolute then none else some (Int64.ofInt (-absolute.toNat))
    else
      if absolute < (1 : UInt64) <<< 63 then some absolute.toInt64 else none

theorem toNat_absoluteWord (value : Int64) : (absoluteWord value).toNat = value.toInt.natAbs := by
  have hword : value.toInt =
      if 2 * value.toUInt64.toNat < 2 ^ 64 then (value.toUInt64.toNat : Int) else value.toUInt64.toNat - 2 ^ 64 :=
    BitVec.toInt_eq_toNat_cond value.toBitVec
  have hlt := value.toUInt64.toNat_lt
  have hsign : value < 0 ↔ value.toInt < 0 := Int64.lt_iff_toInt_lt
  unfold absoluteWord
  by_cases hnegative : value < 0
  · rw [if_pos hnegative, Int64.toUInt64_neg, UInt64.toNat_neg, UInt64.size]
    rw [hsign] at hnegative
    split at hword <;> omega
  · rw [if_neg hnegative]
    rw [hsign] at hnegative
    split at hword <;> omega

theorem ofInt64Word_eq (value : Int64) : ofInt64Word value = ofInt64 value := by
  apply toInt_inj
  have hsign : decide (value < 0) = decide (value.toInt < 0) := decide_eq_decide.2 Int64.lt_iff_toInt_lt
  rw [ofInt64Word, ofInt64, toInt_ofMagnitude, toInt_ofMagnitude, Word.toNat_toOctets, toNat_absoluteWord,
    Octets.toNat_ofNat, hsign]

theorem ofUInt64Word_eq (value : UInt64) : ofUInt64Word value = ofUInt64 value := by
  apply toInt_inj
  rw [ofUInt64Word, ofUInt64, ofUnsigned, ofUnsigned, toInt_ofMagnitude, toInt_ofMagnitude,
    Word.toNat_toOctets, Octets.toNat_ofNat]

theorem toUInt64Word?_eq (integer : Integer) : integer.toUInt64Word? = integer.toUInt64? := by
  rw [toUInt64Word?, toUInt64?, Word.ofOctets_eq]

/-- No bit is lost: the word of at most eight octets has their number. -/
theorem toInt64Word?_eq (integer : Integer) : integer.toInt64Word? = integer.toInt64? := by
  unfold toInt64Word? toInt64?
  by_cases hfits : integer.magnitude.length ≤ 8
  · rw [if_neg (Nat.not_lt.2 hfits), if_neg (Nat.not_lt.2 hfits)]
    have hword : (Word.ofOctets integer.magnitude).toNat = integer.magnitude.toNat := by
      rw [Word.ofOctets_eq, UInt64.toNat_ofNat_of_lt' ((length_magnitude_le_iff integer).1 hfits)]
    have hmin : ((1 : UInt64) <<< 63).toNat = minNative := rfl
    have hsigned : (Word.ofOctets integer.magnitude).toInt64 = Int64.ofInt integer.magnitude.toNat := by
      rw [Word.ofOctets_eq, UInt64.toInt64_ofNat', Int64.ofInt_eq_ofNat]
    simp only [UInt64.lt_iff_toNat_lt, hword, hmin, hsigned]
  · rw [if_pos (Nat.not_le.1 hfits), if_pos (Nat.not_le.1 hfits)]

/-! ## Result -/

/-- **Native conversions are exact.** Whatever an integer is made from, it has a native form exactly if its
    number is in the range of the native type, and the native integer is that number. An integer with a native
    form is the one that is made from it, so how it was written does not matter. Putting the number together in
    a word, and cutting a word into octets, gives the same. -/
theorem native_exact :
    (∀ (source : Source) (made : Integer), source.integer = .ok made →
      (∀ value : Int64, made.toInt64? = some value ↔ value.toInt = source.number) ∧
      (made.toInt64? = none ↔ source.number < -2 ^ 63 ∨ 2 ^ 63 ≤ source.number) ∧
      (∀ value : UInt64, made.toUInt64? = some value ↔ (value.toNat : Int) = source.number) ∧
      (made.toUInt64? = none ↔ source.number < 0 ∨ 2 ^ 64 ≤ source.number)) ∧
    (∀ integer : Integer,
      (∀ value : Int64, integer.toInt64? = some value ↔ ofInt64 value = integer) ∧
      (∀ value : UInt64, integer.toUInt64? = some value ↔ ofUInt64 value = integer) ∧
      integer.toInt64Word? = integer.toInt64? ∧ integer.toUInt64Word? = integer.toUInt64?) ∧
    (∀ value : Int64, ofInt64Word value = ofInt64 value) ∧
    ∀ value : UInt64, ofUInt64Word value = ofUInt64 value := by
  refine ⟨?_, ?_, ofInt64Word_eq, ofUInt64Word_eq⟩
  · intro source made h
    rw [← Source.toInt_of_integer h]
    exact ⟨fun _ => toInt64?_eq_some_iff, toInt64?_eq_none_iff, fun _ => toUInt64?_eq_some_iff,
      toUInt64?_eq_none_iff⟩
  · intro integer
    exact ⟨fun _ => toInt64?_eq_some_iff_ofInt64, fun _ => toUInt64?_eq_some_iff_ofUInt64,
      toInt64Word?_eq integer, toUInt64Word?_eq integer⟩

/-- The absolute value 2^63 is that of a native signed integer below zero only. The number is the same with an
    octet in front that repeats its sign. -/
theorem native_exact_limit :
    (Source.content .ber [0xFF, 0x80, 0, 0, 0, 0, 0, 0, 0]).integer =
        .ok ⟨true, [0x80, 0, 0, 0, 0, 0, 0, 0], by decide, by decide⟩ ∧
      toInt64? ⟨true, [0x80, 0, 0, 0, 0, 0, 0, 0], by decide, by decide⟩ = some Int64.minValue ∧
      ofInt64 Int64.minValue = ⟨true, [0x80, 0, 0, 0, 0, 0, 0, 0], by decide, by decide⟩ ∧
      (Source.content .der [0x00, 0x80, 0, 0, 0, 0, 0, 0, 0]).integer =
        .ok ⟨false, [0x80, 0, 0, 0, 0, 0, 0, 0], by decide, by decide⟩ ∧
      toInt64? ⟨false, [0x80, 0, 0, 0, 0, 0, 0, 0], by decide, by decide⟩ = none ∧
      toUInt64? ⟨false, [0x80, 0, 0, 0, 0, 0, 0, 0], by decide, by decide⟩ = some 0x8000000000000000 := by
  obtain ⟨hsource, hback, -, -⟩ := native_exact
  have hleast : (Source.content .ber [0xFF, 0x80, 0, 0, 0, 0, 0, 0, 0]).integer =
      .ok ⟨true, [0x80, 0, 0, 0, 0, 0, 0, 0], by decide, by decide⟩ := rfl
  have hlarge : (Source.content .der [0x00, 0x80, 0, 0, 0, 0, 0, 0, 0]).integer =
      .ok ⟨false, [0x80, 0, 0, 0, 0, 0, 0, 0], by decide, by decide⟩ := rfl
  obtain ⟨hsigned, -, -, -⟩ := hsource _ _ hleast
  obtain ⟨-, hnone, hunsigned, -⟩ := hsource _ _ hlarge
  have hmin := (hsigned Int64.minValue).2 rfl
  exact ⟨hleast, hmin, ((hback _).1 _).1 hmin, hlarge, hnone.2 (.inr (by decide)), (hunsigned _).2 rfl⟩

end Integer

end Asn1
