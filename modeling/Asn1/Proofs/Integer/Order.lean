import Asn1.Proofs.Integer.Shortest

/-!
# `Asn1.Proofs.Integer.Order` — integers are ordered like their numbers

Two integers are compared by the length of their magnitudes, then by their octets, and the other way round if
both are negative. That is the order of their numbers because no magnitude has a leading zero and zero is not
negative, whichever way the integers were made.

## Contents
- **Magnitudes.** `Octets.compare_eq_compare_toNat` for octets of one length,
  `Integer.compareMagnitude_eq_compare_toNat` for octets without leading zeros.
- **Integers.** `Integer.compare_eq_compare_toInt`, and what it says of sorting.
- **Sources.** `Integer.Source` lists the ways to make an integer, with the number and the sign of each.
- **Result.** `Integer.compare_numeric`.
-/

namespace Asn1

/-! ## Magnitudes -/

/-- Octets are ordered like the numbers they stand for. -/
theorem compare_octet (a b : UInt8) : Ord.compare a b = Ord.compare a.toNat b.toNat := by
  simp only [Ord.compare, compareOfLessAndEq, UInt8.lt_iff_toNat_lt, ← UInt8.toNat_inj]

/-- The lower part of a number stays below the weight of the higher part, so it decides only between numbers
    with the same higher part. -/
theorem compare_then_compare {width low others : Nat} (high other : Nat) (hlow : low < width)
    (hothers : others < width) :
    (Ord.compare high other).then (Ord.compare low others) =
      Ord.compare (high * width + low) (other * width + others) := by
  rcases Nat.lt_trichotomy high other with hlt | rfl | hgt
  · -- one more in the higher part outweighs all that the lower part can be
    have hweight := Nat.mul_le_mul_right width (Nat.succ_le_of_lt hlt)
    rw [Nat.succ_mul] at hweight
    have hnumber : high * width + low < other * width + others := by omega
    rw [Nat.compare_eq_lt.2 hlt, Nat.compare_eq_lt.2 hnumber]
    rfl
  · -- with one higher part, the lower parts decide on both sides
    rw [Nat.compare_eq_eq.2 rfl]
    show Ord.compare low others = _
    symm
    cases hcompare : Ord.compare low others with
    | lt =>
        rw [Nat.compare_eq_lt] at hcompare ⊢
        omega
    | eq =>
        rw [Nat.compare_eq_eq] at hcompare ⊢
        omega
    | gt =>
        rw [Nat.compare_eq_gt] at hcompare ⊢
        omega
  · have hweight := Nat.mul_le_mul_right width (Nat.succ_le_of_lt hgt)
    rw [Nat.succ_mul] at hweight
    have hnumber : other * width + others < high * width + low := by omega
    rw [Nat.compare_eq_gt.2 hgt, Nat.compare_eq_gt.2 hnumber]
    rfl

/-- Strings of octets of one length are ordered like the numbers they spell. -/
theorem Octets.compare_eq_compare_toNat {a b : Octets} (h : a.length = b.length) :
    Ord.compare a b = Ord.compare a.toNat b.toNat := by
  induction a generalizing b with
  | nil =>
      obtain rfl := List.length_eq_zero_iff.1 h.symm
      rfl
  | cons first rest ih =>
      match b, h with
      | other :: others, h =>
          have hlength : rest.length = others.length := Nat.succ.inj h
          have hothers : toNat others < 256 ^ rest.length := by
            rw [hlength]
            exact toNat_lt others
          rw [List.compare_cons_cons, compare_octet, ih hlength,
            compare_then_compare _ _ (toNat_lt rest) hothers, toNat_cons, toNat_cons, ← hlength]

namespace Integer

/-- More octets without a leading zero spell a larger number. -/
theorem toNat_lt_of_length_lt {a b : Octets} (hb : b.head? ≠ some 0) (h : a.length < b.length) :
    a.toNat < b.toNat := by
  obtain ⟨first, rest, rfl⟩ := List.exists_cons_of_length_pos (Nat.zero_lt_of_lt h)
  calc a.toNat < 256 ^ a.length := Octets.toNat_lt a
    _ ≤ 256 ^ rest.length := Nat.pow_le_pow_right (by decide) (Nat.le_of_lt_succ h)
    _ ≤ Octets.toNat (first :: rest) := Octets.le_toNat_of_head? hb

/-- Magnitudes without leading zeros are ordered like their numbers. -/
theorem compareMagnitude_eq_compare_toNat {a b : Octets} (ha : a.head? ≠ some 0) (hb : b.head? ≠ some 0) :
    compareMagnitude a b = Ord.compare a.toNat b.toNat := by
  unfold compareMagnitude
  rcases Nat.lt_trichotomy a.length b.length with hlt | heq | hgt
  · rw [Nat.compare_eq_lt.2 hlt, Nat.compare_eq_lt.2 (toNat_lt_of_length_lt hb hlt)]
    rfl
  · rw [Nat.compare_eq_eq.2 heq, Octets.compare_eq_compare_toNat heq]
    rfl
  · rw [Nat.compare_eq_gt.2 hgt, Nat.compare_eq_gt.2 (toNat_lt_of_length_lt ha hgt)]
    rfl

/-! ## Integers -/

/-- Numbers are ordered as integers like they are as naturals. -/
theorem compare_natCast (a b : Nat) : Ord.compare (a : Int) b = Ord.compare a b := by
  rw [← cmp_eq_compare, ← cmp_eq_compare]
  exact Nat.strictMono_cast.cmp_map_eq a b

/-- Below zero the order is the other way round. -/
theorem compare_neg_natCast (a b : Nat) : Ord.compare (-a : Int) (-b) = (Ord.compare a b).swap := by
  have hanti : StrictAnti fun number : Nat => (-number : Int) := by
    intro low high hlt
    show -(high : Int) < -low
    omega
  rw [Nat.compare_swap, ← cmp_eq_compare, ← cmp_eq_compare]
  exact hanti.cmp_map_eq a b

/-- **The order of integers is that of their numbers.** -/
theorem compare_eq_compare_toInt (a b : Integer) : compare a b = Ord.compare a.toInt b.toInt := by
  have hmagnitude := compareMagnitude_eq_compare_toNat a.head?_magnitude b.head?_magnitude
  have hsignA := negative_eq_decide a
  have hsignB := negative_eq_decide b
  unfold compare
  cases hnegativeA : a.negative with
  | false =>
      rw [hnegativeA, eq_comm, decide_eq_false_iff_not] at hsignA
      cases hnegativeB : b.negative with
      | false =>
          show compareMagnitude a.magnitude b.magnitude = _
          rw [hmagnitude, ← compare_natCast, toInt, toInt, hnegativeA, hnegativeB]
          rfl
      | true =>
          -- zero is not negative, so unlike signs are unlike numbers
          rw [hnegativeB, eq_comm, decide_eq_true_eq] at hsignB
          exact (Int.compare_eq_gt.2 (by omega)).symm
  | true =>
      rw [hnegativeA, eq_comm, decide_eq_true_eq] at hsignA
      cases hnegativeB : b.negative with
      | false =>
          rw [hnegativeB, eq_comm, decide_eq_false_iff_not] at hsignB
          exact (Int.compare_eq_lt.2 (by omega)).symm
      | true =>
          show (compareMagnitude a.magnitude b.magnitude).swap = _
          rw [hmagnitude, ← compare_neg_natCast, toInt, toInt, hnegativeA, hnegativeB]
          rfl

/-- Integers that compare as equal are the same. -/
theorem compare_eq_eq_iff {a b : Integer} : compare a b = .eq ↔ a = b := by
  rw [compare_eq_compare_toInt, Int.compare_eq_eq]
  constructor
  · exact toInt_inj
  · exact congrArg toInt

theorem isLE_compare_iff {a b : Integer} : (compare a b).isLE = true ↔ a.toInt ≤ b.toInt := by
  rw [compare_eq_compare_toInt, Int.isLE_compare]

/-- Sorting puts the numbers into ascending order. -/
theorem pairwise_sort (integers : List Integer) : (sort integers).Pairwise fun a b => a.toInt ≤ b.toInt := by
  have hsorted : (sort integers).Pairwise fun a b => (compare a b).isLE = true := by
    apply List.pairwise_mergeSort
    · intro a b c hab hbc
      rw [isLE_compare_iff] at hab hbc ⊢
      exact Int.le_trans hab hbc
    · intro a b
      rw [Bool.or_eq_true, isLE_compare_iff, isLE_compare_iff]
      exact Int.le_total a.toInt b.toInt
  exact hsorted.imp isLE_compare_iff.1

/-! ## Sources -/

/-- The ways to make an integer. -/
inductive Source where
  | zero
  /-- Big-endian octets, with leading zeros or without. -/
  | unsigned (octets : Octets)
  /-- A native signed integer. -/
  | int64 (value : Int64)
  /-- A native unsigned integer. -/
  | uint64 (value : UInt64)
  /-- Content octets to be read. -/
  | content (mode : Mode) (octets : Octets)

namespace Source

/-- The integer made from a source. Content may be refused. -/
def integer : Source → Except ContentError Integer
  | zero => .ok Integer.zero
  | unsigned octets => .ok (ofUnsigned octets)
  | int64 value => .ok (ofInt64 value)
  | uint64 value => .ok (ofUInt64 value)
  | content mode octets => ofContent mode octets

/-- The number that a source stands for. -/
def number : Source → Int
  | zero => 0
  | unsigned octets => octets.toNat
  | int64 value => value.toInt
  | uint64 value => value.toNat
  | content _ octets => octets.toInt

/-- Whether a source asks for a negative integer: a native one has a sign, and content has a top bit. -/
def negative : Source → Bool
  | zero | unsigned _ | uint64 _ => false
  | int64 value => value.toInt < 0
  | content _ octets => octets.head?.any (128 ≤ ·.toNat)

/-- What is made from a source has its number. -/
theorem toInt_of_integer {source : Source} {made : Integer} (h : source.integer = .ok made) :
    made.toInt = source.number := by
  cases source with
  | zero =>
      rw [← Except.ok.inj h]
      rfl
  | unsigned octets =>
      rw [← Except.ok.inj h, ofUnsigned, toInt_ofMagnitude]
      rfl
  | int64 value =>
      rw [← Except.ok.inj h, ofInt64, toInt_ofMagnitude, Octets.toNat_ofNat, number]
      by_cases hnegative : value.toInt < 0
      · rw [if_pos (decide_eq_true hnegative)]
        omega
      · rw [if_neg (Bool.not_eq_true _ ▸ decide_eq_false hnegative)]
        omega
  | uint64 value =>
      rw [← Except.ok.inj h, ofUInt64, ofUnsigned, toInt_ofMagnitude, Octets.toNat_ofNat]
      rfl
  | content mode octets => exact (toInt_ofContent h).2.2

/-- What is made from a source has the sign that is asked for. No source asks for a negative zero. -/
theorem negative_of_integer {source : Source} {made : Integer} (h : source.integer = .ok made) :
    made.negative = source.negative := by
  rw [negative_eq_decide, toInt_of_integer h]
  cases source with
  | zero => rfl
  | unsigned octets => exact decide_eq_false (Int.not_lt.2 (Int.natCast_nonneg _))
  | int64 value => rfl
  | uint64 value => exact decide_eq_false (Int.not_lt.2 (Int.natCast_nonneg _))
  | content mode octets =>
      cases octets with
      | nil =>
          -- content without octets has no sign, but it is refused
          cases h
      | cons first rest => exact decide_eq_decide.2 (Octets.toInt_neg_iff first rest)

end Source

/-! ## Result -/

/-- **Comparison is numeric.** What is made from a source has its number and its sign and no leading zeros. Two
    integers made from any two sources compare as the numbers of these do, and they are equal, and compare as
    equal, exactly if the numbers are the same. Sorting rearranges integers so that their numbers ascend. -/
theorem compare_numeric :
    (∀ (source : Source) (made : Integer), source.integer = .ok made →
      made.toInt = source.number ∧ made.negative = source.negative ∧
        made.magnitude = Octets.ofNat source.number.natAbs) ∧
    (∀ (source other : Source) (a b : Integer), source.integer = .ok a → other.integer = .ok b →
      compare a b = Ord.compare source.number other.number ∧
        (compare a b = .eq ↔ a = b) ∧ (a = b ↔ source.number = other.number)) ∧
    ∀ integers : List Integer, (sort integers).Perm integers ∧
      (sort integers).Pairwise fun a b => a.toInt ≤ b.toInt := by
  refine ⟨?_, ?_, ?_⟩
  · intro source made h
    refine ⟨Source.toInt_of_integer h, Source.negative_of_integer h, ?_⟩
    rw [← Source.toInt_of_integer h]
    exact magnitude_eq_ofNat made
  · intro source other a b ha hb
    rw [← Source.toInt_of_integer ha, ← Source.toInt_of_integer hb]
    refine ⟨compare_eq_compare_toInt a b, compare_eq_eq_iff, ?_⟩
    constructor
    · exact congrArg toInt
    · exact toInt_inj
  · intro integers
    exact ⟨List.mergeSort_perm _ _, pairwise_sort integers⟩

/-- The number -256 from content with a superfluous octet and from a native integer: one integer, and less than
    the one that two octets with a leading zero spell. -/
theorem compare_numeric_padded :
    (Source.content .ber [0xFF, 0xFF, 0x00]).integer = .ok ⟨true, [0x01, 0x00], by decide, by decide⟩ ∧
      (Source.int64 (-256)).integer = .ok ⟨true, [0x01, 0x00], by decide, by decide⟩ ∧
      (Source.unsigned [0x00, 0x01]).integer = .ok ⟨false, [0x01], by decide, by decide⟩ ∧
      compare ⟨true, [0x01, 0x00], by decide, by decide⟩ ⟨true, [0x01, 0x00], by decide, by decide⟩ = .eq ∧
      compare ⟨true, [0x01, 0x00], by decide, by decide⟩ ⟨false, [0x01], by decide, by decide⟩ = .lt := by
  have hcontent : (Source.content .ber [0xFF, 0xFF, 0x00]).integer =
      .ok ⟨true, [0x01, 0x00], by decide, by decide⟩ := rfl
  have hnative : (Source.int64 (-256)).integer = .ok ⟨true, [0x01, 0x00], by decide, by decide⟩ := by
    decide +kernel
  have hunsigned : (Source.unsigned [0x00, 0x01]).integer = .ok ⟨false, [0x01], by decide, by decide⟩ := rfl
  obtain ⟨-, hcompare, -⟩ := compare_numeric
  obtain ⟨-, hequal, -⟩ := hcompare _ _ _ _ hcontent hnative
  obtain ⟨hless, -, -⟩ := hcompare _ _ _ _ hcontent hunsigned
  exact ⟨hcontent, hnative, hunsigned, hequal.2 rfl, hless.trans (by decide)⟩

end Integer

end Asn1
