import Asn1.Proofs.Integer

/-!
# `Asn1.Proofs.Integer.Shortest` — content is two's complement, and what is written is its shortest form

All content octets have a number in two's complement, and reading gives the integer of that number: the sign
is the top bit, and the magnitude is stripped after the complement was taken. An octet in front that repeats
the sign changes nothing about the number, and without such an octet no other form is shorter. So the strict
mode accepts the shortest form of each number, which is the one that is written.

## Contents
- **Shortest forms.** `Octets.IsShortest` quantifies over all other content; `Octets.isShortest_iff` finds it in
  the first two octets.
- **Reading.** `Integer.exists_ofContent` in the lenient mode, `Integer.ofContent_der_eq` in the strict one.
- **Writing.** `Integer.eq_content_or_length_lt`: other content of the number is longer.
- **Result.** `Integer.content_twosComplement`.
-/

namespace Asn1

/-! ## Shortest forms -/

namespace Octets

/-- No content of the same number is shorter. Content has at least one octet. -/
def IsShortest (content : Octets) : Prop :=
  ∀ other : Octets, other ≠ [] → toInt other = toInt content → content.length ≤ other.length

/-- The top bit of the first octet is the sign of the number. -/
theorem toInt_neg_iff (first : UInt8) (rest : Octets) : toInt (first :: rest) < 0 ↔ 128 ≤ first.toNat := by
  by_cases hsign : first.toNat < 128
  · rw [toInt_of_lt hsign]
    omega
  · have hle := Nat.not_lt.1 hsign
    have hlt : (toNat (first :: rest) : Int) < 256 ^ (first :: rest).length := by
      exact_mod_cast toNat_lt (first :: rest)
    rw [toInt_of_le hle]
    constructor
    · intro _
      exact hle
    · intro _
      omega

/-- The number does not depend on an octet in front that repeats the sign. -/
theorem toInt_of_isPadded {first second : UInt8} {rest : Octets}
    (h : Integer.isPadded (first :: second :: rest) = true) :
    toInt (second :: rest) = toInt (first :: second :: rest) := by
  simp only [Integer.isPadded, Bool.decide_or, Bool.decide_and, Bool.or_eq_true, Bool.and_eq_true,
    decide_eq_true_eq] at h
  rcases h with ⟨rfl, hsecond⟩ | ⟨rfl, hsecond⟩
  · rw [toInt_of_lt hsecond, toInt_of_lt (by decide), toNat_zero_cons]
  · rw [toInt_of_le hsecond, toInt_of_le (by decide), toNat_cons 0xFF, List.length_cons (a := 0xFF), pow_succ]
    push_cast
    ring

/-- Content is the shortest of its number exactly if it is not padded. -/
theorem isShortest_iff {content : Octets} (hne : content ≠ []) :
    content.IsShortest ↔ Integer.isPadded content = false := by
  constructor
  · intro h
    rw [Bool.eq_false_iff]
    intro hpadded
    match content, hne, hpadded with
    | first :: second :: rest, _, hpadded =>
        have := h (second :: rest) (List.cons_ne_nil _ _) (toInt_of_isPadded hpadded)
        simp only [List.length_cons] at this
        omega
  · intro h other hother hvalue
    exact length_le_of_toInt_eq h hother hvalue.symm

end Octets

namespace Integer

open Octets

/-! ## Reading -/

/-- The lenient mode reads all content of at least one octet, as its number. The top bit is the sign, and the
    magnitude is the shortest form of the absolute value. -/
theorem exists_ofContent (first : UInt8) (rest : Octets) :
    ∃ integer : Integer, ofContent .ber (first :: rest) = .ok integer ∧
      integer.toInt = Octets.toInt (first :: rest) ∧
      integer.negative = decide (128 ≤ first.toNat) ∧
      integer.magnitude = Octets.ofNat (Octets.toInt (first :: rest)).natAbs := by
  obtain ⟨integer, hread⟩ : ∃ integer, ofContent .ber (first :: rest) = .ok integer :=
    ofContent_eq_ok (List.cons_ne_nil first rest) nofun
  obtain ⟨-, -, hvalue⟩ := toInt_ofContent hread
  refine ⟨integer, hread, hvalue, ?_, ?_⟩
  · rw [negative_eq_decide, hvalue]
    exact decide_eq_decide.2 (toInt_neg_iff first rest)
  · rw [magnitude_eq_ofNat, hvalue]

/-- The strict mode reads the shortest content of a number like the lenient one, and nothing else. -/
theorem ofContent_der_eq {content : Octets} {integer : Integer} (h : ofContent .ber content = .ok integer) :
    (content.IsShortest → ofContent .der content = .ok integer) ∧
      (¬ content.IsShortest → ofContent .der content = .error .integerNotMinimal) := by
  obtain ⟨hne, -, hvalue⟩ := toInt_ofContent h
  rw [isShortest_iff hne]
  constructor
  · intro hshortest
    exact ofContent_eq_ok_iff.2 ⟨hne, fun _ => hshortest, hvalue⟩
  · intro hpadded
    rw [Bool.not_eq_false] at hpadded
    obtain ⟨first, rest, rfl⟩ := List.exists_cons_of_ne_nil hne
    rw [ofContent]
    exact if_pos ⟨rfl, hpadded⟩

/-! ## Writing -/

/-- Content of the number of an integer is what is written for it, or longer. -/
theorem eq_content_or_length_lt {integer : Integer} {other : Octets} (hne : other ≠ [])
    (hvalue : Octets.toInt other = integer.toInt) :
    other = integer.content ∨ integer.content.length < other.length := by
  have hsame : Octets.toInt integer.content = Octets.toInt other := integer.toInt_content.trans hvalue.symm
  cases hpadded : isPadded other with
  | false =>
      exact .inl (eq_of_toInt_eq hne integer.content_ne_nil hpadded integer.isPadded_content hsame.symm)
  | true =>
      right
      match other, hpadded with
      | first :: second :: rest, hpadded =>
          -- one octet less has the same number, and what is written is no longer than that
          have hle := length_le_of_toInt_eq integer.isPadded_content (List.cons_ne_nil second rest)
            (hsame.trans (toInt_of_isPadded hpadded).symm)
          exact Nat.lt_of_le_of_lt hle (Nat.lt_succ_self _)

/-! ## Result -/

/-- **Content means its two's complement value.** The lenient mode reads all content as the integer of its
    number, without leading zeros and with the top bit as its sign, which zero does not have. The strict mode
    reads it with the same result if no other content of the number is shorter, and refuses it otherwise. What
    is written for an integer is as long as the integer says and has its number, and all other content of that
    number is longer. -/
theorem content_twosComplement :
    (∀ first rest, ∃ integer : Integer, ofContent .ber (first :: rest) = .ok integer ∧
      integer.toInt = Octets.toInt (first :: rest) ∧
      integer.negative = decide (128 ≤ first.toNat) ∧
      integer.magnitude = Octets.ofNat (Octets.toInt (first :: rest)).natAbs ∧
      integer.magnitude.head? ≠ some 0 ∧
      (integer.magnitude = [] → integer.negative = false) ∧
      (IsShortest (first :: rest) → ofContent .der (first :: rest) = .ok integer) ∧
      (¬ IsShortest (first :: rest) → ofContent .der (first :: rest) = .error .integerNotMinimal)) ∧
    ∀ integer : Integer, integer.content.length = integer.contentLen ∧ integer.content ≠ [] ∧
      Octets.toInt integer.content = integer.toInt ∧
      ∀ other : Octets, other ≠ [] → Octets.toInt other = integer.toInt →
        other = integer.content ∨ integer.content.length < other.length := by
  constructor
  · intro first rest
    obtain ⟨integer, hread, hvalue, hsign, hmagnitude⟩ := exists_ofContent first rest
    obtain ⟨hshortest, hlonger⟩ := ofContent_der_eq hread
    refine ⟨integer, hread, hvalue, hsign, hmagnitude, ?_, ?_, hshortest, hlonger⟩
    · rw [hmagnitude]
      exact head?_ofNat _
    · intro hnil
      have hzero : integer.toInt = 0 := by simp [toInt, hnil]
      rw [negative_eq_decide, hzero]
      rfl
  · intro integer
    refine ⟨length_content integer, integer.content_ne_nil, integer.toInt_content, ?_⟩
    intro other hne hvalue
    exact eq_content_or_length_lt hne hvalue

/-- The number -256 behind an octet that repeats its sign is read by the lenient mode only. The octets behind
    it are the shortest ones of the number, and those that are written for it. -/
theorem content_twosComplement_padded :
    ofContent .ber [0xFF, 0xFF, 0x00] = .ok ⟨true, [0x01, 0x00], by decide, by decide⟩ ∧
      ofContent .der [0xFF, 0xFF, 0x00] = .error .integerNotMinimal ∧
      ofContent .der [0xFF, 0x00] = .ok ⟨true, [0x01, 0x00], by decide, by decide⟩ ∧
      content ⟨true, [0x01, 0x00], by decide, by decide⟩ = [0xFF, 0x00] ∧
      (content ⟨true, [0x01, 0x00], by decide, by decide⟩).length < [(0xFF : UInt8), 0xFF, 0x00].length := by
  obtain ⟨hread, hwrite⟩ := content_twosComplement
  have hpadded : ¬ IsShortest [0xFF, 0xFF, 0x00] := by
    intro h
    have := h [0xFF, 0x00] (List.cons_ne_nil _ _) (by decide)
    exact absurd this (by decide)
  have hshortest : IsShortest [0xFF, 0x00] := (isShortest_iff (List.cons_ne_nil _ _)).2 (by decide)
  obtain ⟨padded, hber, -, -, -, -, -, -, hrefused⟩ := hread 0xFF [0xFF, 0x00]
  obtain ⟨shortest, hsame, -, -, -, -, -, hder, -⟩ := hread 0xFF [0x00]
  obtain ⟨-, -, -, hother⟩ := hwrite ⟨true, [0x01, 0x00], by decide, by decide⟩
  obtain rfl := Except.ok.inj (hber.symm.trans rfl)
  obtain rfl := Except.ok.inj (hsame.symm.trans rfl)
  exact ⟨hber, hrefused hpadded, hder hshortest, by decide,
    (hother [0xFF, 0xFF, 0x00] (List.cons_ne_nil _ _) (by decide)).resolve_left (by decide)⟩

end Integer

end Asn1
