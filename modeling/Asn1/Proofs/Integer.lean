import Asn1.Integer
import Asn1.Proofs.Octets

/-!
# `Asn1.Proofs.Integer` — INTEGER content is two's complement

Content octets and integers are compared through the number they stand for: `Octets.toInt` gives the
first octet a negative weight where its top bit is set.

## Contents
- **Two's complement.** `Octets.toInt`, and `Integer.eq_of_toInt_eq`: content without padding is determined
  by its number.
- **Integers.** `Integer.magnitude_eq_ofNat` and `Integer.negative_eq_decide` read an integer off its number, so
  `Integer.toInt_inj`: an integer is determined by its number.
- **Content.** `Integer.ofContent_eq_ok_iff` and `Integer.toInt_content`: reading and writing keep the number,
  and what is written has no padding.
- **Round trips.** `Integer.ofContent_content` and `Integer.content_of_ofContent_der`.
-/

namespace Asn1

/-! ## Two's complement -/

namespace Octets

/-- The number that octets stand for in two's complement: the first octet counts from -128 to 127, all
    others from 0 to 255. -/
def toInt : Octets → Int
  | [] => 0
  | first :: rest =>
    (if first.toNat < 128 then (first.toNat : Int) else first.toNat - 256) * 256 ^ rest.length +
      toNat rest

/-- Without the top bit, the number is the one that the octets spell. -/
theorem toInt_of_lt {first : UInt8} {rest : Octets} (h : first.toNat < 128) :
    toInt (first :: rest) = toNat (first :: rest) := by
  rw [toInt, if_pos h, toNat_cons]
  push_cast
  ring

/-- With the top bit, the number is that much below zero as is missing to the next power of 256. -/
theorem toInt_of_le {first : UInt8} {rest : Octets} (h : 128 ≤ first.toNat) :
    toInt (first :: rest) = toNat (first :: rest) - (256 : Int) ^ (first :: rest).length := by
  rw [toInt, if_neg (Nat.not_lt.2 h), toNat_cons, List.length_cons, pow_succ]
  push_cast
  ring

/-- Inverting all bits gives the distance to the largest number of the width. -/
theorem toNat_complement (octets : Octets) :
    toNat (octets.map (~~~ ·)) + octets.toNat + 1 = 256 ^ octets.length := by
  induction octets with
  | nil => rfl
  | cons octet rest ih =>
      have hlt := octet.toNat_lt
      have hnot : (~~~octet).toNat = 255 - octet.toNat := by rw [UInt8.toNat_not]; rfl
      rw [List.map_cons, toNat_cons, toNat_cons, List.length_map, List.length_cons, pow_succ, hnot]
      generalize 256 ^ rest.length = width at ih ⊢
      have hsum : (255 - octet.toNat) * width + octet.toNat * width = 255 * width := by
        rw [← Nat.add_mul, Nat.sub_add_cancel (by omega)]
      omega

/-- The sum is one more, less the width if it did not fit. -/
theorem toNat_increment (octets : Octets) :
    toNat (increment octets).1 + (if (increment octets).2 then 256 ^ octets.length else 0) =
      octets.toNat + 1 := by
  fun_induction increment octets with
  | case1 => simp
  | case2 octet rest sum heq ih =>
      have hlength : sum.length = rest.length := by
        have := length_increment rest
        rwa [heq] at this
      rw [heq] at ih
      simp only [if_true] at ih
      rw [toNat_cons, toNat_cons, hlength, List.length_cons, pow_succ]
      by_cases hfull : octet = 0xFF
      · subst hfull
        simp only [beq_self_eq_true, if_true, show (0xFF : UInt8) + 1 = 0 from rfl]
        simp only [UInt8.toNat_zero, show (0xFF : UInt8).toNat = 255 from rfl]
        omega
      · have hlt := octet.toNat_lt
        have hne : octet.toNat ≠ 255 := fun h => hfull (UInt8.toNat_inj.1 h)
        have hadd : (octet + 1).toNat = octet.toNat + 1 := by
          rw [UInt8.toNat_add]
          simp only [show (1 : UInt8).toNat = 1 from rfl]
          omega
        rw [beq_false_of_ne hfull, if_neg (by simp), hadd, Nat.add_mul]
        omega
  | case3 octet rest sum heq ih =>
      have hlength : sum.length = rest.length := by
        have := length_increment rest
        rwa [heq] at this
      rw [heq] at ih
      simp only [Bool.false_eq_true, if_false] at ih ⊢
      rw [toNat_cons, toNat_cons, hlength]
      omega

/-- Negation in two's complement is subtraction from the power of 256 that the width gives. -/
theorem toNat_negate {octets : Octets} (h : octets.toNat ≠ 0) :
    toNat octets.negate = 256 ^ octets.length - octets.toNat := by
  have hcomplement := toNat_complement octets
  have hincrement := toNat_increment (octets.map (~~~ ·))
  have hlt := toNat_lt (increment (octets.map (~~~ ·))).1
  rw [length_increment] at hlt
  rw [List.length_map] at hincrement hlt
  rw [negate]
  split at hincrement <;> omega

/-- A number that does not start with a zero octet is at least the weight of its first octet. -/
theorem le_toNat_of_head? {first : UInt8} {rest : Octets} (h : (first :: rest).head? ≠ some 0) :
    256 ^ rest.length ≤ toNat (first :: rest) := by
  have hfirst : 1 ≤ first.toNat := by
    have : first.toNat ≠ 0 := fun hzero => h (congrArg some (UInt8.toNat_inj.1 hzero))
    omega
  rw [toNat_cons]
  have := Nat.mul_le_mul_right (256 ^ rest.length) hfirst
  omega

/-! ### Content is determined by its number -/

/-- A number and lower digits stay within bounds in the higher width exactly if the number does. -/
private theorem within_iff {width low : Int} (high : Int) (hlow : 0 ≤ low) (hlt : low < width) :
    (-(128 * width) ≤ high * width + low ↔ -128 ≤ high) ∧
      (high * width + low < 128 * width ↔ high < 128) := by
  refine ⟨⟨fun h => ?_, fun h => by nlinarith⟩, ⟨fun h => ?_, fun h => by nlinarith⟩⟩
  · by_contra hhigh
    nlinarith
  · by_contra hhigh
    nlinarith

/-- The range of numbers that a width holds. -/
theorem toInt_bounds (first : UInt8) (rest : Octets) :
    -(128 * 256 ^ rest.length : Int) ≤ toInt (first :: rest) ∧
      toInt (first :: rest) < 128 * 256 ^ rest.length := by
  have hlt := first.toNat_lt
  have hrest : (toNat rest : Int) < 256 ^ rest.length := by exact_mod_cast toNat_lt rest
  rw [toInt]
  obtain ⟨hlow, hhigh⟩ := within_iff
    (if first.toNat < 128 then (first.toNat : Int) else first.toNat - 256) (by omega) hrest
  rw [hlow, hhigh]
  split <;> omega

/-- Content is padded exactly if its number fits a smaller width. -/
theorem isPadded_iff (first second : UInt8) (rest : Octets) :
    Integer.isPadded (first :: second :: rest) = true ↔
      -(128 * 256 ^ rest.length : Int) ≤ toInt (first :: second :: rest) ∧
        toInt (first :: second :: rest) < 128 * 256 ^ rest.length := by
  have hfirst := first.toNat_lt
  have hsecond := second.toNat_lt
  have hrest : (toNat rest : Int) < 256 ^ rest.length := by exact_mod_cast toNat_lt rest
  have hzero : first = 0x00 ↔ first.toNat = 0 := by rw [← UInt8.toNat_inj]; rfl
  have hfull : first = 0xFF ↔ first.toNat = 255 := by rw [← UInt8.toNat_inj]; rfl
  have hvalue : toInt (first :: second :: rest) =
      ((if first.toNat < 128 then (first.toNat : Int) else first.toNat - 256) * 256 + second.toNat) *
        256 ^ rest.length + toNat rest := by
    rw [toInt, toNat_cons, List.length_cons, pow_succ]
    push_cast
    ring
  obtain ⟨hlow, hhigh⟩ := within_iff
    ((if first.toNat < 128 then (first.toNat : Int) else first.toNat - 256) * 256 + second.toNat)
    (by omega) hrest
  rw [hvalue, hlow, hhigh]
  simp only [Integer.isPadded, hzero, hfull, Bool.decide_or, Bool.or_eq_true, decide_eq_true_eq]
  split <;> omega

/-- Content without padding is no longer than other content with the same number. -/
theorem length_le_of_toInt_eq {a b : Octets} (ha : Integer.isPadded a = false) (hb : b ≠ [])
    (h : toInt a = toInt b) : a.length ≤ b.length := by
  by_contra hlonger
  obtain ⟨first, rest, rfl⟩ := List.exists_cons_of_ne_nil hb
  match a, ha, h, hlonger with
  | [], _, _, hlonger => simp at hlonger
  | [_], _, _, hlonger => simp at hlonger
  | high :: second :: low, ha, h, hlonger =>
      -- the number fits the smaller width of the other content, so the longer one has padding
      have hwidth : (256 : Int) ^ rest.length ≤ 256 ^ low.length :=
        pow_le_pow_right₀ (by decide) (by simp only [List.length_cons] at hlonger; omega)
      obtain ⟨hmin, hmax⟩ := toInt_bounds first rest
      have hpadded := (isPadded_iff high second low).2 ⟨by rw [h]; linarith, by rw [h]; linarith⟩
      rw [ha] at hpadded
      simp at hpadded

/-- **Content without padding is determined by its number.** -/
theorem eq_of_toInt_eq {a b : Octets} (ha : a ≠ []) (hb : b ≠ []) (hpa : Integer.isPadded a = false)
    (hpb : Integer.isPadded b = false) (h : toInt a = toInt b) : a = b := by
  have hlength : a.length = b.length :=
    Nat.le_antisymm (length_le_of_toInt_eq hpa hb h) (length_le_of_toInt_eq hpb ha h.symm)
  obtain ⟨first, rest, rfl⟩ := List.exists_cons_of_ne_nil ha
  obtain ⟨other, others, rfl⟩ := List.exists_cons_of_ne_nil hb
  refine eq_of_toNat_eq hlength ?_
  have hlt : (toNat (first :: rest) : Int) < 256 ^ (first :: rest).length := by
    exact_mod_cast toNat_lt (first :: rest)
  have hlt' : (toNat (other :: others) : Int) < 256 ^ (first :: rest).length := by
    rw [hlength]
    exact_mod_cast toNat_lt (other :: others)
  have hnumber (octet : UInt8) (octets : Octets) (hlen : octets.length = rest.length) :
      toInt (octet :: octets) = toNat (octet :: octets) ∨
        toInt (octet :: octets) = toNat (octet :: octets) - (256 : Int) ^ (first :: rest).length := by
    by_cases hsign : octet.toNat < 128
    · exact .inl (toInt_of_lt hsign)
    · refine .inr ((toInt_of_le (Nat.not_lt.1 hsign)).trans ?_)
      rw [List.length_cons, List.length_cons, hlen]
  -- both numbers are the octets' own up to one width, so they differ by less than the width
  rcases hnumber first rest rfl with h1 | h1 <;>
    rcases hnumber other others (by simpa using hlength.symm) with h2 | h2 <;> omega

end Octets

namespace Integer

open Octets

/-! ## Integers -/

/-- The magnitude is the shortest form of the absolute value. -/
theorem magnitude_eq_ofNat (integer : Integer) :
    integer.magnitude = Octets.ofNat integer.toInt.natAbs := by
  have habs : integer.toInt.natAbs = integer.magnitude.toNat := by
    rw [toInt]
    split <;> simp
  rw [habs, ofNat_toNat integer.head?_magnitude]

/-- The sign is that of the number, so zero has none. -/
theorem negative_eq_decide (integer : Integer) : integer.negative = decide (integer.toInt < 0) := by
  rw [toInt]
  cases hnegative : integer.negative with
  | false => simp
  | true =>
      have hne : integer.magnitude.toNat ≠ 0 := by
        intro hzero
        have hnil : integer.magnitude = [] := by
          rw [← ofNat_toNat integer.head?_magnitude, hzero, Octets.ofNat, if_pos rfl]
        rw [integer.nonneg_of_zero hnil] at hnegative
        simp at hnegative
      simp only [if_true]
      exact (decide_eq_true (by omega)).symm

/-- **An integer is determined by its number.** -/
theorem toInt_inj {a b : Integer} (h : a.toInt = b.toInt) : a = b := by
  have hmagnitude : a.magnitude = b.magnitude := by rw [magnitude_eq_ofNat, magnitude_eq_ofNat, h]
  have hnegative : a.negative = b.negative := by rw [negative_eq_decide, negative_eq_decide, h]
  obtain ⟨negativeA, magnitudeA, _, _⟩ := a
  obtain ⟨negativeB, magnitudeB, _, _⟩ := b
  subst hmagnitude hnegative
  rfl

/-! ## Content -/

/-- Reading succeeds on content of at least one octet, without padding in DER. -/
theorem ofContent_eq_ok {mode : Mode} {content : Octets} (hne : content ≠ [])
    (hpadded : mode.isDer = true → isPadded content = false) :
    ∃ integer, ofContent mode content = .ok integer := by
  obtain ⟨first, rest, rfl⟩ := List.exists_cons_of_ne_nil hne
  rw [ofContent]
  have hnot : ¬ (mode.isDer = true ∧ isPadded (first :: rest) = true) := by
    rintro ⟨hder, h⟩
    rw [hpadded hder] at h
    simp at h
  simp only [if_neg hnot]
  split
  · exact ⟨_, rfl⟩
  · exact ⟨_, rfl⟩

/-- **Reading keeps the number**, and refuses padding in DER. -/
theorem toInt_ofContent {mode : Mode} {content : Octets} {integer : Integer}
    (h : ofContent mode content = .ok integer) :
    content ≠ [] ∧ (mode.isDer = true → isPadded content = false) ∧
      integer.toInt = Octets.toInt content := by
  cases content with
  | nil => simp [ofContent] at h
  | cons first rest =>
      rw [ofContent] at h
      split at h
      · simp at h
      · rename_i hpadded
        refine ⟨by simp, fun hder => by simpa [hder] using hpadded, ?_⟩
        split at h
        · rename_i hsign
          obtain rfl := Except.ok.inj h
          rw [toInt_ofMagnitude, Octets.toInt_of_lt hsign]
          simp
        · rename_i hsign
          obtain rfl := Except.ok.inj h
          have hpos : toNat (first :: rest) ≠ 0 := by
            rw [toNat_cons]
            have : 0 < 256 ^ rest.length := Nat.pow_pos (by decide)
            have := Nat.mul_le_mul_right (256 ^ rest.length) (Nat.not_lt.1 hsign)
            omega
          have hlt := toNat_lt (first :: rest)
          rw [toInt_ofMagnitude, Octets.toInt_of_le (Nat.not_lt.1 hsign), if_pos rfl,
            toNat_negate hpos]
          push_cast [Nat.cast_sub (Nat.le_of_lt hlt)]
          ring

/-- **Content is read as the integer of its number**, if there is any, without padding in DER. -/
theorem ofContent_eq_ok_iff {mode : Mode} {content : Octets} {integer : Integer} :
    ofContent mode content = .ok integer ↔
      content ≠ [] ∧ (mode.isDer = true → isPadded content = false) ∧
        integer.toInt = Octets.toInt content := by
  constructor
  · exact toInt_ofContent
  · rintro ⟨hne, hpadded, hvalue⟩
    obtain ⟨other, hother⟩ := ofContent_eq_ok hne hpadded
    rw [hother, toInt_inj ((toInt_ofContent hother).2.2.trans hvalue.symm)]

/-- Octets that are not all zero spell a number above zero. -/
theorem any_ne_zero_iff (octets : Octets) : octets.any (· ≠ 0) = true ↔ 0 < toNat octets := by
  induction octets with
  | nil => simp
  | cons octet rest ih =>
      have hwidth : 0 < 256 ^ rest.length := Nat.pow_pos (by decide)
      rw [List.any_cons, Bool.or_eq_true, ih, toNat_cons]
      by_cases hzero : octet = 0
      · simp [hzero]
      · have hpos : 0 < octet.toNat := by
          have : octet.toNat ≠ 0 := fun h => hzero (UInt8.toNat_inj.1 h)
          omega
        have := Nat.mul_pos hpos hwidth
        simp only [ne_eq, hzero, not_false_eq_true, decide_true, true_or, true_iff]
        omega

/-- Whether an octet for the sign is needed, in terms of the number. -/
theorem needsSignOctet_iff (negative : Bool) (first : UInt8) (rest : Octets) :
    needsSignOctet negative (first :: rest) = true ↔
      if negative then 128 * 256 ^ rest.length < toNat (first :: rest)
      else 128 * 256 ^ rest.length ≤ toNat (first :: rest) := by
  have hrest := toNat_lt rest
  have hany := any_ne_zero_iff rest
  have hfirst : first = 0x80 ↔ first.toNat = 128 := by rw [← UInt8.toNat_inj]; rfl
  rw [toNat_cons]
  generalize 256 ^ rest.length = width at hrest ⊢
  simp only [needsSignOctet, hany, hfirst, Bool.decide_or]
  rcases Nat.lt_trichotomy first.toNat 128 with h | h | h
  · have := Nat.mul_le_mul_right width (show first.toNat ≤ 127 by omega)
    cases negative <;> simp <;> omega
  · rw [h]
    cases negative <;> simp
  · have := Nat.mul_le_mul_right width (show 129 ≤ first.toNat by omega)
    cases negative <;> simp <;> omega

/-- The sign that two's complement gives octets, in terms of the number they spell. -/
theorem toInt_cons (first : UInt8) (rest : Octets) :
    Octets.toInt (first :: rest) =
      if toNat (first :: rest) < 128 * 256 ^ rest.length then (toNat (first :: rest) : Int)
      else toNat (first :: rest) - (256 : Int) ^ (rest.length + 1) := by
  have hrest := toNat_lt rest
  by_cases hsign : first.toNat < 128
  · have := Nat.mul_le_mul_right (256 ^ rest.length) (show first.toNat ≤ 127 by omega)
    rw [toInt_of_lt hsign, if_pos (by rw [toNat_cons]; omega)]
  · have := Nat.mul_le_mul_right (256 ^ rest.length) (Nat.not_lt.1 hsign)
    rw [toInt_of_le (Nat.not_lt.1 hsign), if_neg (by rw [toNat_cons]; omega), List.length_cons]

/-- Content is not padded if its number is out of the range of the next smaller width. -/
theorem isPadded_eq_false {octets : Octets}
    (h : ∀ first second rest, octets = first :: second :: rest →
      Octets.toInt octets < -(128 * 256 ^ rest.length) ∨
        128 * 256 ^ rest.length ≤ Octets.toInt octets) : isPadded octets = false := by
  match octets, h with
  | [], _ => rfl
  | [_], _ => rfl
  | first :: second :: rest, h =>
      rw [Bool.eq_false_iff]
      intro hpadded
      obtain ⟨hmin, hmax⟩ := (isPadded_iff first second rest).1 hpadded
      rcases h first second rest rfl with h | h <;> omega

/-- **Writing keeps the number.** -/
theorem toInt_content (integer : Integer) : Octets.toInt integer.content = integer.toInt := by
  cases hmagnitude : integer.magnitude with
  | nil => simp [content, isZero, toInt, hmagnitude, integer.nonneg_of_zero hmagnitude, Octets.toInt]
  | cons first rest =>
      have hlt := toNat_lt (first :: rest)
      have hsign := needsSignOctet_iff integer.negative first rest
      have hleast : 256 ^ rest.length ≤ toNat (first :: rest) :=
        le_toNat_of_head? (by rw [← hmagnitude]; exact integer.head?_magnitude)
      have hwidth : 0 < 256 ^ rest.length := Nat.pow_pos (by decide)
      simp only [content, isZero, toInt, hmagnitude, List.isEmpty_cons, Bool.false_eq_true, if_false]
      cases hnegative : integer.negative with
      | false =>
          simp only [hnegative, Bool.false_eq_true, if_false] at hsign ⊢
          split
          · rw [toInt_of_lt (by decide), toNat_zero_cons]
          · rename_i hneeds
            rw [toInt_cons, if_pos (Nat.not_le.1 fun h => hneeds (hsign.2 h))]
      | true =>
          simp only [hnegative, if_true] at hsign ⊢
          obtain ⟨high, low, hbody⟩ : ∃ high low, negate (first :: rest) = high :: low :=
            List.exists_cons_of_length_pos (by simp)
          have hlength := length_negate (first :: rest)
          have hvalue := toNat_negate (show toNat (first :: rest) ≠ 0 by omega)
          rw [hbody] at hlength hvalue ⊢
          simp only [List.length_cons, Nat.add_right_cancel_iff] at hlength
          rw [List.length_cons, pow_succ] at hlt hvalue
          split
          · rw [Octets.toInt, if_neg (by decide), List.length_cons, hlength, pow_succ, hvalue]
            push_cast [Nat.cast_sub (Nat.le_of_lt hlt)]
            ring
          · rename_i hneeds
            have hsmall := Nat.not_lt.1 fun h => hneeds (hsign.2 h)
            rw [toInt_cons, if_neg (by rw [hvalue, hlength]; omega), hvalue, hlength, pow_succ]
            push_cast [Nat.cast_sub (Nat.le_of_lt hlt)]
            ring

/-- **Writing leaves no padding.** -/
theorem isPadded_content (integer : Integer) : isPadded integer.content = false := by
  refine isPadded_eq_false fun high second low hcontent => ?_
  have hlength := length_content integer
  rw [toInt_content, toInt]
  cases hmagnitude : integer.magnitude with
  | nil => simp [content, isZero, hmagnitude] at hcontent
  | cons first rest =>
      have hsign := needsSignOctet_iff integer.negative first rest
      have hleast : 256 ^ rest.length ≤ toNat (first :: rest) :=
        le_toNat_of_head? (by rw [← hmagnitude]; exact integer.head?_magnitude)
      rw [hcontent, contentLen, isZero, hmagnitude] at hlength
      simp only [List.length_cons, List.isEmpty_cons, Bool.false_eq_true, if_false] at hlength
      have hbound : if integer.negative then 128 * 256 ^ low.length < toNat (first :: rest)
          else 128 * 256 ^ low.length ≤ toNat (first :: rest) := by
        cases hneeds : needsSignOctet integer.negative (first :: rest) with
        | true =>
            rw [hneeds, Bool.toNat_true] at hlength
            rw [show low.length = rest.length by omega]
            exact hsign.1 hneeds
        | false =>
            -- without an octet for the sign, the first octet of the magnitude is above the width
            rw [hneeds, Bool.toNat_false] at hlength
            have hwidth : 0 < 256 ^ low.length := Nat.pow_pos (by decide)
            rw [show rest.length = low.length + 1 by omega, pow_succ] at hleast
            split <;> omega
      cases hnegative : integer.negative with
      | false =>
          simp only [hnegative, Bool.false_eq_true, if_false] at hbound ⊢
          right
          exact_mod_cast hbound
      | true =>
          simp only [hnegative, if_true] at hbound ⊢
          left
          have : (128 * 256 ^ low.length : Int) < toNat (first :: rest) := by exact_mod_cast hbound
          linarith

theorem content_ne_nil (integer : Integer) : integer.content ≠ [] := by
  intro h
  have hlength := length_content integer
  rw [h, contentLen, List.length_nil] at hlength
  split at hlength
  · simp at hlength
  · rename_i hzero
    have hnil : integer.magnitude = [] := List.length_eq_zero_iff.1 (by omega)
    simp [isZero, hnil] at hzero

/-! ## Round trips -/

/-- Every mode reads the content written as the integer. -/
theorem ofContent_content (mode : Mode) (integer : Integer) :
    ofContent mode integer.content = .ok integer :=
  ofContent_eq_ok_iff.2
    ⟨integer.content_ne_nil, fun _ => integer.isPadded_content, integer.toInt_content.symm⟩

/-- No content for an integer is shorter than the one written. -/
theorem length_content_le_of_ofContent {mode : Mode} {content : Octets} {integer : Integer}
    (h : ofContent mode content = .ok integer) : integer.content.length ≤ content.length := by
  obtain ⟨hne, -, hvalue⟩ := toInt_ofContent h
  exact length_le_of_toInt_eq integer.isPadded_content hne (integer.toInt_content.trans hvalue)

/-- DER has no other content for an integer than the one written. -/
theorem content_of_ofContent_der {content : Octets} {integer : Integer}
    (h : ofContent .der content = .ok integer) : integer.content = content := by
  obtain ⟨hne, hpadded, hvalue⟩ := toInt_ofContent h
  exact eq_of_toInt_eq integer.content_ne_nil hne integer.isPadded_content (hpadded rfl)
    (integer.toInt_content.trans hvalue)

end Integer

end Asn1
