import Asn1.Octets.Base128
import Mathlib.Data.List.Induction
import Mathlib.Tactic.Linarith
import Mathlib.Tactic.Ring

/-!
# `Asn1.Proofs.Octets` — octets are determined by the number they spell

Numbers are written in base 256 (lengths, integers) and in base 128 (tag numbers, sub-identifiers of
object identifiers). Either way the shortest form of a number is its only form without a leading zero.

## Contents
- **Base 256.** `eq_of_toNat_eq`: octets of one width spell different numbers; `ofNat_toNat`: octets
  without a leading zero are the shortest ones; `lengthOfNat_le` bounds how many there are;
  `toNat_rightmost`: octets at the end spell a remainder.
- **Base 128.** `Base128.isTerminated` recognises the digits of one number, `Base128.encode_value` and
  `Base128.isTerminated_encode` say that the shortest digits are those without a leading zero.
-/

namespace Asn1

/-! ## Base 256 -/

namespace Octets

theorem toNat_append (front back : Octets) :
    toNat (front ++ back) = front.toNat * 256 ^ back.length + back.toNat := by
  induction back using List.reverseRecOn with
  | nil => simp
  | append_singleton back octet ih =>
      rw [← List.append_assoc, toNat_concat, toNat_concat, ih, List.length_append,
        List.length_singleton, pow_succ]
      ring

theorem toNat_cons (octet : UInt8) (rest : Octets) :
    toNat (octet :: rest) = octet.toNat * 256 ^ rest.length + rest.toNat := by
  have h := toNat_append [octet] rest
  rwa [List.singleton_append, show toNat [octet] = octet.toNat by simp [toNat]] at h

/-- A number is below the power of 256 that its width gives. -/
theorem toNat_lt (octets : Octets) : octets.toNat < 256 ^ octets.length := by
  induction octets using List.reverseRecOn with
  | nil => simp
  | append_singleton octets octet ih =>
      rw [toNat_concat, List.length_append, List.length_singleton, pow_succ]
      have := octet.toNat_lt
      omega

/-- Octets of one width that spell the same number are the same. -/
theorem eq_of_toNat_eq {a b : Octets} (hlen : a.length = b.length) (h : a.toNat = b.toNat) :
    a = b := by
  induction a using List.reverseRecOn generalizing b with
  | nil => exact (List.length_eq_zero_iff.1 hlen.symm).symm
  | append_singleton a octet ih =>
      cases b using List.reverseRecOn with
      | nil => simp at hlen
      | append_singleton b other =>
          rw [toNat_concat, toNat_concat] at h
          have h1 := octet.toNat_lt
          have h2 := other.toNat_lt
          have hfront : a = b := ih (by simpa using hlen) (by omega)
          have hlast : octet = other := UInt8.toNat_inj.1 (by omega)
          rw [hfront, hlast]

/-- Octets without a leading zero are the shortest octets of their number. -/
theorem ofNat_toNat {octets : Octets} (h : octets.head? ≠ some 0) : ofNat (toNat octets) = octets := by
  induction octets using List.reverseRecOn with
  | nil => rw [toNat_nil, ofNat, if_pos rfl]
  | append_singleton octets octet ih =>
      have hlt := octet.toNat_lt
      have hlast : UInt8.ofNat ((toNat octets * 256 + octet.toNat) % 256) = octet := by
        apply UInt8.toNat_inj.1
        rw [UInt8.toNat_ofNat']
        omega
      have hdiv : (toNat octets * 256 + octet.toNat) / 256 = toNat octets := by omega
      have hfront : octets.head? ≠ some 0 := by
        cases octets with
        | nil => simp
        | cons first rest => simpa using h
      -- If the number were zero, there would be one octet only, and it would be a leading zero.
      have hne : toNat octets * 256 + octet.toNat ≠ 0 := by
        intro hzero
        have hnil : octets = [] := by
          rw [← ih hfront, show toNat octets = 0 by omega, ofNat, if_pos rfl]
        have hoctet : octet = 0 := UInt8.toNat_inj.1 (by simpa using (by omega : octet.toNat = 0))
        simp [hnil, hoctet] at h
      rw [toNat_concat, ofNat, if_neg hne, hdiv, hlast, ih hfront]

/-- The shortest octets of a number do not start with a zero. -/
theorem head?_ofNat (number : Nat) : (ofNat number).head? ≠ some 0 := by
  fun_induction ofNat number with
  | case1 => simp
  | case2 number hne ih =>
      cases hrest : ofNat (number / 256) with
      | nil =>
          -- the number is a single digit, which is not zero as the number is not
          have hsmall : number / 256 = 0 := by
            rw [← toNat_ofNat (number / 256), hrest, toNat_nil]
          rw [List.nil_append, List.head?_cons, ne_eq, Option.some.injEq]
          intro hzero
          have := congrArg UInt8.toNat hzero
          rw [UInt8.toNat_ofNat'] at this
          simp only [UInt8.toNat_zero] at this
          omega
      | cons first rest => rw [hrest] at ih; simpa using ih

/-- A number below a power of 256 needs no more octets than the exponent says. -/
theorem lengthOfNat_le {number width : Nat} (hpos : 0 < width) (h : number < 256 ^ width) :
    lengthOfNat number ≤ width := by
  fun_induction lengthOfNat number generalizing width with
  | case1 => exact hpos
  | case2 number hlarge ih =>
      obtain _ | _ | width := width
      · omega
      · simp only [zero_add, pow_one] at h; omega
      · have := ih (show 0 < width + 1 by omega) (by rw [pow_succ] at h; omega)
        omega

/-- A larger number needs as many octets or more. -/
theorem lengthOfNat_mono {number larger : Nat} (h : number ≤ larger) : lengthOfNat number ≤ lengthOfNat larger := by
  fun_induction lengthOfNat larger generalizing number with
  | case1 larger hsmall => rw [lengthOfNat, if_pos (Nat.lt_of_le_of_lt h hsmall)]
  | case2 larger _ ih =>
      have hrest := ih (Nat.div_le_div_right h)
      rw [lengthOfNat]
      split <;> omega

/-- Zeros in front do not count. -/
theorem toNat_replicate_append (count : Nat) (octets : Octets) :
    toNat (List.replicate count 0 ++ octets) = octets.toNat := by
  induction count with
  | zero => rfl
  | succ count ih => rw [List.replicate_succ, List.cons_append, toNat_zero_cons, ih]

/-- The octets at the end spell the remainder by a power of 256, all of them or more if there are fewer. -/
theorem toNat_rightmost (count : Nat) (octets : Octets) :
    (rightmost count octets).toNat = octets.toNat % 256 ^ count := by
  rw [rightmost, toNat_replicate_append]
  by_cases hle : count ≤ octets.length
  · have hdrop : (octets.drop (octets.length - count)).length = count := by
      rw [List.length_drop]
      omega
    have hlt := toNat_lt (octets.drop (octets.length - count))
    rw [hdrop] at hlt
    conv_rhs => rw [← List.take_append_drop (octets.length - count) octets, toNat_append, hdrop]
    rw [Nat.mul_add_mod', Nat.mod_eq_of_lt hlt]
  · have hlt : octets.toNat < 256 ^ count :=
      Nat.lt_of_lt_of_le (toNat_lt octets) (Nat.pow_le_pow_right (by decide) (by omega))
    rw [Nat.sub_eq_zero_of_le (by omega), List.drop_zero, Nat.mod_eq_of_lt hlt]

/-- The octets at the end depend on the number alone, not on how many octets spell it. -/
theorem rightmost_congr {a b : Octets} (count : Nat) (h : a.toNat = b.toNat) :
    rightmost count a = rightmost count b :=
  eq_of_toNat_eq (by rw [length_rightmost, length_rightmost]) (by rw [toNat_rightmost, toNat_rightmost, h])

end Octets

/-! ## Base 128 -/

namespace Base128

/-- The number that the digits spell when they follow the digits of another number. -/
def valueFrom (number : Nat) (octets : Octets) : Nat :=
  octets.foldl (fun number octet => number * 128 + digit octet) number

@[simp] theorem valueFrom_nil (number : Nat) : valueFrom number [] = number := rfl

@[simp] theorem valueFrom_cons (number : Nat) (octet : UInt8) (rest : Octets) :
    valueFrom number (octet :: rest) = valueFrom (number * 128 + digit octet) rest := rfl

/-- Further digits only make a number larger. -/
theorem le_valueFrom (number : Nat) (octets : Octets) : number ≤ valueFrom number octets := by
  induction octets generalizing number with
  | nil => exact Nat.le_refl _
  | cons octet rest ih =>
      rw [valueFrom_cons]
      have := ih (number * 128 + digit octet)
      omega

/-- Whether the octets are the digits of one number: all but the last announce another one. -/
def isTerminated : Octets → Bool
  | [] => false
  | octet :: rest => if continues octet then isTerminated rest else rest.isEmpty

/-- The digits of one number are leading digits and a last one. -/
theorem isTerminated_iff {octets : Octets} :
    isTerminated octets = true ↔
      ∃ front last, octets = front ++ [last] ∧ (∀ octet ∈ front, continues octet = true) ∧
        continues last = false := by
  constructor
  · intro h
    fun_induction isTerminated octets with
    | case1 => simp at h
    | case2 octet rest hcont ih =>
        obtain ⟨front, last, rfl, hfront, hlast⟩ := ih h
        refine ⟨octet :: front, last, rfl, ?_, hlast⟩
        intro other hmem
        rcases List.mem_cons.1 hmem with rfl | hmem
        · exact hcont
        · exact hfront other hmem
    | case3 octet rest hcont =>
        refine ⟨[], octet, by simpa using h, by simp, by simpa using hcont⟩
  · rintro ⟨front, last, rfl, hfront, hlast⟩
    induction front with
    | nil => simp [isTerminated, hlast]
    | cons octet front ih =>
        have hcont := hfront octet List.mem_cons_self
        simp only [List.cons_append, isTerminated, hcont, if_true]
        exact ih fun other hmem => hfront other (List.mem_cons_of_mem _ hmem)

/-- An octet that announces another digit is the mark plus its digit. -/
theorem ofNat_digit_of_continues {octet : UInt8} (h : continues octet = true) :
    UInt8.ofNat (digit octet + 128) = octet := by
  apply UInt8.toNat_inj.1
  have := octet.toNat_lt
  rw [continues, decide_eq_true_iff] at h
  rw [UInt8.toNat_ofNat', digit]
  omega

/-- A last digit is the octet itself. -/
theorem digit_of_not_continues {octet : UInt8} (h : continues octet = false) :
    digit octet = octet.toNat := by
  rw [continues, decide_eq_false_iff_not] at h
  rw [digit]
  omega

/-- Leading digits that do not start with a zero digit are the shortest ones. -/
theorem leadingDigits_value {octets : Octets} (hcont : ∀ octet ∈ octets, continues octet = true)
    (h : octets.head? ≠ some 0x80) : leadingDigits (value octets) = octets := by
  induction octets using List.reverseRecOn with
  | nil => rw [value_nil, leadingDigits, if_pos rfl]
  | append_singleton octets octet ih =>
      have hdigit : digit octet < 128 := Nat.mod_lt _ (by decide)
      have hmod : (value octets * 128 + digit octet) % 128 = digit octet := by omega
      have hdiv : (value octets * 128 + digit octet) / 128 = value octets := by omega
      have hoctet := ofNat_digit_of_continues (hcont octet (by simp))
      have hfront : leadingDigits (value octets) = octets := by
        refine ih (fun other hmem => hcont other (by simp [hmem])) ?_
        cases octets with
        | nil => simp
        | cons first rest => simpa using h
      have hne : value octets * 128 + digit octet ≠ 0 := by
        intro hzero
        have hnil : octets = [] := by
          rw [← hfront, show value octets = 0 by omega, leadingDigits, if_pos rfl]
        rw [show digit octet = 0 by omega] at hoctet
        simp [hnil, ← hoctet] at h
      rw [value_concat, leadingDigits, if_neg hne, hmod, hdiv, hoctet, hfront]

/-- **Base 128 is canonical.** The digits of a number that do not start with a zero digit are its
    shortest ones. -/
theorem encode_value {octets : Octets} (hterm : isTerminated octets = true)
    (h : octets.head? ≠ some 0x80) : encode (value octets) = octets := by
  obtain ⟨front, last, rfl, hcont, hlast⟩ := isTerminated_iff.1 hterm
  have hdigit := digit_of_not_continues hlast
  have hbound : digit last < 128 := Nat.mod_lt _ (by decide)
  have hdiv : (value front * 128 + digit last) / 128 = value front := by omega
  have hmod : (value front * 128 + digit last) % 128 = last.toNat := by omega
  have hfront : front.head? ≠ some 0x80 := by
    cases front with
    | nil => simp
    | cons first rest => simpa using h
  rw [value_concat, encode, hdiv, hmod, UInt8.ofNat_toNat, leadingDigits_value hcont hfront]

/-- The shortest digits of a number are the digits of one number. -/
theorem isTerminated_encode (number : Nat) : isTerminated (encode number) = true := by
  refine isTerminated_iff.2 ⟨leadingDigits (number / 128), _, rfl, ?_, ?_⟩
  · exact fun octet hmem => continues_of_mem_leadingDigits hmem
  · rw [continues, decide_eq_false_iff_not, UInt8.toNat_ofNat']
    omega

theorem head?_leadingDigits (number : Nat) : (leadingDigits number).head? ≠ some 0x80 := by
  fun_induction leadingDigits number with
  | case1 => simp
  | case2 number hne ih =>
      cases hrest : leadingDigits (number / 128) with
      | nil =>
          have hsmall : number / 128 = 0 := by
            rw [← value_leadingDigits (number / 128), hrest, value_nil]
          rw [List.nil_append, List.head?_cons, ne_eq, Option.some.injEq]
          intro hzero
          have := congrArg UInt8.toNat hzero
          rw [UInt8.toNat_ofNat'] at this
          simp only [UInt8.reduceToNat] at this
          omega
      | cons first rest => rw [hrest] at ih; simpa using ih

/-- The shortest digits do not start with a zero digit that announces another one. -/
theorem head?_encode (number : Nat) : (encode number).head? ≠ some 0x80 := by
  cases hfront : leadingDigits (number / 128) with
  | nil =>
      rw [encode, hfront, List.nil_append, List.head?_cons, ne_eq, Option.some.injEq]
      intro hzero
      have := congrArg UInt8.toNat hzero
      rw [UInt8.toNat_ofNat'] at this
      simp only [UInt8.reduceToNat] at this
      omega
  | cons first rest =>
      have := head?_leadingDigits (number / 128)
      rw [hfront] at this
      simpa [encode, hfront] using this

end Base128

end Asn1
