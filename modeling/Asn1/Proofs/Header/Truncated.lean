import Asn1.Proofs.Header

/-!
# `Asn1.Proofs.Header.Truncated` — values that end too early

A header is read octet by octet, and no check is made before the octets that it is about are there. So a
value that is cut off is refused for being too short and for nothing else: inside its header as a truncated
header, after it as a length that is too large.

## Contents
- **Headers.** `Identifier.take_of_truncated`, `Length.take_of_truncated` and
  `Header.takeOctets_of_truncated`: what begins like a form and ends before it.
- **Values.** `Framed.takeOctets_of_truncated`: what begins like a value and ends before it.
-/

namespace Asn1

/-! ## Headers -/

/-- A cut through two parts is in the second one, or there is something left of the first one. -/
private theorem cut_append {front back short rest : Octets} (h : front ++ back = short ++ rest) :
    (∃ part, short = front ++ part ∧ back = part ++ rest) ∨ ∃ part, part ≠ [] ∧ front = short ++ part := by
  rcases List.append_eq_append_iff.1 h with ⟨part, hshort, hback⟩ | ⟨part, hfront, hrest⟩
  · exact .inl ⟨part, hshort, hback⟩
  · by_cases hnil : part = []
    · subst hnil
      rw [List.append_nil] at hfront
      exact .inl ⟨[], by rw [hfront, List.append_nil], hrest.symm⟩
    · exact .inr ⟨part, hnil, hfront⟩

namespace Identifier

/-- Digits that announce another one which is not there. Those that are there are no reason to refuse them,
    as further digits only make a number larger. -/
theorem takeNumber_of_truncated {mode : Mode} {start : Nat} {short rest : Octets} {number : UInt32}
    (hterm : Base128.isTerminated (short ++ rest) = true) (hrest : rest ≠ [])
    (hvalue : Base128.valueFrom start (short ++ rest) = number.toNat) :
    takeNumber mode start short = .error .headerTruncated := by
  induction short generalizing start with
  | nil => rfl
  | cons digit short ih =>
      rw [List.cons_append, Base128.valueFrom_cons] at hvalue
      have hsmall : ¬ start > maxNumber / 128 := by
        have hle := Base128.le_valueFrom (start * 128 + Base128.digit digit) (short ++ rest)
        have hnumber := number.toNat_lt
        simp only [maxNumber]
        omega
      rw [takeNumber, if_neg hsmall]
      by_cases hcont : Base128.continues digit = true
      · simp only [hcont, if_true]
        apply ih _ hvalue
        simpa [Base128.isTerminated, hcont] using hterm
      · have hnil : short ++ rest = [] := by simpa [Base128.isTerminated, hcont] using hterm
        exact absurd (List.append_eq_nil_iff.1 hnil).2 hrest

/-- What begins like an identifier and ends before it is a truncated header. -/
theorem take_of_truncated {mode : Mode} {identifier : Identifier} {front short rest : Octets}
    (h : identifier.Form mode front) (hfront : front = short ++ rest) (hrest : rest ≠ []) :
    take mode short = .error .headerTruncated := by
  cases short with
  | nil => rfl
  | cons first short =>
      cases h with
      | low hlow =>
          -- The low form is a single octet, so nothing is missing.
          rw [List.cons_append, List.cons.injEq] at hfront
          exact absurd (List.append_eq_nil_iff.1 hfront.2.symm).2 hrest
      | @high digits hterm hzero hvalue hder =>
          rw [List.cons_append, List.cons.injEq] at hfront
          obtain ⟨rfl, rfl⟩ := hfront
          obtain ⟨-, -, hnumber⟩ := identifier.ofBits_leadOctet (show 31 < 32 by decide)
          have hhead : short.head? ≠ some 0x80 := by
            cases short with
            | nil => exact nofun
            | cons digit digits => simpa using hzero
          have htake : takeNumber mode 0 short = .error .headerTruncated :=
            takeNumber_of_truncated hterm hrest hvalue
          simp only [take, hnumber]
          rw [if_neg (not_not_intro rfl), if_neg hhead, htake]
          rfl

end Identifier

/-- What begins like a length and ends before it is a truncated header. -/
theorem Length.take_of_truncated {mode : Mode} {length : Length} {front short rest : Octets}
    (h : length.Form mode front) (hfront : front = short ++ rest) (hrest : rest ≠ []) :
    take mode short = .error .headerTruncated := by
  cases short with
  | nil => rfl
  | cons first short =>
      rw [List.cons_append] at hfront
      cases h with
      | short _ => exact absurd (List.append_eq_nil_iff.1 (List.cons.inj hfront).2.symm).2 hrest
      | @long number hne hcount _ =>
          obtain ⟨rfl, rfl⟩ := List.cons.inj hfront
          have hmissing : short.length < (short ++ rest).length := by
            have := List.length_pos_iff.2 hrest
            rw [List.length_append]
            omega
          rw [take_long (List.length_pos_iff.2 hne) hcount, if_pos hmissing]
      | indefinite _ => exact absurd (List.append_eq_nil_iff.1 (List.cons.inj hfront).2.symm).2 hrest

/-- What begins like a header and ends before it is a truncated header. -/
theorem Header.takeOctets_of_truncated {mode : Mode} {header : Header} {front short rest : Octets}
    (h : header.Form mode front) (hfront : front = short ++ rest) (hrest : rest ≠ []) :
    takeOctets mode short = .error .headerTruncated := by
  obtain ⟨identifier, length, hidentifier, hlength, rfl⟩ := h
  rw [takeOctets]
  rcases cut_append hfront with ⟨part, rfl, hlengthCut⟩ | ⟨part, hpart, hidentifierCut⟩
  · rw [Identifier.take_append hidentifier]
    show (Length.take mode part >>= _) = _
    rw [Length.take_of_truncated hlength hlengthCut hrest]
    rfl
  · rw [Identifier.take_of_truncated hidentifier hidentifierCut hpart]
    rfl

/-! ## Values -/

/-- **A value that is cut off is too short**: its header is truncated, or its length exceeds what is left. -/
theorem Framed.takeOctets_of_truncated {mode : Mode} {identifier : Identifier}
    {content octets short rest : Octets} (h : Framed mode identifier content octets)
    (hoctets : octets = short ++ rest) (hrest : rest ≠ []) :
    Header.takeOctets mode short = .error
      (if short.length < octets.length - content.length then .headerTruncated else .lengthOverflow) := by
  obtain ⟨head, hform, rfl⟩ := h
  rw [List.length_append, Nat.add_sub_cancel]
  rcases cut_append hoctets with ⟨part, rfl, hcontent⟩ | ⟨part, hpart, hhead⟩
  · -- The header is there, but not all of the content that it counts.
    have hmissing : part.length < content.length := by
      have := List.length_pos_iff.2 hrest
      rw [hcontent, List.length_append]
      omega
    have hthere : ¬ (head ++ part).length < head.length := by
      rw [List.length_append]
      omega
    rw [if_neg hthere, Header.takeOctets_append hform, Header.checkLength]
    simp only [if_pos hmissing]
    rfl
  · have hcut : short.length < head.length := by
      have := List.length_pos_iff.2 hpart
      rw [hhead, List.length_append]
      omega
    rw [if_pos hcut, Header.takeOctets_of_truncated hform hhead hpart]

end Asn1
