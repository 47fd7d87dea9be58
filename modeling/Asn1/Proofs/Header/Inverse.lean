import Asn1.Proofs.Header

/-!
# `Asn1.Proofs.Header.Inverse` — reading and writing headers are inverse

What is written for a header is read as that header, wherever it stands in a buffer and whatever stands
around it, as long as the window has room for the content that it announces. In the strict mode nothing else
is read as the header, so the octets of a header that is read are those written for it.

## Contents
- **Headers.** `Header.AdmittedBy` says which headers a mode has a form for.
- **Both directions.** `Header.read_octets` and `Header.exists_octets_of_read_der`.
- **Result.** `Header.read_inverts_octets`.
-/

namespace Asn1.Header

/-! ## Headers that a mode admits -/

/-- The mode admits the header: its length is definite and fits eight octets, or it is indefinite, which takes
    the lenient mode and a constructed value. -/
def AdmittedBy (mode : Mode) (header : Header) : Prop :=
  match header.length with
  | .definite length => length < Length.limit
  | .indefinite => mode.isDer = false ∧ header.constructed = true

/-- The octets written for an admitted header are a form of it. -/
theorem form_octets_of_admittedBy {mode : Mode} {header : Header} (h : header.AdmittedBy mode) :
    header.Form mode header.octets := by
  obtain ⟨identifier, length⟩ := header
  cases length with
  | definite length => exact form_octets mode identifier h
  | indefinite => exact ⟨_, _, identifier.form_octets mode, .indefinite h.1, rfl⟩

/-- A header that has a form is admitted, unless it is that of a primitive value of indefinite length. -/
theorem admittedBy_of_form {mode : Mode} {header : Header} {octets : Octets} (h : header.Form mode octets)
    (hconstructed : header.length = .indefinite → header.constructed = true) : header.AdmittedBy mode := by
  obtain ⟨identifier, length⟩ := header
  obtain ⟨front, back, -, hback, -⟩ := h
  cases length with
  | definite length => exact Length.lt_limit_of_form hback
  | indefinite =>
      cases hback with
      | indefinite hmode => exact ⟨hmode, hconstructed rfl⟩

/-- A window that starts between two stretches of a buffer covers the start of the second one. -/
theorem window_append {front : Octets} {maxLen : Nat} (h : front.length ≤ maxLen) (before after : Octets) :
    ((before ++ front ++ after).drop before.length).take maxLen =
      front ++ after.take (maxLen - front.length) := by
  rw [List.append_assoc, List.drop_left, List.take_append, List.take_of_length_le h]

/-! ## Both directions -/

/-- What is written for a header is read as the header. -/
theorem read_octets {mode : Mode} {header : Header} {before after : Octets} {maxLen : Nat}
    (hadmitted : header.AdmittedBy mode)
    (hroom : header.encodedLen + header.length.announced ≤ min maxLen (header.octets ++ after).length) :
    read mode (before ++ header.octets ++ after) before.length maxLen =
      .ok (header, header.encodedLen) := by
  rw [List.length_append, length_octets] at hroom
  have hstart : header.octets.length ≤ maxLen := by
    rw [length_octets]
    omega
  have hwindow := window_append hstart before after
  refine read_eq_ok_iff.2 ⟨?_, header.octets, _, form_octets_of_admittedBy hadmitted, hwindow, ?_, ?_⟩
  · rw [List.append_assoc, List.length_append]
    omega
  · apply checkLength_eq_ok_iff.2
    constructor
    · intro hlength
      rw [AdmittedBy, hlength] at hadmitted
      exact hadmitted.2
    · rw [List.length_take, length_octets]
      omega
  · exact (length_octets header).symm

/-- What the strict mode reads as a header is what is written for it. -/
theorem exists_octets_of_read_der {buffer : Octets} {offset maxLen count : Nat} {header : Header}
    (h : read .der buffer offset maxLen = .ok (header, count)) :
    header.AdmittedBy .der ∧ count = header.encodedLen ∧
      ∃ before after, buffer = before ++ header.octets ++ after ∧ before.length = offset := by
  obtain ⟨hoffset, front, rest, hform, hwindow, hcheck, rfl⟩ := read_eq_ok_iff.1 h
  obtain rfl := eq_octets_of_form_der hform
  refine ⟨admittedBy_of_form hform (checkLength_eq_ok_iff.1 hcheck).1, length_octets header, ?_⟩
  have hfront : header.octets <+: buffer.drop offset := by
    have hstart : header.octets <+: (buffer.drop offset).take maxLen := ⟨rest, hwindow.symm⟩
    exact hstart.trans (List.take_prefix maxLen _)
  obtain ⟨after, hafter⟩ := hfront
  refine ⟨buffer.take offset, after, ?_, List.length_take_of_le hoffset⟩
  rw [List.append_assoc, hafter, List.take_append_drop]

/-! ## Result -/

/-- **Reading and writing headers are inverse.** The octets written are as many as the header says, and every
    mode that admits the header reads them as it, anywhere in a buffer, given a window with room for the header
    and the content that it announces. A header read in the strict mode is admitted by it, and the octets it
    was read from are those written for it. -/
theorem read_inverts_octets (header : Header) :
    header.octets.length = header.encodedLen ∧
      (∀ mode before after maxLen, header.AdmittedBy mode →
        header.encodedLen + header.length.announced ≤ min maxLen (header.octets ++ after).length →
        read mode (before ++ header.octets ++ after) before.length maxLen =
          .ok (header, header.encodedLen)) ∧
      ∀ buffer offset maxLen count, read .der buffer offset maxLen = .ok (header, count) →
        header.AdmittedBy .der ∧ count = header.encodedLen ∧
          ∃ before after, buffer = before ++ header.octets ++ after ∧ before.length = offset := by
  refine ⟨length_octets header, ?_, ?_⟩
  · intro mode before after maxLen hadmitted hroom
    exact read_octets hadmitted hroom
  · intro buffer offset maxLen count h
    exact exists_octets_of_read_der h

/-- The least number in high form and the least length in long form, behind another octet: the strict mode
    reads them in a window that ends with the content, and they can be told from what was read. -/
theorem read_inverts_octets_highForm :
    AdmittedBy .der ⟨⟨⟨.contextSpecific, 31⟩, false⟩, .definite 128⟩ ∧
      read .der ([0xFF] ++ [0x9F, 0x1F, 0x81, 0x80] ++ List.replicate 130 0x00) 1 132 =
        .ok (⟨⟨⟨.contextSpecific, 31⟩, false⟩, .definite 128⟩, 4) ∧
      ∃ before after, [0xFF] ++ [0x9F, 0x1F, 0x81, 0x80] ++ List.replicate 130 0x00 =
        before ++ octets ⟨⟨⟨.contextSpecific, 31⟩, false⟩, .definite 128⟩ ++ after ∧ before.length = 1 := by
  have hoctets : octets ⟨⟨⟨.contextSpecific, 31⟩, false⟩, .definite 128⟩ = [0x9F, 0x1F, 0x81, 0x80] := by
    decide +kernel
  have hlen : encodedLen ⟨⟨⟨.contextSpecific, 31⟩, false⟩, .definite 128⟩ = 4 := by
    rw [← length_octets, hoctets]
    rfl
  have hadmitted : AdmittedBy .der ⟨⟨⟨.contextSpecific, 31⟩, false⟩, .definite 128⟩ := by
    show 128 < Length.limit
    decide
  obtain ⟨-, hread, hback⟩ := read_inverts_octets ⟨⟨⟨.contextSpecific, 31⟩, false⟩, .definite 128⟩
  rw [hoctets, hlen] at hread
  have hroom : 4 + 128 ≤ min 132 ([0x9F, 0x1F, 0x81, 0x80] ++ List.replicate 130 (0x00 : UInt8)).length := by
    rw [List.length_append, List.length_replicate]
    decide
  have h := hread .der [0xFF] (List.replicate 130 0x00) 132 hadmitted hroom
  exact ⟨hadmitted, h, (hback _ _ _ _ h).2.2⟩

end Asn1.Header
