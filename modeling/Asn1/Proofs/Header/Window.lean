import Asn1.Proofs.Header.Truncated

/-!
# `Asn1.Proofs.Header.Window` — the window decides a header read

A header is read from the octets between an offset and the end of a window. Where one is found, every other
window over the same octets has the same header in it, or ends too early for it or for its content. Reading
can also be done with words of 64 bits for all positions and counts, the way a machine does: no sum is too
large and no difference below zero, whatever the offset and the size of the window.

## Contents
- **Reads.** `Header.read_of_form`: what windows of all sizes make of a header.
- **Words.** `Word` has sums, differences and slices that are checked; `Header.readWords` reads with them.
- **Result.** `Header.read_decided_by_window`.
-/

namespace Asn1

/-! ## Reads -/

namespace Header

/-- **Every window over a header** ends inside it, or before its content does, or has both. -/
theorem read_of_form {mode : Mode} {header : Header} {front buffer : Octets} {offset : Nat}
    (hform : header.Form mode front) (hconstructed : header.length = .indefinite → header.constructed = true)
    (hfront : front <+: buffer.drop offset) (size : Nat) :
    read mode buffer offset size =
      if min size (buffer.length - offset) < front.length then .error ⟨.headerTruncated, offset⟩
      else if min size (buffer.length - offset) < front.length + header.length.announced then
        .error ⟨.lengthOverflow, offset⟩
      else .ok (header, front.length) := by
  obtain ⟨after, hafter⟩ := hfront
  have hlength : buffer.length - offset = front.length + after.length := by
    rw [← List.length_drop, ← hafter, List.length_append]
  rw [read_eq, ← hafter, hlength]
  by_cases hcut : size < front.length
  · -- the header goes on behind the end of the window
    have hwindow : (front ++ after).take size = front.take size := List.take_append_of_le_length (by omega)
    have hmissing : front.drop size ≠ [] := by
      intro hnil
      have := List.drop_eq_nil_iff.1 hnil
      omega
    rw [hwindow, takeOctets_of_truncated hform (List.take_append_drop size front).symm hmissing,
      if_pos (by omega)]
  · have hwindow : (front ++ after).take size = front ++ after.take (size - front.length) := by
      rw [List.take_append, List.take_of_length_le (by omega)]
    have hrest : (after.take (size - front.length)).length =
        min size (front.length + after.length) - front.length := by
      rw [List.length_take]
      omega
    have hthere : ¬ min size (front.length + after.length) < front.length := by omega
    rw [hwindow, takeOctets_append hform, checkLength_eq hconstructed, hrest, if_neg hthere]
    by_cases hover : min size (front.length + after.length) < front.length + header.length.announced
    · have hshort : min size (front.length + after.length) - front.length < header.length.announced := by
        omega
      rw [if_pos hshort, if_pos hover]
      rfl
    · have hfits : ¬ min size (front.length + after.length) - front.length < header.length.announced := by
        omega
      rw [if_neg hfits, if_neg hover]
      show Except.ok (header, _) = _
      rw [List.length_append, Nat.add_sub_cancel]

end Header

/-! ## Words -/

/-- What ends a read that counts in words. -/
inductive Fault where
  /-- The data are refused. -/
  | refused (error : DecodeError)
  /-- A sum does not fit a word. -/
  | overflow
  /-- A difference is below zero. -/
  | underflow
  /-- A slice is not part of its octets. -/
  | outOfRange
deriving DecidableEq

namespace Word

/-- The sum of two words, if it is one. -/
def add (a b : UInt64) : Except Fault UInt64 :=
  if a.toNat + b.toNat < UInt64.size then .ok (a + b) else .error .overflow

/-- The difference of two words, if it is one. -/
def sub (a b : UInt64) : Except Fault UInt64 := if b ≤ a then .ok (a - b) else .error .underflow

/-- The sum of two words, or the largest word if the sum is none. -/
def saturatingAdd (a b : UInt64) : UInt64 :=
  if a.toNat + b.toNat < UInt64.size then a + b else 0xFFFFFFFFFFFFFFFF

/-- The smaller one of two words. -/
def least (a b : UInt64) : UInt64 := if a ≤ b then a else b

/-- How many octets there are. -/
def length (octets : Octets) : UInt64 := .ofNat octets.length

/-- The octets between two positions, if these are in order and in range. -/
def slice (octets : Octets) (start stop : UInt64) : Except Fault Octets :=
  if start ≤ stop ∧ stop ≤ length octets then
    .ok ((octets.drop start.toNat).take (stop.toNat - start.toNat))
  else .error .outOfRange

theorem add_eq_ok {a b : UInt64} (h : a.toNat + b.toNat < UInt64.size) :
    ∃ sum, add a b = .ok sum ∧ sum.toNat = a.toNat + b.toNat := by
  refine ⟨a + b, if_pos h, ?_⟩
  rw [UInt64.toNat_add]
  exact Nat.mod_eq_of_lt h

theorem sub_eq_ok {a b : UInt64} (h : b.toNat ≤ a.toNat) :
    ∃ difference, sub a b = .ok difference ∧ difference.toNat = a.toNat - b.toNat :=
  ⟨a - b, if_pos (UInt64.le_iff_toNat_le.2 h), UInt64.toNat_sub_of_le a b (UInt64.le_iff_toNat_le.2 h)⟩

theorem toNat_length {octets : Octets} (h : octets.length < UInt64.size) :
    (length octets).toNat = octets.length :=
  UInt64.toNat_ofNat_of_lt' h

/-- A window ends where its size or the buffer does, also where the sum of offset and size is no word. -/
theorem toNat_least_saturatingAdd {buffer : Octets} (offset maxLen : UInt64)
    (h : buffer.length < UInt64.size) :
    (least (saturatingAdd offset maxLen) (length buffer)).toNat =
      min (offset.toNat + maxLen.toNat) buffer.length := by
  have hsum : (saturatingAdd offset maxLen).toNat = min (offset.toNat + maxLen.toNat) (UInt64.size - 1) := by
    unfold saturatingAdd
    by_cases hfits : offset.toNat + maxLen.toNat < UInt64.size
    · rw [if_pos hfits, UInt64.toNat_add, Nat.mod_eq_of_lt hfits]
      omega
    · rw [if_neg hfits, Nat.min_eq_right (by omega)]
      rfl
  have hlength := toNat_length h
  unfold least
  by_cases hle : saturatingAdd offset maxLen ≤ length buffer
  · rw [if_pos hle]
    have := UInt64.le_iff_toNat_le.1 hle
    omega
  · rw [if_neg hle]
    have := mt UInt64.le_iff_toNat_le.2 hle
    omega

/-- What follows the front of octets is a slice of them. -/
theorem slice_append {front rest : Octets} {start : UInt64} (hstart : start.toNat = front.length)
    (h : (front ++ rest).length < UInt64.size) :
    slice (front ++ rest) start (length (front ++ rest)) = .ok rest := by
  have hlength := toNat_length h
  have hle : start ≤ length (front ++ rest) := by
    rw [UInt64.le_iff_toNat_le, hlength, List.length_append]
    omega
  rw [slice, if_pos ⟨hle, UInt64.le_refl _⟩, hlength, hstart, List.drop_left, List.length_append,
    Nat.add_sub_cancel_left, List.take_length]

end Word

namespace Header

/-- The error that refuses the data at an offset. -/
def refusedAt (offset : UInt64) (kind : ErrorKind) : Fault := .refused ⟨kind, offset.toNat⟩

/-- Takes a part off the front of octets, and counts the octets it takes. -/
def takeCounted {α : Type} (take : Octets → Except ErrorKind (α × Octets)) (offset : UInt64)
    (octets : Octets) : Except Fault (α × UInt64) :=
  match take octets with
  | .ok (part, rest) => .ok (part, .ofNat (octets.length - rest.length))
  | .error kind => .error (refusedAt offset kind)

/-- Checks a length against what its window leaves after the header. -/
def checkWords (offset : UInt64) (header : Header) (windowLen headerLen : UInt64) : Except Fault Unit :=
  match header.length with
  | .definite length => do
    let available ← Word.sub windowLen headerLen
    if available.toNat < length then .error (refusedAt offset .lengthOverflow) else .ok ()
  | .indefinite =>
    if header.constructed then .ok () else .error (refusedAt offset (.content .indefinitePrimitive))

/-- Reads the header at the front of a window that starts at `offset`, and counts the octets it takes. -/
def takeWords (mode : Mode) (offset : UInt64) (window : Octets) : Except Fault (Header × UInt64) := do
  let (identifier, identifierLen) ← takeCounted (Identifier.take mode) offset window
  let afterIdentifier ← Word.slice window identifierLen (Word.length window)
  let (length, lengthLen) ← takeCounted (Length.take mode) offset afterIdentifier
  let headerLen ← Word.add identifierLen lengthLen
  let header : Header := ⟨identifier, length⟩
  header.checkWords offset (Word.length window) headerLen
  return (header, headerLen)

/-- Reads the header at `offset` of a buffer like `read`, with words for all positions and counts. -/
def readWords (mode : Mode) (buffer : Octets) (offset maxLen : UInt64) : Except Fault (Header × UInt64) :=
  let stop := Word.least (Word.saturatingAdd offset maxLen) (Word.length buffer)
  match Word.slice buffer offset stop with
  | .ok window => takeWords mode offset window
  | .error _ => .error (refusedAt offset .headerTruncated)

theorem takeCounted_append {α : Type} {take : Octets → Except ErrorKind (α × Octets)} {front rest : Octets}
    {part : α} (offset : UInt64) (htake : take (front ++ rest) = .ok (part, rest))
    (h : (front ++ rest).length < UInt64.size) :
    ∃ count, takeCounted take offset (front ++ rest) = .ok (part, count) ∧ count.toNat = front.length := by
  have hcount : (front ++ rest).length - rest.length = front.length := by
    rw [List.length_append, Nat.add_sub_cancel]
  refine ⟨.ofNat front.length, by simp only [takeCounted, htake, hcount], UInt64.toNat_ofNat_of_lt' ?_⟩
  rw [List.length_append] at h
  omega

theorem takeCounted_eq_error {α : Type} {take : Octets → Except ErrorKind (α × Octets)} {octets : Octets}
    {kind : ErrorKind} (offset : UInt64) (htake : take octets = .error kind) :
    takeCounted take offset octets = .error (refusedAt offset kind) := by
  rw [takeCounted, htake]

/-- A window is no shorter than the header at its front, so the difference that the check takes is there. -/
theorem checkWords_eq (offset : UInt64) (header : Header) {windowLen headerLen : UInt64} {available : Nat}
    (h : windowLen.toNat = headerLen.toNat + available) :
    header.checkWords offset windowLen headerLen =
      (header.checkLength available).mapError (refusedAt offset) := by
  unfold checkWords checkLength
  cases header.length with
  | definite length =>
      obtain ⟨difference, hsub, hdifference⟩ : ∃ difference, Word.sub windowLen headerLen = .ok difference ∧
          difference.toNat = windowLen.toNat - headerLen.toNat := Word.sub_eq_ok (by omega)
      have havailable : difference.toNat = available := by omega
      simp only [hsub, bind, Except.bind, havailable]
      split <;> rfl
  | indefinite =>
      dsimp only
      split <;> rfl

/-- Counting in words never fails, and counts what there is. -/
theorem takeWords_eq {mode : Mode} {window : Octets} (offset : UInt64) (h : window.length < UInt64.size) :
    (takeWords mode offset window).map (fun (header, count) => (header, count.toNat)) =
      match takeOctets mode window with
      | .ok (header, rest) => .ok (header, window.length - rest.length)
      | .error kind => .error (refusedAt offset kind) := by
  cases hidentifier : Identifier.take mode window with
  | error kind =>
      simp only [takeWords, takeOctets, takeCounted_eq_error offset hidentifier, hidentifier]
      rfl
  | ok result =>
      obtain ⟨identifier, afterIdentifier⟩ := result
      obtain ⟨front, -, rfl⟩ := Identifier.take_eq_ok_iff.1 hidentifier
      obtain ⟨identifierLen, hfront, hidentifierLen⟩ := takeCounted_append offset hidentifier h
      have hslice := Word.slice_append hidentifierLen h
      have hafter : afterIdentifier.length < UInt64.size := by
        rw [List.length_append] at h
        omega
      cases hlength : Length.take mode afterIdentifier with
      | error kind =>
          simp only [takeWords, takeOctets, hfront, hidentifier, hslice, hlength,
            takeCounted_eq_error offset hlength, bind, Except.bind]
          rfl
      | ok result =>
          obtain ⟨length, rest⟩ := result
          obtain ⟨back, -, rfl⟩ := Length.take_eq_ok_iff.1 hlength
          obtain ⟨lengthLen, hback, hlengthLen⟩ := takeCounted_append offset hlength hafter
          have htotal : (front ++ (back ++ rest)).length = front.length + back.length + rest.length := by
            rw [List.length_append, List.length_append, Nat.add_assoc]
          obtain ⟨headerLen, hsum, hheaderLen⟩ : ∃ sum, Word.add identifierLen lengthLen = .ok sum ∧
              sum.toNat = identifierLen.toNat + lengthLen.toNat := Word.add_eq_ok (by omega)
          have hleft : (Word.length (front ++ (back ++ rest))).toNat = headerLen.toNat + rest.length := by
            rw [Word.toNat_length h]
            omega
          have hcheck := checkWords_eq offset ⟨identifier, length⟩ hleft
          simp only [takeWords, takeOctets, hfront, hidentifier, hslice, hlength, hback, hsum, hcheck, bind,
            Except.bind]
          cases (⟨identifier, length⟩ : Header).checkLength rest.length with
          | error kind => rfl
          | ok _ =>
              show Except.ok (_, headerLen.toNat) = Except.ok (_, (front ++ (back ++ rest)).length - rest.length)
              rw [htotal, Nat.add_sub_cancel, hheaderLen, hidentifierLen, hlengthLen]

/-- **Words are enough.** Whatever the offset and the size of the window, reading with words gives what reading
    gives: nothing overflows, no difference is below zero, and every slice is in range. -/
theorem readWords_eq {mode : Mode} {buffer : Octets} (offset maxLen : UInt64)
    (h : buffer.length < UInt64.size) :
    (readWords mode buffer offset maxLen).map (fun (header, count) => (header, count.toNat)) =
      (read mode buffer offset.toNat maxLen.toNat).mapError .refused := by
  have hstop := Word.toNat_least_saturatingAdd offset maxLen h
  have hlength := Word.toNat_length h
  rw [readWords, Word.slice, read_eq]
  by_cases hoffset : offset.toNat ≤ buffer.length
  · have hrange : offset ≤ Word.least (Word.saturatingAdd offset maxLen) (Word.length buffer) ∧
        Word.least (Word.saturatingAdd offset maxLen) (Word.length buffer) ≤ Word.length buffer := by
      rw [UInt64.le_iff_toNat_le, UInt64.le_iff_toNat_le, hstop, hlength]
      omega
    have hwindow : (buffer.drop offset.toNat).take
        ((Word.least (Word.saturatingAdd offset maxLen) (Word.length buffer)).toNat - offset.toNat) =
          (buffer.drop offset.toNat).take maxLen.toNat := by
      rw [hstop, List.take_eq_take_iff, List.length_drop]
      omega
    have hwindowLen : ((buffer.drop offset.toNat).take maxLen.toNat).length < UInt64.size := by
      rw [List.length_take, List.length_drop]
      omega
    rw [if_pos hrange, hwindow]
    show (takeWords mode offset _).map _ = _
    rw [takeWords_eq offset hwindowLen]
    cases takeOctets mode ((buffer.drop offset.toNat).take maxLen.toNat) <;> rfl
  · have hrange : ¬ (offset ≤ Word.least (Word.saturatingAdd offset maxLen) (Word.length buffer) ∧
        Word.least (Word.saturatingAdd offset maxLen) (Word.length buffer) ≤ Word.length buffer) := by
      rw [UInt64.le_iff_toNat_le, UInt64.le_iff_toNat_le, hstop]
      omega
    rw [if_neg hrange, List.drop_of_length_le (by omega), List.take_nil]
    rfl

/-! ## Result -/

/-- **The window decides a header read exactly.** Where a window has a header in it, a window of any other size
    ends inside the header, or before the end of its content, or has the same header. The outcome depends on
    nothing but the octets in the window, which is empty past the buffer, and every error is at the offset.
    Reading with words of 64 bits comes to the same outcome without a fault, whatever the offset and the size. -/
theorem read_decided_by_window (mode : Mode) (buffer : Octets) (offset : Nat) :
    (∀ maxLen header count, read mode buffer offset maxLen = .ok (header, count) →
      ∀ size, read mode buffer offset size =
        if min size (buffer.length - offset) < count then .error ⟨.headerTruncated, offset⟩
        else if min size (buffer.length - offset) < count + header.length.announced then
          .error ⟨.lengthOverflow, offset⟩
        else .ok (header, count)) ∧
      (∀ maxLen other place size, (buffer.drop offset).take maxLen = (other.drop place).take size →
        (read mode buffer offset maxLen).mapError (·.kind) = (read mode other place size).mapError (·.kind)) ∧
      (∀ maxLen error, read mode buffer offset maxLen = .error error → error.pos = offset) ∧
      (∀ maxLen, buffer.length ≤ offset → read mode buffer offset maxLen = .error ⟨.headerTruncated, offset⟩) ∧
      ∀ word maxLen : UInt64, word.toNat = offset → buffer.length < UInt64.size →
        (readWords mode buffer word maxLen).map (fun (header, count) => (header, count.toNat)) =
          (read mode buffer offset maxLen.toNat).mapError .refused := by
  refine ⟨?_, ?_, ?_, ?_, ?_⟩
  · intro maxLen header count h size
    obtain ⟨-, front, rest, hform, hwindow, hcheck, rfl⟩ := read_eq_ok_iff.1 h
    have hstart : front <+: (buffer.drop offset).take maxLen := ⟨rest, hwindow.symm⟩
    exact read_of_form hform (checkLength_eq_ok_iff.1 hcheck).1 (hstart.trans (List.take_prefix maxLen _)) size
  · intro maxLen other place size h
    rw [read_eq, read_eq, h]
    cases takeOctets mode ((other.drop place).take size) <;> rfl
  · intro maxLen error h
    rw [read_eq] at h
    split at h
    · cases h
    · rw [← Except.error.inj h]
  · intro maxLen hpast
    rw [read_eq, List.drop_of_length_le hpast, List.take_nil]
    rfl
  · rintro word maxLen rfl hbuffer
    exact readWords_eq word maxLen hbuffer

/-- A header of three octets with two octets of content, behind another octet: the window that ends with the
    content, one that ends inside the header, one that ends inside the content, the same octets in another
    buffer, a place behind all octets, and the largest window that there is. -/
theorem read_decided_by_window_longLength :
    read .ber [0x00, 0x30, 0x81, 0x02, 0x05, 0x00] 1 5 = .ok (.ofConstructed .sequence 2, 3) ∧
      read .ber [0x00, 0x30, 0x81, 0x02, 0x05, 0x00] 1 2 = .error ⟨.headerTruncated, 1⟩ ∧
      read .ber [0x00, 0x30, 0x81, 0x02, 0x05, 0x00] 1 4 = .error ⟨.lengthOverflow, 1⟩ ∧
      (read .ber [0x30, 0x81, 0x02, 0x05, 0x00, 0xFF] 0 5).mapError (·.kind) =
        .ok (.ofConstructed .sequence 2, 3) ∧
      read .ber [0x00, 0x30, 0x81, 0x02, 0x05, 0x00] 7 1 = .error ⟨.headerTruncated, 7⟩ ∧
      (readWords .ber [0x00, 0x30, 0x81, 0x02, 0x05, 0x00] 1 0xFFFFFFFFFFFFFFFF).map
        (fun (header, count) => (header, count.toNat)) = .ok (.ofConstructed .sequence 2, 3) := by
  have h : read .ber [0x00, 0x30, 0x81, 0x02, 0x05, 0x00] 1 5 = .ok (.ofConstructed .sequence 2, 3) := by
    cbv
  obtain ⟨hsize, hwindow, -, -, hwords⟩ :=
    read_decided_by_window .ber [0x00, 0x30, 0x81, 0x02, 0x05, 0x00] 1
  obtain ⟨-, -, -, hpast, -⟩ := read_decided_by_window .ber [0x00, 0x30, 0x81, 0x02, 0x05, 0x00] 7
  have hother := hwindow 5 [0x30, 0x81, 0x02, 0x05, 0x00, 0xFF] 0 5 rfl
  have hlargest := hwords 1 0xFFFFFFFFFFFFFFFF rfl (by decide)
  rw [h] at hother
  rw [hsize 5 _ _ h] at hlargest
  exact ⟨h, hsize 5 _ _ h 2, hsize 5 _ _ h 4, hother.symm, hpast 1 (by decide), hlargest⟩

end Header

end Asn1
