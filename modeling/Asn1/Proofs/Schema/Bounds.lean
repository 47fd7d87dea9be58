import Asn1.Certificate.Schema
import Asn1.Proofs.Schema.Decode
import Asn1.Proofs.Schema.Scan

/-!
# `Asn1.Proofs.Schema.Bounds` — cursors stay in bounds and advance

A scan reads through cursors what decoding reads through windows: the window between two cursors is a cut of
the input. All that a reader is told comes from the header of a value, and a header that is read has a length
that fits its window. So cursors are never out of order or past the input, and no value is shorter than the
two octets of the shortest header.

## Contents
- **Cuts.** `Window.cut`, and what is split off one: `Element.take_cut`.
- **Calls.** `Call.InBounds` says that the cursors of a call are in bounds, that it advances, and that the
  calls it makes stay in the content of its value. `Call.Reaches` is the tree below a call.
- **Runs.** `Run.Follows` relates a scan to decoding in a cut, with a rule for each combinator.
- **Readers.** One lemma for each reader, by induction over the types; `Scan.decode_inBounds` for whole inputs.
-/

namespace Asn1

/-! ## Cuts -/

/-- The window between two positions of an input. -/
def Window.cut (data : Octets) (pos stop : Nat) : Window := ⟨pos, (data.drop pos).take (stop - pos)⟩

namespace Window

variable {data : Octets} {pos stop : Nat}

theorem cut_whole (data : Octets) : cut data 0 data.length = whole data := by
  rw [cut, whole, List.drop_zero, Nat.sub_zero, List.take_length]

theorem length_cut (hstop : stop ≤ data.length) : (cut data pos stop).octets.length = stop - pos := by
  rw [cut, List.length_take, List.length_drop]
  omega

theorem drop_cut (count : Nat) : (cut data pos stop).drop count = cut data (pos + count) stop := by
  simp only [cut, drop, List.drop_take, List.drop_drop, Nat.sub_add_eq]

theorem take_cut {count : Nat} (h : pos + count ≤ stop) :
    (cut data pos stop).take count = cut data pos (pos + count) := by
  simp only [cut, take, List.take_take, Nat.add_sub_cancel_left]
  rw [Nat.min_eq_left (by omega)]

theorem before_cut {next : Nat} (hpos : pos ≤ next) (hnext : next ≤ stop) :
    (cut data pos stop).before (cut data next stop) = (cut data pos next).octets := by
  have htake : (cut data pos stop).take (next - pos) = cut data pos (pos + (next - pos)) :=
    take_cut (by omega)
  rw [Nat.add_sub_cancel' hpos] at htake
  exact congrArg Window.octets htake

theorem isEmpty_cut (hstop : stop ≤ data.length) : (cut data pos stop).isEmpty = true ↔ stop ≤ pos := by
  rw [isEmpty_iff, ← List.length_eq_zero_iff, length_cut hstop, Nat.sub_eq_zero_iff_le]

end Window

/-- What follows the header in a cut is a cut. -/
theorem Header.take_cut {mode : Mode} {data : Octets} {pos stop : Nat} {header : Header} {after : Window}
    (hstop : stop ≤ data.length) (h : take mode (.cut data pos stop) = .ok (header, after)) :
    ∃ start, pos + 2 ≤ start ∧ start ≤ stop ∧ after = .cut data start stop := by
  obtain ⟨front, hform, hoctets, hpos, -⟩ := take_eq_ok_iff.1 h
  have htwo := two_le_length_of_form hform
  have hlength := congrArg List.length hoctets
  rw [Window.length_cut hstop, List.length_append] at hlength
  refine ⟨pos + front.length, by omega, by omega, ?_⟩
  have hdrop : after = (Window.cut data pos stop).drop front.length := by
    rw [Window.drop, hoctets, List.drop_left]
    obtain ⟨afterPos, afterOctets⟩ := after
    exact congrArg (Window.mk · afterOctets) hpos
  rw [hdrop, Window.drop_cut]

/-- **A value split off a cut lies in it**, and takes two octets beside its content. -/
theorem Element.take_cut {mode : Mode} {data : Octets} {pos stop : Nat} {element : Element}
    (hstop : stop ≤ data.length) (h : take mode (.cut data pos stop) = .ok element) :
    ∃ header start contentEnd, element = ⟨header, .cut data start contentEnd, .cut data contentEnd stop⟩ ∧
      pos + 2 ≤ start ∧ start ≤ contentEnd ∧ contentEnd ≤ stop := by
  rw [take] at h
  obtain ⟨⟨header, after⟩, hheader, h⟩ := bind_eq_ok_iff.1 h
  obtain ⟨start, hstart, hle, rfl⟩ := Header.take_cut hstop hheader
  obtain ⟨-, -, -, -, hcheck⟩ := Header.take_eq_ok_iff.1 hheader
  cases hlength : header.length with
  | indefinite => simp [hlength] at h
  | definite length =>
      have hfits : start + length ≤ stop := by
        obtain ⟨-, hannounced⟩ := Header.checkLength_eq_ok_iff.1 hcheck
        rw [hlength, Length.announced, Window.length_cut hstop] at hannounced
        omega
      simp only [hlength] at h
      rw [Window.take_cut hfits, Window.drop_cut] at h
      exact ⟨header, start, start + length, (Except.ok.inj h).symm, hstart, by omega, hfits⟩

theorem Header.pos_of_take_eq_error {mode : Mode} {window : Window} {error : DecodeError}
    (h : take mode window = .error error) : error.pos = window.pos := by
  rw [take] at h
  split at h
  · simp at h
  · rw [← Except.error.inj h]

theorem Element.pos_of_take_eq_error {mode : Mode} {window : Window} {error : DecodeError}
    (h : take mode window = .error error) : error.pos = window.pos := by
  rw [take] at h
  cases hheader : Header.take mode window with
  | error found =>
      rw [hheader] at h
      rw [← Except.error.inj h]
      exact Header.pos_of_take_eq_error hheader
  | ok result =>
      rw [hheader] at h
      cases hlength : result.1.length with
      | definite length => simp [bind, Except.bind, hlength] at h
      | indefinite =>
          simp only [bind, Except.bind, hlength] at h
          rw [← Except.error.inj h]
          rfl

theorem Element.pos_of_takeConstructed_eq_error {mode : Mode} {tag : Tag} {name : String} {window : Window}
    {error : DecodeError} (h : takeConstructed mode tag name window = .error error) :
    error.pos = window.pos := by
  rw [takeConstructed] at h
  cases htake : take mode window with
  | error found =>
      rw [htake] at h
      rw [← Except.error.inj h]
      exact pos_of_take_eq_error htake
  | ok element =>
      simp only [htake, bind, Except.bind] at h
      split at h
      · rw [← Except.error.inj h]
      · split at h
        · simp at h
        · rw [← Except.error.inj h]
          rfl

theorem Schema.pos_of_isPresent_eq_error {mode : Mode} {expected : Option Tag} {window : Window}
    {error : DecodeError} (h : isPresent mode expected window = .error error) : error.pos = window.pos := by
  unfold isPresent at h
  cases expected with
  | none => simp at h
  | some tag =>
      cases hheader : Header.take mode window with
      | error found =>
          simp only [hheader] at h
          rw [← Except.error.inj h]
          exact Header.pos_of_take_eq_error hheader
      | ok result => simp [hheader, bind, Except.bind, pure, Except.pure] at h

theorem Schema.pos_of_readPrimitive_eq_error {mode : Mode} {tag : Tag} {element : Element} {pos : Nat}
    {error : DecodeError} (h : readPrimitive mode tag element pos = .error error) : error.pos = pos := by
  unfold readPrimitive at h
  split at h
  · rw [← Except.error.inj h]
    rfl
  · split at h
    · rw [← Except.error.inj h]
      rfl
    · split at h
      · simp at h
      · rw [← Except.error.inj h]
        rfl

/-- The steps for a field, with its type looked up once. -/
theorem Schema.readFields_cons (field : Field Schema) (rest : List (Field Schema)) (mode : Mode)
    (known : Sequence Value) (window : Window) :
    readFields (field :: rest) mode known window =
      if window.isEmpty then
        if field.optional then readFields rest mode known window else .error ⟨.truncated, window.pos⟩
      else
        match field.resolve? known with
        | none => .error ⟨.unsupportedSelectorValue field.name, window.pos⟩
        | some type => (do
          if ← isPresent mode (field.outerTag? type) window then
            let (value, window) ← field.read mode (type.read mode field.name) window
            readFields rest mode (known.push field.name value) window
          else if field.optional then readFields rest mode known window
          else .error ⟨.missingRequiredField field.name, window.pos⟩) := by
  rw [readFields]
  congr 1
  split <;> simp [*]

/-! ## Cursors and cuts -/

namespace Scan

variable {scan : Scan} {pos stop : Nat}

theorem slice_eq (hpos : pos ≤ stop) (hstop : stop ≤ scan.data.length) :
    scan.slice pos stop = .ok (Window.cut scan.data pos stop).octets :=
  if_pos ⟨hpos, hstop⟩

/-- A header is read at a cursor like in the cut there. -/
theorem header_eq (hpos : pos ≤ stop) (hstop : stop ≤ scan.data.length) :
    scan.header pos stop =
      ((Header.take scan.mode (.cut scan.data pos stop)).map
        fun found => (found.1, found.2.pos - pos)).mapError .refused := by
  have hread : Header.read scan.mode scan.data pos (stop - pos) =
      (Header.take scan.mode (.cut scan.data pos stop)).map fun found => (found.1, found.2.pos - pos) := by
    rw [Header.read, if_neg (by omega), Window.cut]
    cases Header.take scan.mode ⟨pos, (scan.data.drop pos).take (stop - pos)⟩ <;> rfl
  rw [header, remaining, if_pos hpos, ← hread]
  rfl

/-- Where an element is found. -/
def Found.ofElement (element : Element) : Found := ⟨element.header, element.content.pos, element.rest.pos⟩

/-- A value is found at a cursor like in the cut there. -/
theorem find_eq (hpos : pos ≤ stop) (hstop : stop ≤ scan.data.length) :
    scan.find pos stop =
      ((Element.take scan.mode (.cut scan.data pos stop)).map .ofElement).mapError .refused := by
  rw [find, header_eq hpos hstop, Element.take]
  cases hheader : Header.take scan.mode (.cut scan.data pos stop) with
  | error error => rfl
  | ok found =>
      obtain ⟨header, after⟩ := found
      obtain ⟨start, hstart, -, rfl⟩ := Header.take_cut hstop hheader
      have hsum : pos + (start - pos) = start := by omega
      cases hlength : header.length with
      | definite length =>
          simp only [bind, Except.bind, Except.map, Except.mapError, hlength, Window.cut, hsum]
          rfl
      | indefinite =>
          simp only [bind, Except.bind, Except.map, Except.mapError, hlength]
          rfl

theorem find_of_take {element : Element} (hpos : pos ≤ stop) (hstop : stop ≤ scan.data.length)
    (h : Element.take scan.mode (.cut scan.data pos stop) = .ok element) :
    scan.find pos stop = .ok (.ofElement element) := by
  rw [find_eq hpos hstop, h]
  rfl

/-- The content that is found at a cursor is between the cursors, after the two octets of a header. -/
theorem le_of_find_eq_ok {found : Found} (hpos : pos ≤ stop) (hstop : stop ≤ scan.data.length)
    (h : scan.find pos stop = .ok found) :
    pos + 2 ≤ found.start ∧ found.start ≤ found.contentEnd ∧ found.contentEnd ≤ stop := by
  rw [find_eq hpos hstop] at h
  cases htake : Element.take scan.mode (.cut scan.data pos stop) with
  | error error => simp [htake, Except.map, Except.mapError] at h
  | ok element =>
      obtain ⟨header, start, contentEnd, rfl, hle⟩ := Element.take_cut hstop htake
      rw [htake] at h
      rw [← Except.ok.inj h]
      exact hle

/-- A constructed value is found at a cursor like in the cut there. -/
theorem findConstructed_eq {tag : Tag} {name : String} (hpos : pos ≤ stop)
    (hstop : stop ≤ scan.data.length) :
    scan.findConstructed tag name pos stop =
      ((Element.takeConstructed scan.mode tag name (.cut scan.data pos stop)).map .ofElement).mapError
        .refused := by
  rw [findConstructed, find_eq hpos hstop, Element.takeConstructed]
  cases Element.take scan.mode (.cut scan.data pos stop) with
  | error error => rfl
  | ok element =>
      simp only [bind, Except.bind, Except.map, Except.mapError, Found.ofElement]
      by_cases htag : element.header.tag = tag
      · rw [if_neg (not_not_intro htag), if_neg (not_not_intro htag)]
        cases element.header.constructed <;> rfl
      · rw [if_pos htag, if_pos htag]
        rfl

/-- A field is seen to be there at a cursor like in the cut there. -/
theorem isPresent_eq {expected : Option Tag} (hpos : pos ≤ stop) (hstop : stop ≤ scan.data.length) :
    scan.isPresent expected pos stop =
      (Schema.isPresent scan.mode expected (.cut scan.data pos stop)).mapError .refused := by
  cases expected with
  | none => rfl
  | some tag =>
      rw [isPresent, Schema.isPresent, header_eq hpos hstop]
      cases Header.take scan.mode (.cut scan.data pos stop) <;> rfl

/-- Primitive content is read between cursors like from the cut there. -/
theorem primitive_eq {tag : Tag} {header : Header} {start contentEnd : Nat} {rest : Window}
    (hstart : start ≤ contentEnd) (hend : contentEnd ≤ scan.data.length) :
    scan.primitive tag ⟨header, start, contentEnd⟩ pos =
      (Schema.readPrimitive scan.mode tag ⟨header, .cut scan.data start contentEnd, rest⟩ pos).mapError
        .refused := by
  simp only [primitive, slice_eq hstart hend]
  rfl

end Scan

/-! ## Calls in bounds -/

namespace Call

/-- The cursors are in the content of the value at `pos`, and stop where that ends. -/
def InContent (scan : Scan) (pos stop : Nat) (call : Call) : Prop :=
  ∃ found, scan.find pos stop = .ok found ∧ found.start ≤ call.pos ∧ call.stop = found.contentEnd

/-- The second call is the first one or below it in the tree of calls. -/
inductive Reaches : Call → Call → Prop where
  | refl (call : Call) : Reaches call call
  | inner {call inner other : Call} : inner ∈ call.inner → Reaches inner other → Reaches call other

end Call

/-- Which calls a reader may make. The fields of a sequence are read from where the last one ended. A field
    is handed on as it is, or its content if it is wrapped or a repetition. -/
def Reader.MayCall (scan : Scan) (reader : Reader) (pos stop : Nat) (inner : Call) : Prop :=
  match reader with
  | .value => inner.InContent scan pos stop
  | .fields => pos ≤ inner.pos ∧ inner.stop = stop
  | .field | .repetition => (inner.pos = pos ∧ inner.stop = stop) ∨ inner.InContent scan pos stop

/-- The cursors of a call are in bounds, and so are those it returns and hands on. -/
structure Call.InBounds (scan : Scan) (call : Call) : Prop where
  pos_le : call.pos ≤ call.stop
  stop_le : call.stop ≤ scan.data.length
  /-- A cursor returned is not past the stop. -/
  next_le : ∀ next, call.outcome = .ok next → next ≤ call.stop
  /-- A value takes at least two octets. -/
  advances : call.reader ≠ .fields → ∀ next, call.outcome = .ok next → call.pos + 2 ≤ next
  /-- The cursor returned for a value is the end of its content. -/
  next_eq : call.reader ≠ .fields → ∀ next, call.outcome = .ok next →
    ∃ found, scan.find call.pos call.stop = .ok found ∧ next = found.contentEnd
  /-- Nothing but an error in the data stops the call, and that is within them. -/
  refused : ∀ interruption, call.outcome = .error interruption →
    ∃ error, interruption = .refused error ∧ call.pos ≤ error.pos ∧ error.pos ≤ call.stop
  inner : ∀ inner ∈ call.inner, call.reader.MayCall scan call.pos call.stop inner

/-- All calls in the tree below the call are in bounds. -/
def Call.Sound (scan : Scan) (call : Call) : Prop := ∀ other, call.Reaches other → other.InBounds scan

namespace Call

variable {scan : Scan} {call : Call}

/-- The calls that a call makes itself stay between its cursors. -/
theorem InBounds.le_inner (h : call.InBounds scan) {inner : Call} (hinner : inner ∈ call.inner) :
    call.pos ≤ inner.pos ∧ inner.stop ≤ call.stop := by
  have hcontent (h' : inner.InContent scan call.pos call.stop) :
      call.pos ≤ inner.pos ∧ inner.stop ≤ call.stop := by
    obtain ⟨found, hfind, hstart, hend⟩ := h'
    obtain ⟨hfirst, -, hlast⟩ := Scan.le_of_find_eq_ok h.pos_le h.stop_le hfind
    omega
  have hmay := h.inner inner hinner
  have hsame (h' : inner.pos = call.pos ∧ inner.stop = call.stop) :
      call.pos ≤ inner.pos ∧ inner.stop ≤ call.stop := by
    omega
  unfold Reader.MayCall at hmay
  cases hreader : call.reader with
  | value => exact hcontent (by simpa only [hreader] using hmay)
  | fields =>
      simp only [hreader] at hmay
      exact ⟨hmay.1, Nat.le_of_eq hmay.2⟩
  | field =>
      simp only [hreader] at hmay
      exact hmay.elim hsame hcontent
  | repetition =>
      simp only [hreader] at hmay
      exact hmay.elim hsame hcontent

theorem Sound.of_inner (h : call.InBounds scan) (hinner : ∀ inner ∈ call.inner, inner.Sound scan) :
    call.Sound scan := by
  intro other hother
  cases hother with
  | refl => exact h
  | inner hmem hreaches => exact hinner _ hmem _ hreaches

theorem Reaches.trans {other further : Call} (hother : call.Reaches other)
    (hfurther : other.Reaches further) : call.Reaches further := by
  induction hother with
  | refl => exact hfurther
  | inner hmem _ ih => exact .inner hmem (ih hfurther)

theorem Sound.of_reaches {other : Call} (h : call.Sound scan) (hother : call.Reaches other) :
    other.Sound scan :=
  fun further hfurther => h further (hother.trans hfurther)

/-- Calls below a call stay between its cursors. -/
theorem Reaches.nested {other : Call} (hother : call.Reaches other) (h : call.Sound scan) :
    call.pos ≤ other.pos ∧ other.stop ≤ call.stop := by
  induction hother with
  | refl => exact ⟨Nat.le_refl _, Nat.le_refl _⟩
  | @inner call inner other hmem hreaches ih =>
      obtain ⟨hpos, hstop⟩ := ih fun other hother => h other (.inner hmem hother)
      obtain ⟨hle, hge⟩ := (h call (.refl call)).le_inner hmem
      exact ⟨hle.trans hpos, hstop.trans hge⟩

end Call

/-! ## Runs that follow decoding -/

/-- The run comes to the result of decoding between the cursors, with what is left placed in the input. All
    calls it makes itself are of a given kind, and all calls below them in bounds. -/
structure Run.Follows {α β : Type} (scan : Scan) (pos stop : Nat) (kind : Call → Prop) (run : Run α)
    (plain : Except DecodeError β) (place : β → α) : Prop where
  result_eq : run.result = (plain.map place).mapError .refused
  error_pos : ∀ error, plain = .error error → pos ≤ error.pos ∧ error.pos ≤ stop
  calls : ∀ call ∈ run.calls, kind call ∧ call.Sound scan

namespace Run.Follows

variable {α β α' β' : Type} {scan : Scan} {pos stop : Nat} {kind : Call → Prop} {place : β → α}
  {place' : β' → α'}

/-- A result without calls. -/
theorem ofExcept {result : Except Interruption α} {plain : Except DecodeError β}
    (hresult : result = (plain.map place).mapError .refused)
    (herror : ∀ error, plain = .error error → pos ≤ error.pos ∧ error.pos ≤ stop) :
    (Run.ofExcept result).Follows scan pos stop kind plain place :=
  ⟨hresult, herror, fun _ h => absurd h List.not_mem_nil⟩

/-- A check with the same result. -/
theorem check {result : Except Interruption α} {plain : Except DecodeError α}
    (hresult : result = plain.mapError .refused)
    (herror : ∀ error, plain = .error error → pos ≤ error.pos ∧ error.pos ≤ stop) :
    (Run.ofExcept result).Follows scan pos stop kind plain id :=
  ofExcept (by rw [hresult]; cases plain <;> rfl) herror

theorem pure {value : α} {plain : β} (h : value = place plain) :
    (Pure.pure value : Run α).Follows scan pos stop kind (.ok plain) place :=
  ofExcept (by rw [h]; rfl) (fun _ => nofun)

theorem refuse {error : DecodeError} (h : pos ≤ error.pos ∧ error.pos ≤ stop) :
    (Run.refuse error : Run α).Follows scan pos stop kind (.error error) place :=
  ofExcept rfl fun _ herror => by rwa [← Except.error.inj herror]

/-- One run after the other. -/
theorem bind {run : Run α} {plain : Except DecodeError β} {next : α → Run α'}
    {plainNext : β → Except DecodeError β'} (hrun : run.Follows scan pos stop kind plain place)
    (hnext : ∀ value, plain = .ok value →
      (next (place value)).Follows scan pos stop kind (plainNext value) place') :
    (run >>= next).Follows scan pos stop kind (plain >>= plainNext) place' := by
  have hresult := hrun.result_eq
  show (Run.bind run next).Follows scan pos stop kind _ place'
  cases hplain : plain with
  | error error =>
      rw [hplain] at hresult
      have hbind : Run.bind run next = ⟨run.calls, .error (.refused error)⟩ := by
        rw [Run.bind, hresult]
        rfl
      rw [hbind]
      refine ⟨rfl, fun found hfound => ?_, hrun.calls⟩
      rw [← Except.error.inj hfound]
      exact hrun.error_pos error hplain
  | ok value =>
      rw [hplain] at hresult
      have hbind : Run.bind run next =
          ⟨run.calls ++ (next (place value)).calls, (next (place value)).result⟩ := by
        rw [Run.bind, hresult]
        rfl
      have hstep := hnext value hplain
      rw [hbind]
      refine ⟨hstep.result_eq, hstep.error_pos, fun call hcall => ?_⟩
      rcases List.mem_append.1 hcall with hcall | hcall
      · exact hrun.calls call hcall
      · exact hstep.calls call hcall

/-- A choice by one condition. -/
theorem ite {condition : Prop} [Decidable condition] {run run' : Run α} {plain plain' : Except DecodeError β}
    (h : run.Follows scan pos stop kind plain place) (h' : run'.Follows scan pos stop kind plain' place) :
    (if condition then run else run').Follows scan pos stop kind (if condition then plain else plain')
      place := by
  by_cases hcondition : condition
  · rwa [if_pos hcondition, if_pos hcondition]
  · rwa [if_neg hcondition, if_neg hcondition]

/-- A run between two cursors is one between wider ones. -/
theorem mono {run : Run α} {plain : Except DecodeError β} {start contentEnd : Nat}
    {narrow : Call → Prop} (hstart : pos ≤ start) (hend : contentEnd ≤ stop)
    (hkind : ∀ call, narrow call → kind call)
    (h : run.Follows scan start contentEnd narrow plain place) :
    run.Follows scan pos stop kind plain place := by
  refine ⟨h.result_eq, fun error herror => ?_, fun call hcall => ?_⟩
  · obtain ⟨hle, hge⟩ := h.error_pos error herror
    exact ⟨hstart.trans hle, hge.trans hend⟩
  · obtain ⟨hnarrow, hsound⟩ := h.calls call hcall
    exact ⟨hkind call hnarrow, hsound⟩

theorem of_kind {run : Run α} {plain : Except DecodeError β} {narrow : Call → Prop}
    (h : run.Follows scan pos stop narrow plain place) (hkind : ∀ call, narrow call → kind call) :
    run.Follows scan pos stop kind plain place :=
  h.mono (Nat.le_refl pos) (Nat.le_refl stop) hkind

/-- A run recorded as a call, whose cursors are in bounds if the one reached is. -/
theorem call {reader : Reader} {body : Run α} {plain : Except DecodeError β} {reached : α → Nat}
    (hpos : pos ≤ stop) (hstop : stop ≤ scan.data.length)
    (hbody : body.Follows scan pos stop (reader.MayCall scan pos stop) plain place)
    (hle : ∀ value, plain = .ok value → reached (place value) ≤ stop)
    (hfind : reader ≠ .fields → ∀ value, plain = .ok value →
      ∃ found, scan.find pos stop = .ok found ∧ reached (place value) = found.contentEnd) :
    (Run.call reader pos stop reached body).Follows scan pos stop
      (fun call => call.pos = pos ∧ call.stop = stop) plain place := by
  have hresult := hbody.result_eq
  have hok (next : Nat) (h : body.result.map reached = .ok next) :
      ∃ value, plain = .ok value ∧ next = reached (place value) := by
    cases hplain : plain with
    | error error => simp [hresult, hplain, Except.map, Except.mapError] at h
    | ok value =>
        rw [hresult, hplain] at h
        exact ⟨value, rfl, (Except.ok.inj h).symm⟩
  refine ⟨hresult, hbody.error_pos, fun call hcall => ?_⟩
  rw [Run.call, List.mem_singleton] at hcall
  subst hcall
  refine ⟨⟨rfl, rfl⟩, Call.Sound.of_inner ?_ fun inner hinner => (hbody.calls inner hinner).2⟩
  refine ⟨hpos, hstop, ?_, ?_, ?_, ?_, fun inner hinner => (hbody.calls inner hinner).1⟩
  · intro next hnext
    obtain ⟨value, hvalue, rfl⟩ := hok next hnext
    exact hle value hvalue
  · intro hreader next hnext
    obtain ⟨value, hvalue, rfl⟩ := hok next hnext
    obtain ⟨found, hfound, hreached⟩ := hfind hreader value hvalue
    obtain ⟨hstart, hend, -⟩ := Scan.le_of_find_eq_ok hpos hstop hfound
    show pos + 2 ≤ reached (place value)
    omega
  · intro hreader next hnext
    obtain ⟨value, hvalue, rfl⟩ := hok next hnext
    exact hfind hreader value hvalue
  · intro interruption hinterruption
    cases hplain : plain with
    | ok value => simp [hresult, hplain, Except.map, Except.mapError] at hinterruption
    | error error =>
        simp only [hresult, hplain, Except.map, Except.mapError] at hinterruption
        exact ⟨error, (Except.error.inj hinterruption).symm, hbody.error_pos error hplain⟩

end Run.Follows

/-! ## Readers -/

/-- A reader of encodings takes an element off the front of a window. -/
theorem Recognizes.exists_element {reader : Window → Except DecodeError (Value × Window)}
    {encodes : Octets → Value → Prop} {mode : Mode} (h : Recognizes reader encodes)
    (hstarts : ∀ octets value, encodes octets value → ∃ expected, StartsWith mode expected octets)
    {window rest : Window} {value : Value} (hread : reader window = .ok (value, rest)) :
    ∃ element, Element.take mode window = .ok element ∧ rest = element.rest := by
  obtain ⟨front, hfront, hoctets, hpos⟩ := (h window value rest).1 hread
  obtain ⟨expected, identifier, content, hframe, -⟩ := hstarts front value hfront
  exact ⟨_, hframe.take hoctets hpos, rfl⟩

/-- Where a result is placed: what is left is known by where it starts. -/
def Scan.place {α : Type} (found : α × Window) : α × Nat := (found.1, found.2.pos)

/-- A reader with cursors follows one with windows that takes elements off their front. -/
structure Scan.Follows (scan : Scan) (run : (pos stop : Nat) → Run (Value × Nat))
    (reader : Window → Except DecodeError (Value × Window)) : Prop where
  follows : ∀ pos stop, pos ≤ stop → stop ≤ scan.data.length →
    (run pos stop).Follows scan pos stop (fun call => call.pos = pos ∧ call.stop = stop)
      (reader (.cut scan.data pos stop)) Scan.place
  element : ∀ window value rest, reader window = .ok (value, rest) →
    ∃ element, Element.take scan.mode window = .ok element ∧ rest = element.rest

namespace Scan

variable {scan : Scan} {pos stop : Nat}

/-- What a reader leaves of a cut is a cut that starts at least two octets later. -/
theorem Follows.rest_eq {run : (pos stop : Nat) → Run (Value × Nat)}
    {reader : Window → Except DecodeError (Value × Window)} (h : scan.Follows run reader)
    (hstop : stop ≤ scan.data.length) {value : Value} {rest : Window}
    (hread : reader (.cut scan.data pos stop) = .ok (value, rest)) :
    ∃ next, rest = .cut scan.data next stop ∧ pos + 2 ≤ next ∧ next ≤ stop := by
  obtain ⟨element, htake, rfl⟩ := h.element _ _ _ hread
  obtain ⟨header, start, contentEnd, rfl, hstart, hle, hend⟩ := Element.take_cut hstop htake
  exact ⟨contentEnd, rfl, by omega, hend⟩

/-- A reader recorded as a call follows the reader with windows that its body follows. -/
theorem Follows.call {reader : Reader}
    {body : (pos stop : Nat) → Run (Value × Nat)} {plain : Window → Except DecodeError (Value × Window)}
    (hbody : ∀ pos stop, pos ≤ stop → stop ≤ scan.data.length →
      (body pos stop).Follows scan pos stop (reader.MayCall scan pos stop)
        (plain (.cut scan.data pos stop)) Scan.place)
    (helement : ∀ window value rest, plain window = .ok (value, rest) →
      ∃ element, Element.take scan.mode window = .ok element ∧ rest = element.rest) :
    scan.Follows (fun pos stop => .call reader pos stop (·.2) (body pos stop)) plain := by
  refine ⟨fun pos stop hpos hstop => ?_, helement⟩
  have hnext (result : Value × Window) (h : plain (.cut scan.data pos stop) = .ok result) :
      result.2.pos ≤ stop ∧ ∃ found, scan.find pos stop = .ok found ∧ result.2.pos = found.contentEnd := by
    obtain ⟨value, rest⟩ := result
    obtain ⟨element, htake, rfl⟩ := helement _ _ _ h
    obtain ⟨header, start, contentEnd, rfl, -, -, hend⟩ := Element.take_cut hstop htake
    exact ⟨hend, _, find_of_take hpos hstop htake, rfl⟩
  exact .call hpos hstop (hbody pos stop hpos hstop) (fun result h => (hnext result h).1)
    fun _ result h => (hnext result h).2

/-- At the end of a window there are no items. -/
theorem readItems_of_isEmpty {item : Window → Except DecodeError (Value × Window)} (budget : Nat)
    {window : Window} (h : window.isEmpty = true) : readItems item budget window = .ok [] := by
  cases budget with
  | zero => rw [readItems, if_pos h]
  | succ budget => rw [readItems, if_pos h]

/-- **Items are read until the content ends.** Each takes two octets at least, so the loop ends before its
    budget does. -/
theorem items_follows {item : (pos stop : Nat) → Run (Value × Nat)}
    {reader : Window → Except DecodeError (Value × Window)} (hitem : scan.Follows item reader)
    (budget plainBudget : Nat) (hpos : pos ≤ stop) (hstop : stop ≤ scan.data.length)
    (hbudget : stop - pos ≤ budget) (hplain : stop - pos ≤ plainBudget) :
    (items item budget pos stop).Follows scan pos stop (fun call => pos ≤ call.pos ∧ call.stop = stop)
      (readItems reader plainBudget (.cut scan.data pos stop)) id := by
  induction budget generalizing plainBudget pos with
  | zero =>
      rw [items, if_neg (by omega), readItems_of_isEmpty _ ((Window.isEmpty_cut hstop).2 (by omega))]
      exact .pure rfl
  | succ budget ih =>
      rw [items]
      by_cases hmore : pos < stop
      · have hnonempty : ¬ (Window.cut scan.data pos stop).isEmpty = true :=
          mt (Window.isEmpty_cut hstop).1 (by omega)
        obtain ⟨plainBudget, rfl⟩ : ∃ smaller, plainBudget = smaller + 1 := ⟨plainBudget - 1, by omega⟩
        rw [if_pos hmore, readItems, if_neg hnonempty]
        refine .bind ((hitem.follows pos stop hpos hstop).of_kind ?_) ?_
        · rintro call ⟨rfl, hend⟩
          exact ⟨Nat.le_refl _, hend⟩
        · rintro ⟨value, rest⟩ hvalue
          obtain ⟨next, rfl, hnext, hle⟩ := hitem.rest_eq hstop hvalue
          refine .bind ((ih plainBudget hle (by omega) (by omega)).mono (by omega) (Nat.le_refl _) ?_) ?_
          · rintro call ⟨hstart, hend⟩
            exact ⟨by omega, hend⟩
          · intro values _
            exact .pure rfl
      · rw [if_neg hmore, readItems_of_isEmpty _ ((Window.isEmpty_cut hstop).2 (by omega))]
        exact .pure rfl

/-- Items are read in the content of a constructed value. -/
theorem repeated_follows {item : (pos stop : Nat) → Run (Value × Nat)}
    {reader : Window → Except DecodeError (Value × Window)} (hitem : scan.Follows item reader)
    (hbudget : scan.data.length ≤ scan.budget) (tag : Tag) (name : String) (hpos : pos ≤ stop)
    (hstop : stop ≤ scan.data.length) :
    (scan.repeated tag name item pos stop).Follows scan pos stop (·.InContent scan pos stop)
      (do
        let element ← Element.takeConstructed scan.mode tag name (.cut scan.data pos stop)
        let values ← readItems reader element.content.octets.length element.content
        return (values, element.rest))
      Scan.place := by
  refine .bind (.ofExcept (findConstructed_eq hpos hstop) fun error herror => ?_) fun element helement => ?_
  · rw [Element.pos_of_takeConstructed_eq_error herror]
    exact ⟨Nat.le_refl _, hpos⟩
  · obtain ⟨htake, -⟩ := Element.takeConstructed_eq_ok_iff.1 helement
    obtain ⟨header, start, contentEnd, rfl, hstart, hle, hend⟩ := Element.take_cut hstop htake
    have hlength : (Window.cut scan.data start contentEnd).octets.length = contentEnd - start :=
      Window.length_cut (hend.trans hstop)
    have hitems := items_follows hitem scan.budget (contentEnd - start) hle (hend.trans hstop)
      (by omega) (Nat.le_refl _)
    rw [← hlength] at hitems
    refine .bind (hitems.mono (by omega) hend ?_) fun values _ => .pure rfl
    rintro call ⟨hcall, rfl⟩
    exact ⟨_, find_of_take hpos hstop htake, hcall, rfl⟩

end Scan

namespace Scan

variable {σ : Type} {scan : Scan} {item : CursorReader} {type : Schema} {name : String}

/-- **Repetition keeps cursors in bounds.** -/
theorem repetition_follows (field : Field σ)
    (hitem : ∀ override, scan.Follows (item override) (type.read scan.mode name override))
    (hbudget : scan.data.length ≤ scan.budget) (override : Option Tag) :
    scan.Follows (scan.repetition field item override)
      (field.readRepeated scan.mode (type.read scan.mode name) override) := by
  refine .call (fun pos stop hpos hstop => ?_) fun window value rest h => ?_
  · have hrepeated (tag : Tag) := repeated_follows (hitem none) hbudget tag field.name hpos hstop
    unfold Field.readRepeated
    cases field.repetition with
    | single => exact ((hitem override).follows pos stop hpos hstop).of_kind fun call hcall => .inl hcall
    | setOf => exact .bind ((hrepeated _).of_kind fun call hcall => .inr hcall) fun found _ => .pure rfl
    | sequenceOf => exact .bind ((hrepeated _).of_kind fun call hcall => .inr hcall) fun found _ => .pure rfl
  · refine (field.readRepeated_recognizes (fun override => type.read_recognizes scan.mode name override)
      (fun _ _ _ hitem => hitem.ne_nil) override).exists_element (fun octets value hvalue => ?_) h
    exact ⟨_, hvalue.startsWith fun _ _ _ hitem => hitem.startsWith⟩

/-- **Tagging keeps cursors in bounds.** -/
theorem field_follows (field : Field σ)
    (hitem : ∀ override, scan.Follows (item override) (type.read scan.mode name override))
    (hbudget : scan.data.length ≤ scan.budget) :
    scan.Follows (scan.field field item) (field.read scan.mode (type.read scan.mode name)) := by
  have hrepetition (override : Option Tag) := repetition_follows field hitem hbudget override
  refine .call (fun pos stop hpos hstop => ?_) fun window value rest h => ?_
  · unfold Field.read
    rcases field.tagging with _ | ⟨_ | _, tag⟩
    · exact ((hrepetition none).follows pos stop hpos hstop).of_kind fun call hcall => .inl hcall
    · exact ((hrepetition (some tag)).follows pos stop hpos hstop).of_kind fun call hcall => .inl hcall
    · refine .bind (.ofExcept (findConstructed_eq hpos hstop) fun error herror => ?_) fun element helement => ?_
      · rw [Element.pos_of_takeConstructed_eq_error herror]
        exact ⟨Nat.le_refl _, hpos⟩
      · obtain ⟨htake, -⟩ := Element.takeConstructed_eq_ok_iff.1 helement
        obtain ⟨header, start, contentEnd, rfl, hstart, hle, hend⟩ := Element.take_cut hstop htake
        have hempty : (Window.cut scan.data start contentEnd).isEmpty = true ↔ contentEnd ≤ start :=
          Window.isEmpty_cut (hend.trans hstop)
        show (if start = contentEnd then _ else _ : Run _).Follows _ _ _ _ (if _ then _ else _) _
        by_cases hnone : start = contentEnd
        · rw [if_pos hnone, if_pos (hempty.2 (by omega))]
          exact .refuse ⟨by show pos ≤ start; omega, by show start ≤ stop; omega⟩
        · rw [if_neg hnone, if_neg (by rw [hempty]; omega)]
          refine .bind (((hrepetition none).follows start contentEnd hle (hend.trans hstop)).mono
            (by omega) hend ?_) ?_
          · rintro call ⟨rfl, rfl⟩
            exact .inr ⟨_, find_of_take hpos hstop htake, Nat.le_refl _, rfl⟩
          · rintro ⟨value, rest⟩ hvalue
            -- The wrapper holds exactly one value if what is left of its content is nothing.
            obtain ⟨next, rfl, hnext, hlast⟩ := (hrepetition none).rest_eq (hend.trans hstop) hvalue
            have hleft : (Window.cut scan.data next contentEnd).isEmpty = true ↔ contentEnd ≤ next :=
              Window.isEmpty_cut (hend.trans hstop)
            show (if next = contentEnd then _ else _ : Run _).Follows _ _ _ _ (if _ then _ else _) _
            by_cases hall : next = contentEnd
            · rw [if_pos hall, if_pos (hleft.2 (by omega))]
              exact .pure rfl
            · rw [if_neg hall, if_neg (mt hleft.1 (by omega))]
              exact .refuse ⟨by show pos ≤ next; omega, by show next ≤ stop; omega⟩
  · refine (field.read_recognizes (fun override => type.read_recognizes scan.mode name override)
      (fun _ _ _ hitem => hitem.ne_nil)).exists_element (fun octets value hvalue => ?_) h
    obtain ⟨content, hinner, rfl | ⟨tag, hframe⟩⟩ := hvalue.exists_repeated
    · exact ⟨_, hinner.startsWith fun _ _ _ hitem => hitem.startsWith⟩
    · exact ⟨none, _, _, hframe, rfl⟩

/-- The steps for a field, with its type looked up once. -/
theorem fields_cons (scan : Scan) (field : Field Schema) (rest : List (Field Schema))
    (known : Sequence Value) (pos stop : Nat) :
    scan.fields (field :: rest) known pos stop =
      if stop ≤ pos then
        if field.optional then scan.fields rest known pos stop else .refuse ⟨.truncated, pos⟩
      else
        match field.resolve? known with
        | none => .refuse ⟨.unsupportedSelectorValue field.name, pos⟩
        | some type => (do
          if ← .ofExcept (scan.isPresent (field.outerTag? type) pos stop) then
            let (value, next) ← scan.field field (scan.value type field.name) pos stop
            scan.fields rest (known.push field.name value) next stop
          else if field.optional then scan.fields rest known pos stop
          else .refuse ⟨.missingRequiredField field.name, pos⟩) := by
  rw [fields]
  congr 1
  split <;> simp [*]

/-- **The fields of a sequence are read one after the other**, each from where the one before it ended. -/
theorem fields_follows {fields : List (Field Schema)}
    (htypes : ∀ field ∈ fields, ∀ type ∈ field.type.types, ∀ name override,
      scan.Follows (scan.value type name override) (type.read scan.mode name override))
    (hbudget : scan.data.length ≤ scan.budget) {known : Sequence Value} {pos stop : Nat}
    (hpos : pos ≤ stop) (hstop : stop ≤ scan.data.length) :
    (scan.fields fields known pos stop).Follows scan pos stop
      (fun call => pos ≤ call.pos ∧ call.stop = stop)
      (Schema.readFields fields scan.mode known (.cut scan.data pos stop)) id := by
  induction fields generalizing known pos with
  | nil =>
      rw [fields, Schema.readFields]
      by_cases hend : pos = stop
      · rw [if_pos hend, if_pos ((Window.isEmpty_cut hstop).2 (by omega))]
        exact .pure rfl
      · rw [if_neg hend, if_neg (mt (Window.isEmpty_cut hstop).1 (by omega))]
        exact .refuse ⟨Nat.le_refl _, hpos⟩
  | cons field rest ih =>
      have ih {known : Sequence Value} {pos : Nat} (hpos : pos ≤ stop) :=
        @ih (fun field hfield => htypes field (List.mem_cons_of_mem _ hfield)) known pos hpos
      rw [fields_cons, Schema.readFields_cons]
      by_cases hend : stop ≤ pos
      · rw [if_pos hend, if_pos ((Window.isEmpty_cut hstop).2 hend)]
        exact .ite (ih hpos) (.refuse ⟨Nat.le_refl _, hpos⟩)
      · rw [if_neg hend, if_neg (mt (Window.isEmpty_cut hstop).1 hend)]
        cases hresolve : field.resolve? known with
        | none => exact .refuse ⟨Nat.le_refl _, hpos⟩
        | some type =>
          refine .bind (.check (isPresent_eq hpos hstop) fun error herror => ?_) fun present _ => ?_
          · rw [Schema.pos_of_isPresent_eq_error herror]
            exact ⟨Nat.le_refl _, hpos⟩
          · cases present with
            | false =>
                show (if field.optional = true then _ else _ : Run _).Follows _ _ _ _
                  (if field.optional = true then _ else _) _
                exact .ite (ih hpos) (.refuse ⟨Nat.le_refl _, hpos⟩)
            | true =>
                have hfield := field_follows field
                  (htypes field List.mem_cons_self type (Field.resolve?_mem hresolve) field.name) hbudget
                refine .bind ((hfield.follows pos stop hpos hstop).of_kind ?_) ?_
                · rintro call ⟨rfl, hcall⟩
                  exact ⟨Nat.le_refl _, hcall⟩
                · rintro ⟨value, after⟩ hvalue
                  obtain ⟨next, rfl, hnext, hle⟩ := hfield.rest_eq hstop hvalue
                  refine (ih hle).mono (by omega) (Nat.le_refl _) ?_
                  rintro call ⟨hstart, hcall⟩
                  exact ⟨by omega, hcall⟩

/-- A value is read at a cursor like in the cut there, if its content is. -/
theorem value_follows_of_content {schema : Schema} {override : Option Tag}
    {content : Found → (pos : Nat) → Run (Value × Nat)}
    {plain : Element → Window → Except DecodeError (Value × Window)}
    (hvalue : ∀ pos stop, scan.value schema name override pos stop =
      .call .value pos stop (·.2) (do
        let found ← .ofExcept (scan.find pos stop)
        if (override.or schema.naturalTag?).all (· == found.header.tag) then content found pos
        else .refuse ⟨.missingRequiredField name, pos⟩))
    (hread : ∀ window, schema.read scan.mode name override window = do
      let element ← Element.take scan.mode window
      if (override.or schema.naturalTag?).all (· == element.header.tag) then plain element window
      else .error ⟨.missingRequiredField name, window.pos⟩)
    (hcontent : ∀ found pos stop, stop ≤ scan.data.length → pos + 2 ≤ found.start →
      found.start ≤ found.contentEnd → found.contentEnd ≤ stop → scan.find pos stop = .ok found →
      (content found pos).Follows scan pos stop (·.InContent scan pos stop)
        (plain ⟨found.header, .cut scan.data found.start found.contentEnd,
          .cut scan.data found.contentEnd stop⟩ (.cut scan.data pos stop))
        Scan.place) :
    scan.Follows (scan.value schema name override) (schema.read scan.mode name override) := by
  rw [show scan.value schema name override = _ from funext fun pos => funext (hvalue pos)]
  refine .call (fun pos stop hpos hstop => ?_) fun window value rest h => ?_
  · rw [hread]
    refine .bind (.ofExcept (find_eq hpos hstop) fun error herror => ?_) fun element htake => ?_
    · rw [Element.pos_of_take_eq_error herror]
      exact ⟨Nat.le_refl _, hpos⟩
    · have hfind := find_of_take hpos hstop htake
      obtain ⟨header, start, contentEnd, rfl, hstart, hle, hend⟩ := Element.take_cut hstop htake
      exact .ite (hcontent _ _ _ hstop hstart hle hend hfind) (.refuse ⟨Nat.le_refl _, hpos⟩)
  · exact (schema.read_recognizes scan.mode name override).exists_element
      (fun octets value hvalue => ⟨_, hvalue.startsWith⟩) h

/-- **The cursors of a value and of everything in it are in bounds.** -/
theorem value_follows (schema : Schema) (hbudget : scan.data.length ≤ scan.budget) (name : String)
    (override : Option Tag) :
    scan.Follows (scan.value schema name override) (schema.read scan.mode name override) := by
  induction schema using Schema.induction generalizing name override with
  | primitive tag =>
      refine value_follows_of_content (fun pos stop => by rw [value]) (fun window => by rw [Schema.read]) ?_
      intro found pos stop hstop hstart hle hend hfind
      refine .bind (.check (primitive_eq hle (hend.trans hstop)) fun error herror => ?_)
        fun value _ => .pure rfl
      · rw [Schema.pos_of_readPrimitive_eq_error herror]
        exact ⟨Nat.le_refl pos, by show pos ≤ stop; omega⟩
  | any =>
      refine value_follows_of_content (fun pos stop => by rw [value]) (fun window => by rw [Schema.read]) ?_
      intro found pos stop hstop hstart hle hend hfind
      rw [slice_eq hle (hend.trans hstop)]
      exact .pure rfl
  | sequence typeName fields ih =>
      refine value_follows_of_content (fun pos stop => by rw [value]) (fun window => by rw [Schema.read]) ?_
      intro found pos stop hstop hstart hle hend hfind
      have hcontent : found.contentEnd ≤ scan.data.length := hend.trans hstop
      refine .ite ?_ (.refuse ⟨Nat.le_refl pos, by show pos ≤ stop; omega⟩)
      -- The one call that a sequence makes is for its fields, between the bounds of its content.
      have hfields : (Run.call .fields found.start found.contentEnd (fun _ => found.contentEnd)
          (scan.fields fields .empty found.start found.contentEnd)).Follows scan found.start
            found.contentEnd (fun call => call.pos = found.start ∧ call.stop = found.contentEnd)
            (Schema.readFields fields scan.mode .empty (.cut scan.data found.start found.contentEnd)) id :=
        .call hle hcontent (fields_follows ih hbudget hle hcontent) (fun _ _ => Nat.le_refl _) (absurd rfl ·)
      refine .bind (hfields.mono (by omega) hend ?_) fun given _ => ?_
      · rintro call ⟨hcall, hcallEnd⟩
        exact ⟨found, hfind, Nat.le_of_eq hcall.symm, hcallEnd⟩
      · rw [slice_eq (by omega) hcontent, Window.before_cut (by omega) hend]
        exact .pure rfl

/-- A scan makes one call itself, that for the value. -/
theorem calls_decode (scan : Scan) (schema : Schema) :
    ∃ root, (scan.decode schema).calls = [root] ∧ root.reader = .value := by
  have hcalls : (scan.decode schema).calls = (scan.value schema schema.name none 0 scan.data.length).calls := by
    show (Run.bind _ _).calls = _
    rw [Run.bind]
    split
    · rename_i result _
      -- Whether the value makes up the whole input is checked without another call.
      have hcheck : (if result.2 = scan.data.length then pure result.1
          else .refuse ⟨.trailingData, result.2⟩ : Run Value).calls = [] := by
        split <;> rfl
      exact (congrArg _ hcheck).trans (List.append_nil _)
    · rfl
  rw [hcalls, value]
  exact ⟨_, rfl, rfl⟩

/-- A scan comes to the result of decoding. -/
theorem decode_follows (scan : Scan) (schema : Schema) (hbudget : scan.data.length ≤ scan.budget) :
    (scan.decode schema).Follows scan 0 scan.data.length
      (fun call => call.pos = 0 ∧ call.stop = scan.data.length) (schema.decode scan.mode scan.data) id := by
  have hvalue := value_follows schema hbudget schema.name none
  have hwhole := hvalue.follows 0 scan.data.length (Nat.zero_le _) (Nat.le_refl _)
  rw [Window.cut_whole] at hwhole
  refine .bind hwhole ?_
  rintro ⟨value, rest⟩ hfound
  rw [← Window.cut_whole] at hfound
  obtain ⟨next, rfl, -, hle⟩ := hvalue.rest_eq (Nat.le_refl _) hfound
  have hempty : (Window.cut scan.data next scan.data.length).isEmpty = true ↔ scan.data.length ≤ next :=
    Window.isEmpty_cut (Nat.le_refl _)
  show (if next = scan.data.length then _ else _ : Run _).Follows _ _ _ _ (if _ then _ else _) _
  by_cases hall : next = scan.data.length
  · rw [if_pos hall, if_pos (hempty.2 (by omega))]
    exact .pure rfl
  · rw [if_neg hall, if_neg (mt hempty.1 (by omega))]
    exact .refuse ⟨Nat.zero_le _, hle⟩

/-- **The cursors of decoding stay in bounds and advance.** With at least as many rounds for a loop as there
    are octets, a scan comes to the result of decoding, so nothing but the data stops it. Every error is
    within the data. It makes one call for the whole input, and all calls below that have their cursors in
    bounds, return one that is two octets further at least, and stay in the content of the value around
    them; so do the calls below them. -/
theorem decode_inBounds (scan : Scan) (schema : Schema) (hbudget : scan.data.length ≤ scan.budget) :
    (scan.decode schema).result = (schema.decode scan.mode scan.data).mapError .refused ∧
      (∀ error, schema.decode scan.mode scan.data = .error error → error.pos ≤ scan.data.length) ∧
      ∃ root, (scan.decode schema).calls = [root] ∧ root.reader = .value ∧ root.pos = 0 ∧
        root.stop = scan.data.length ∧ ∀ call, root.Reaches call → call.InBounds scan ∧
          ∀ other, call.Reaches other → call.pos ≤ other.pos ∧ other.stop ≤ call.stop := by
  have hfollows := scan.decode_follows schema hbudget
  obtain ⟨root, hcalls, hreader⟩ := scan.calls_decode schema
  obtain ⟨⟨hpos, hstop⟩, hsound⟩ := hfollows.calls root (by rw [hcalls]; exact List.mem_singleton_self root)
  refine ⟨?_, fun error herror => (hfollows.error_pos error herror).2, root, hcalls, hreader, hpos, hstop,
    fun call hcall => ⟨hsound call hcall, fun other hother => hother.nested (hsound.of_reaches hcall)⟩⟩
  rw [hfollows.result_eq]
  cases schema.decode scan.mode scan.data <;> rfl

/-- An INTEGER that claims the largest length that eight octets can say. -/
theorem decode_inBounds_largestLength :
    (Scan.decode ⟨[0x30, 0x0A, 0x02, 0x88, 0xFF, 0xFF, 0xFF, 0xFF, 0xFF, 0xFF, 0xFF, 0xFF], .der, 12⟩
        Schema.rsaPublicKey).result = .error (.refused ⟨.lengthOverflow, 2⟩) ∧
      ∃ root, (Scan.decode ⟨[0x30, 0x0A, 0x02, 0x88, 0xFF, 0xFF, 0xFF, 0xFF, 0xFF, 0xFF, 0xFF, 0xFF],
        .der, 12⟩ Schema.rsaPublicKey).calls = [root] ∧ root.stop = 12 := by
  obtain ⟨hresult, -, root, hcalls, -, -, hstop, -⟩ := decode_inBounds
    ⟨[0x30, 0x0A, 0x02, 0x88, 0xFF, 0xFF, 0xFF, 0xFF, 0xFF, 0xFF, 0xFF, 0xFF], .der, 12⟩ Schema.rsaPublicKey
    (by decide)
  have hdecode : Schema.rsaPublicKey.decode .der
      [0x30, 0x0A, 0x02, 0x88, 0xFF, 0xFF, 0xFF, 0xFF, 0xFF, 0xFF, 0xFF, 0xFF] =
        .error ⟨.lengthOverflow, 2⟩ := by
    cbv
  refine ⟨?_, root, hcalls, hstop⟩
  rw [hresult]
  show Except.mapError _ (Schema.rsaPublicKey.decode .der _) = _
  rw [hdecode]
  rfl

end Scan

end Asn1
