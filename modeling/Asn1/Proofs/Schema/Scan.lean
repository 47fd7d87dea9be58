import Asn1.Schema.Decode

/-!
# `Asn1.Proofs.Schema.Scan` — decoding with cursors into the whole input

Decoding can also be done without windows: all readers share the whole input, and are told where the next
value starts and where the content around it stops. Nothing keeps such cursors in bounds but the way they are
computed. A scan is decoding in this style. It checks every subtraction and every slice as it goes, counts the
rounds of its loops, and records which reader called which one with which cursors.

## Contents
- **Calls.** A `Call` is a node in the tree of calls; a `Run` is a result with the calls made for it.
- **Cursors.** `Scan.remaining` and `Scan.slice` are the two checked operations; `Scan.find` says where the
  content of a value is.
- **Readers.** `Scan.items`, `Scan.repetition`, `Scan.field`, `Scan.fields` and `Scan.value`;
  `Scan.decode` for whole inputs.
-/

namespace Asn1

/-! ## Calls -/

/-- The readers that hand cursors to each other. -/
inductive Reader where
  /-- Reads a value of a type. -/
  | value
  /-- Reads the fields of a sequence from its content. -/
  | fields
  /-- Reads a field that is known to be there. -/
  | field
  /-- Reads the value or repetition of a field. -/
  | repetition
deriving DecidableEq

/-- Why a scan comes to no result. -/
inductive Interruption where
  /-- The data are refused. -/
  | refused (error : DecodeError)
  /-- A cursor is past its stop where their difference is needed. -/
  | underflow
  /-- A slice is not part of the input. -/
  | outOfRange
  /-- A loop takes more rounds than it has. -/
  | exhausted
deriving DecidableEq

/-- A call of a reader: its cursors, the cursor that it returns, and the calls it makes itself. -/
structure Call where
  reader : Reader
  pos : Nat
  stop : Nat
  outcome : Except Interruption Nat
  inner : List Call

/-- A result and the calls made on the way to it. -/
structure Run (α : Type) where
  calls : List Call
  result : Except Interruption α

namespace Run

variable {α β : Type}

/-- A result for which no calls are made. -/
def ofExcept (result : Except Interruption α) : Run α := ⟨[], result⟩

/-- Refuses the data. -/
def refuse (error : DecodeError) : Run α := .ofExcept (.error (.refused error))

/-- Goes on with the result, if there is one. -/
def bind (run : Run α) (next : α → Run β) : Run β :=
  match run.result with
  | .ok value => ⟨run.calls ++ (next value).calls, (next value).result⟩
  | .error interruption => ⟨run.calls, .error interruption⟩

instance : Monad Run where
  pure value := .ofExcept (.ok value)
  bind := bind

/-- Records a call around all calls made in its body. The cursor it returns is that reached by its result. -/
def call (reader : Reader) (pos stop : Nat) (reached : α → Nat) (body : Run α) : Run α :=
  ⟨[⟨reader, pos, stop, body.result.map reached, body.calls⟩], body.result⟩

end Run

/-- The input and how to read it, with a budget of rounds for each loop. -/
structure Scan where
  data : Octets
  mode : Mode
  budget : Nat

/-- Reads a value between two cursors and returns the one right after it. A tag that is given replaces the
    outermost one. -/
abbrev CursorReader := Option Tag → (pos stop : Nat) → Run (Value × Nat)

namespace Scan

/-! ## Cursors -/

/-- How many octets there are between two cursors. -/
def remaining (pos stop : Nat) : Except Interruption Nat :=
  if pos ≤ stop then .ok (stop - pos) else .error .underflow

/-- The octets of the input between two cursors. -/
def slice (scan : Scan) (pos stop : Nat) : Except Interruption Octets :=
  if pos ≤ stop ∧ stop ≤ scan.data.length then .ok ((scan.data.drop pos).take (stop - pos))
  else .error .outOfRange

/-- Reads the header of the value at a cursor, and how many octets it takes. -/
def header (scan : Scan) (pos stop : Nat) : Except Interruption (Header × Nat) := do
  let available ← remaining pos stop
  (Header.read scan.mode scan.data pos available).mapError .refused

/-- A value found at a cursor: its header, and where its content starts and ends. -/
structure Found where
  header : Header
  start : Nat
  contentEnd : Nat
deriving DecidableEq

/-- Finds the value at a cursor. -/
def find (scan : Scan) (pos stop : Nat) : Except Interruption Found := do
  let (header, headerLen) ← scan.header pos stop
  match header.length with
  | .definite length => .ok ⟨header, pos + headerLen, pos + headerLen + length⟩
  | .indefinite => .error (.refused (.content .indefiniteUnsupported pos))

/-- Finds a constructed value with the given tag, whose absence is reported under `name`. -/
def findConstructed (scan : Scan) (tag : Tag) (name : String) (pos stop : Nat) :
    Except Interruption Found := do
  let found ← scan.find pos stop
  if found.header.tag ≠ tag then .error (.refused ⟨.missingRequiredField name, pos⟩)
  else if found.header.constructed then .ok found
  else .error (.refused (.content .primitiveEncoding pos))

/-- Whether the value at a cursor belongs to a field with the given outer tag. -/
def isPresent (scan : Scan) (expected : Option Tag) (pos stop : Nat) : Except Interruption Bool :=
  match expected with
  | none => .ok true
  | some tag => do
    let (header, _) ← scan.header pos stop
    return header.tag == tag

/-- Reads the content of a value of a primitive type that starts at `pos`. -/
def primitive (scan : Scan) (tag : Tag) (found : Found) (pos : Nat) : Except Interruption Value := do
  let content ← scan.slice found.start found.contentEnd
  let element : Element := ⟨found.header, ⟨found.start, content⟩, ⟨found.contentEnd, []⟩⟩
  (Schema.readPrimitive scan.mode tag element pos).mapError .refused

/-! ## Readers -/

/-- Reads items from one cursor to the next until the content ends. -/
def items (item : (pos stop : Nat) → Run (Value × Nat)) :
    (budget pos stop : Nat) → Run (List Value)
  | 0, pos, stop => if pos < stop then .ofExcept (.error .exhausted) else pure []
  | budget + 1, pos, stop =>
    if pos < stop then do
      let (value, next) ← item pos stop
      let values ← items item budget next stop
      return value :: values
    else pure []

/-- Reads the items of a repetition with the given tag. -/
def repeated (scan : Scan) (tag : Tag) (name : String) (item : (pos stop : Nat) → Run (Value × Nat))
    (pos stop : Nat) : Run (List Value × Nat) := do
  let found ← .ofExcept (scan.findConstructed tag name pos stop)
  let values ← items item scan.budget found.start found.contentEnd
  return (values, found.contentEnd)

variable {σ : Type}

/-- Reads the value or repetition of a field. -/
def repetition (scan : Scan) (field : Field σ) (item : CursorReader) (override : Option Tag)
    (pos stop : Nat) : Run (Value × Nat) :=
  .call .repetition pos stop (·.2) <|
    match field.repetition with
    | .single => item override pos stop
    | .setOf => do
      let (values, next) ← scan.repeated (override.getD .set) field.name (item none) pos stop
      return (.setOf values, next)
    | .sequenceOf => do
      let (values, next) ← scan.repeated (override.getD .sequence) field.name (item none) pos stop
      return (.sequenceOf values, next)

/-- Reads a field that is known to be there. -/
def field (scan : Scan) (field : Field σ) (item : CursorReader) (pos stop : Nat) : Run (Value × Nat) :=
  .call .field pos stop (·.2) <|
    match field.tagging with
    | none => scan.repetition field item none pos stop
    | some ⟨.implicit, tag⟩ => scan.repetition field item (some tag) pos stop
    | some ⟨.explicit, tag⟩ => do
      let found ← .ofExcept (scan.findConstructed tag field.name pos stop)
      if found.start = found.contentEnd then .refuse ⟨.truncated, found.start⟩
      else
        let (value, next) ← scan.repetition field item none found.start found.contentEnd
        if next = found.contentEnd then return (value, found.contentEnd)
        else .refuse ⟨.trailingData, next⟩

mutual

/-- Reads a value of the type. -/
def value (scan : Scan) (schema : Schema) (name : String) (override : Option Tag) (pos stop : Nat) :
    Run (Value × Nat) :=
  .call .value pos stop (·.2) <| do
    let found ← .ofExcept (scan.find pos stop)
    if (override.or schema.naturalTag?).all (· == found.header.tag) then
      match schema with
      | .primitive tag => do
        let value ← .ofExcept (scan.primitive tag found pos)
        return (value, found.contentEnd)
      | .any => do
        let content ← .ofExcept (scan.slice found.start found.contentEnd)
        return (.any ⟨found.header.tag, found.header.constructed, content⟩, found.contentEnd)
      | .sequence _ fields =>
        if found.header.constructed then do
          let given ← .call .fields found.start found.contentEnd (fun _ => found.contentEnd)
            (scan.fields fields .empty found.start found.contentEnd)
          let octets ← .ofExcept (scan.slice pos found.contentEnd)
          return (.sequence (given.capture octets), found.contentEnd)
        else .refuse (.content .primitiveEncoding pos)
    else .refuse ⟨.missingRequiredField name, pos⟩
termination_by sizeOf schema

/-- Reads fields up to the end of the content and appends them to those read so far. -/
def fields (scan : Scan) (fields : List (Field Schema)) (known : Sequence Value) (pos stop : Nat) :
    Run (Sequence Value) :=
  match fields with
  | [] => if pos = stop then pure known else .refuse ⟨.trailingData, pos⟩
  | field :: rest =>
    if stop ≤ pos then
      if field.optional then scan.fields rest known pos stop
      else .refuse ⟨.truncated, pos⟩
    else
      match _h : field.resolve? known with
      | none => .refuse ⟨.unsupportedSelectorValue field.name, pos⟩
      | some type => do
        if ← .ofExcept (scan.isPresent (field.outerTag? type) pos stop) then
          let (value, next) ← scan.field field (scan.value type field.name) pos stop
          scan.fields rest (known.push field.name value) next stop
        else if field.optional then scan.fields rest known pos stop
        else .refuse ⟨.missingRequiredField field.name, pos⟩
termination_by sizeOf fields
decreasing_by
  all_goals simp only [List.cons.sizeOf_spec]
  · omega
  · have := Field.sizeOf_lt_of_resolve? _h
    omega
  · omega
  · omega

end

/-- Reads a value of the type that makes up the whole input. -/
def decode (scan : Scan) (schema : Schema) : Run Value := do
  let (value, next) ← scan.value schema schema.name none 0 scan.data.length
  if next = scan.data.length then return value else .refuse ⟨.trailingData, next⟩

end Scan

end Asn1
