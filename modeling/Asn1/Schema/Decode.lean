import Asn1.Header
import Asn1.Schema

/-!
# `Asn1.Schema.Decode` — values from their encoding

Decoding reads one value after the other from the front of a window and hands on what is left. It never
backtracks: the tag of the next value decides whether an optional field is there.

## Contents
- **Items.** `readItems` reads values until a window is used up.
- **Fields.** `Field.readRepeated` adds the repetition of a field to a reader for its type, and
  `Field.read` the tagging.
- **Types.** `Schema.read` reads a value of a type, `Schema.readFields` the fields of a sequence.
  `Schema.decode` reads a value that has to make up the whole input.
-/

namespace Asn1

/-- Reads a value from the front of a window. A tag that is given replaces the outermost one. -/
abbrev ValueReader := Option Tag → Window → Except DecodeError (Value × Window)

/-! ## Items -/

/-- Reads items until the window is used up. Every item takes at least two octets, so a budget of as many
    items as there are octets is never the reason to stop. -/
def readItems (item : Window → Except DecodeError (Value × Window)) :
    (budget : Nat) → Window → Except DecodeError (List Value)
  | 0, window => if window.isEmpty then .ok [] else .error ⟨.trailingData, window.pos⟩
  | budget + 1, window =>
    if window.isEmpty then .ok []
    else do
      let (value, window) ← item window
      let values ← readItems item budget window
      return value :: values

/-! ## Fields -/

/-- Splits off a constructed value with the given tag, whose absence is reported under `name`. -/
def Element.takeConstructed (mode : Mode) (tag : Tag) (name : String) (window : Window) :
    Except DecodeError Element := do
  let element ← Element.take mode window
  if element.header.tag ≠ tag then .error ⟨.missingRequiredField name, window.pos⟩
  else if element.header.constructed then .ok element
  else .error (.content .primitiveEncoding window.pos)

namespace Field

variable {σ : Type}

/-- Reads the value or repetition of a field. A tag that is given replaces the outermost one, which is
    that of the repetition if there is one. -/
def readRepeated (field : Field σ) (mode : Mode) (item : ValueReader) : ValueReader :=
  fun override window =>
    let items (outer : Tag) : Except DecodeError (List Value × Window) := do
      let element ← Element.takeConstructed mode (override.getD outer) field.name window
      let values ← readItems (item none) element.content.octets.length element.content
      return (values, element.rest)
    match field.repetition with
    | .single => item override window
    | .setOf => do
      let (values, rest) ← items .set
      return (.setOf values, rest)
    | .sequenceOf => do
      let (values, rest) ← items .sequence
      return (.sequenceOf values, rest)

/-- Reads a field that is known to be there. The wrapper of an explicit tag holds exactly one value. -/
def read (field : Field σ) (mode : Mode) (item : ValueReader) (window : Window) :
    Except DecodeError (Value × Window) :=
  match field.tagging with
  | none => field.readRepeated mode item none window
  | some ⟨.implicit, tag⟩ => field.readRepeated mode item (some tag) window
  | some ⟨.explicit, tag⟩ => do
    let element ← Element.takeConstructed mode tag field.name window
    if element.content.isEmpty then .error ⟨.truncated, element.content.pos⟩
    else do
      let (value, left) ← field.readRepeated mode item none element.content
      if left.isEmpty then .ok (value, element.rest) else .error ⟨.trailingData, left.pos⟩

end Field

/-! ## Types -/

/-- The value of unknown type that an element holds. -/
def AnyValue.ofElement (element : Element) : AnyValue :=
  ⟨element.header.tag, element.header.constructed, element.content.octets⟩

namespace Schema

/-- Whether the value at the front of the window belongs to the field: always if it may have every tag,
    else if it has the right one. -/
def isPresent (mode : Mode) (expected : Option Tag) (window : Window) : Except DecodeError Bool :=
  match expected with
  | none => .ok true
  | some tag => do
    let (header, _) ← Header.take mode window
    return header.tag == tag

/-- Reads the content of a value of a primitive type. Errors are reported at `pos`. -/
def readPrimitive (mode : Mode) (tag : Tag) (element : Element) (pos : Nat) :
    Except DecodeError Value :=
  if element.header.constructed then .error (.content .constructedUnsupported pos)
  else
    match PrimitiveType.ofTag? tag with
    | none => .error (.content .unsupportedPrimitive pos)
    | some type =>
      match type.decode mode element.content.octets with
      | .ok value => .ok value
      | .error error => .error (.content error pos)

mutual

/-- Reads a value of the type. A tag that is given replaces the natural one; if the tag of the value
    differs, the value is reported missing under `name`. A sequence captures its complete encoding. -/
def read (schema : Schema) (mode : Mode) (name : String) (override : Option Tag) (window : Window) :
    Except DecodeError (Value × Window) := do
  let element ← Element.take mode window
  if (override.or schema.naturalTag?).all (· == element.header.tag) then
    match schema with
    | primitive tag => do
      let value ← readPrimitive mode tag element window.pos
      return (value, element.rest)
    | any => .ok (.any (.ofElement element), element.rest)
    | sequence _ fields =>
      if element.header.constructed then do
        let value ← readFields fields mode .empty element.content
        return (.sequence (value.capture (window.before element.rest)), element.rest)
      else .error (.content .primitiveEncoding window.pos)
  else .error ⟨.missingRequiredField name, window.pos⟩
termination_by sizeOf schema

/-- Reads fields up to the end of the window and appends them to those read so far. -/
def readFields (fields : List (Field Schema)) (mode : Mode) (known : Sequence Value)
    (window : Window) : Except DecodeError (Sequence Value) :=
  match fields with
  | [] => if window.isEmpty then .ok known else .error ⟨.trailingData, window.pos⟩
  | field :: rest =>
    if window.isEmpty then
      if field.optional then readFields rest mode known window
      else .error ⟨.truncated, window.pos⟩
    else
      match _h : field.resolve? known with
      | none => .error ⟨.unsupportedSelectorValue field.name, window.pos⟩
      | some type => do
        if ← isPresent mode (field.outerTag? type) window then
          let (value, window) ← field.read mode (type.read mode field.name) window
          readFields rest mode (known.push field.name value) window
        else if field.optional then readFields rest mode known window
        else .error ⟨.missingRequiredField field.name, window.pos⟩
termination_by sizeOf fields
decreasing_by
  all_goals simp only [List.cons.sizeOf_spec]
  · omega
  · have := Field.sizeOf_lt_of_resolve? _h
    omega
  · omega
  · omega

end

/-- Reads a value of the type that makes up the whole input. It has its natural tag. -/
def decode (schema : Schema) (mode : Mode) (data : Octets) : Except DecodeError Value := do
  let (value, rest) ← schema.read mode schema.name none (.whole data)
  if rest.isEmpty then .ok value else .error ⟨.trailingData, rest.pos⟩

end Schema

end Asn1
