import Asn1.Header
import Asn1.Schema

/-!
# `Asn1.Schema.Encode` — the encoding of values

Encoding takes two passes, since a header needs the length of what follows it. The first counts octets,
the second writes them. Both check the value against the schema.

## Contents
- **Parts.** What both passes look up: the identifier of a value, the value and type of a field, the items
  of a repetition.
- **Length pass.** `Schema.encodedLen` and its counterparts for content and fields.
- **Writing pass.** `Schema.write` and its counterparts, which take the lengths for headers from the first
  pass. The result is always DER.
- **Encoding.** `Schema.encode` runs one after the other.
-/

namespace Asn1

/-! ## Parts -/

namespace Schema

/-- The identifier octets of a value. A tag that is given replaces the natural one. Where any type is
    allowed, a primitive value has the tag of its own type. -/
def identifier (schema : Schema) (name : String) (override : Option Tag) (value : Value) :
    Except EncodeError Identifier :=
  match schema with
  | primitive tag => .ok ⟨override.getD tag, false⟩
  | sequence _ _ => .ok ⟨override.getD .sequence, true⟩
  | any =>
    match value with
    | .any ⟨tag, constructed, _⟩ => .ok ⟨override.getD tag, constructed⟩
    | _ =>
      match value.primitiveTag? with
      | some tag => .ok ⟨override.getD tag, false⟩
      | none => .error (.typeMismatch name)

/-- Whether all fields of a sequence are known to its type. -/
def knowsFields (fields : List (Field Schema)) (given : Sequence Value) : Bool :=
  given.names.all fun name => fields.any (·.name == name)

end Schema

namespace Field

variable {σ : Type}

/-- The value and type of a field in a sequence, or nothing if an optional field is absent. The type of a
    selected field may depend on any other field of the sequence. -/
def lookup (field : Field σ) (given : Sequence Value) :
    Except EncodeError (Option (Value × σ)) :=
  match given.get? field.name with
  | none => if field.optional then .ok none else .error (.missingRequiredField field.name)
  | some value =>
    match field.resolve? given with
    | some type => .ok (some (value, type))
    | none => .error (.unsupportedSelectorValue field.name)

/-- The tag and items of a repetition, or nothing if the field holds a single value. -/
def items (field : Field σ) (value : Value) : Except EncodeError (Option (Tag × List Value)) :=
  match field.repetition, value with
  | .single, _ => .ok none
  | .setOf, .setOf items => .ok (some (.set, items))
  | .sequenceOf, .sequenceOf items => .ok (some (.sequence, items))
  | _, _ => .error (.typeMismatch field.name)

/-- A type found by `lookup` is smaller than the field. -/
theorem sizeOf_lt_of_lookup [SizeOf σ] {field : Field σ} {given : Sequence Value} {value : Value}
    {type : σ} (h : field.lookup given = .ok (some (value, type))) :
    sizeOf type < sizeOf field := by
  unfold lookup at h
  split at h
  · split at h <;> simp at h
  · split at h
    · rename_i hresolve
      simp only [Except.ok.injEq, Option.some.injEq, Prod.mk.injEq] at h
      exact h.2 ▸ sizeOf_lt_of_resolve? hresolve
    · simp at h

end Field

/-! ## Length pass -/

/-- The length of a constructed value with the given tag and content length, header included. -/
def Header.wrappedLen (tag : Tag) (length : Nat) : Nat :=
  (Header.ofConstructed tag length).encodedLen + length

/-- The total length of items. -/
def itemsLen (item : Value → Except EncodeError Nat) : List Value → Except EncodeError Nat
  | [] => .ok 0
  | value :: rest => do
    let first ← item value
    let others ← itemsLen item rest
    return first + others

namespace Field

variable {σ : Type}

/-- The encoded length of the value or repetition of a field. -/
def repeatedLen (field : Field σ) (item : Option Tag → Value → Except EncodeError Nat)
    (override : Option Tag) (value : Value) : Except EncodeError Nat := do
  match ← field.items value with
  | none => item override value
  | some (outer, items) =>
    let length ← itemsLen (item none) items
    return Header.wrappedLen (override.getD outer) length

/-- The encoded length of a field with the given value. -/
def encodedLen (field : Field σ) (item : Option Tag → Value → Except EncodeError Nat)
    (value : Value) : Except EncodeError Nat :=
  match field.tagging with
  | none => field.repeatedLen item none value
  | some ⟨.implicit, tag⟩ => field.repeatedLen item (some tag) value
  | some ⟨.explicit, tag⟩ => do
    let length ← field.repeatedLen item none value
    return Header.wrappedLen tag length

end Field

namespace Schema

/-- The content length of a value of the primitive type with the given tag. -/
def primitiveLen (tag : Tag) (name : String) (value : Value) : Except EncodeError Nat :=
  match (PrimitiveType.ofTag? tag).bind (·.contentLen? value) with
  | some length => .ok length
  | none => .error (.typeMismatch name)

mutual

/-- The encoded length of a value, header included. -/
def encodedLen (schema : Schema) (name : String) (override : Option Tag) (value : Value) :
    Except EncodeError Nat := do
  let identifier ← schema.identifier name override value
  let length ← schema.contentLen name value
  return Header.encodedLen ⟨identifier, .definite length⟩ + length
termination_by 2 * sizeOf schema + 1

/-- The length of the content octets of a value. -/
def contentLen (schema : Schema) (name : String) (value : Value) : Except EncodeError Nat :=
  match schema with
  | primitive tag => primitiveLen tag name value
  | any =>
    match value with
    | .any ⟨_, _, content⟩ => .ok content.length
    | _ =>
      match value.primitiveTag? with
      | some tag => primitiveLen tag name value
      | none => .error (.typeMismatch name)
  | sequence typeName fields =>
    match value.asSequence? with
    | none => .error (.typeMismatch typeName)
    | some given =>
      if knowsFields fields given then fieldsLen fields given
      else .error (.typeMismatch typeName)
termination_by 2 * sizeOf schema

/-- The total encoded length of the fields of a sequence. -/
def fieldsLen (fields : List (Field Schema)) (given : Sequence Value) :
    Except EncodeError Nat :=
  match fields with
  | [] => .ok 0
  | field :: rest =>
    match _h : field.lookup given with
    | .error error => .error error
    | .ok none => fieldsLen rest given
    | .ok (some (value, type)) => do
      let first ← field.encodedLen (type.encodedLen field.name) value
      let others ← fieldsLen rest given
      return first + others
termination_by 2 * sizeOf fields
decreasing_by
  all_goals simp only [List.cons.sizeOf_spec]
  · omega
  · have := Field.sizeOf_lt_of_lookup _h
    omega
  · omega

end

end Schema

/-! ## Writing pass -/

/-- The encodings of items in order. -/
def writeItems (item : Value → Except EncodeError Octets) : List Value → Except EncodeError Octets
  | [] => .ok []
  | value :: rest => do
    let first ← item value
    let others ← writeItems item rest
    return first ++ others

namespace Field

variable {σ : Type}

/-- The encoding of the value or repetition of a field. Items keep their order. -/
def writeRepeated (field : Field σ) (itemLen : Option Tag → Value → Except EncodeError Nat)
    (item : Option Tag → Value → Except EncodeError Octets) (override : Option Tag) (value : Value) :
    Except EncodeError Octets := do
  match ← field.items value with
  | none => item override value
  | some (outer, items) =>
    let length ← itemsLen (itemLen none) items
    let content ← writeItems (item none) items
    return (Header.ofConstructed (override.getD outer) length).octets ++ content

/-- The encoding of a field with the given value. -/
def write (field : Field σ) (itemLen : Option Tag → Value → Except EncodeError Nat)
    (item : Option Tag → Value → Except EncodeError Octets) (value : Value) :
    Except EncodeError Octets :=
  match field.tagging with
  | none => field.writeRepeated itemLen item none value
  | some ⟨.implicit, tag⟩ => field.writeRepeated itemLen item (some tag) value
  | some ⟨.explicit, tag⟩ => do
    let length ← field.repeatedLen itemLen none value
    let content ← field.writeRepeated itemLen item none value
    return (Header.ofConstructed tag length).octets ++ content

end Field

namespace Schema

/-- The content octets of a value of the primitive type with the given tag. -/
def writePrimitive (tag : Tag) (name : String) (value : Value) : Except EncodeError Octets :=
  match (PrimitiveType.ofTag? tag).bind (·.content? value) with
  | some content => .ok content
  | none => .error (.typeMismatch name)

mutual

/-- The encoding of a value, header included. -/
def write (schema : Schema) (name : String) (override : Option Tag) (value : Value) :
    Except EncodeError Octets := do
  let identifier ← schema.identifier name override value
  let length ← schema.contentLen name value
  let content ← schema.writeContent name value
  return Header.octets ⟨identifier, .definite length⟩ ++ content
termination_by 2 * sizeOf schema + 1

/-- The content octets of a value. -/
def writeContent (schema : Schema) (name : String) (value : Value) : Except EncodeError Octets :=
  match schema with
  | primitive tag => writePrimitive tag name value
  | any =>
    match value with
    | .any ⟨_, _, content⟩ => .ok content
    | _ =>
      match value.primitiveTag? with
      | some tag => writePrimitive tag name value
      | none => .error (.typeMismatch name)
  | sequence typeName fields =>
    match value.asSequence? with
    | none => .error (.typeMismatch typeName)
    | some given => writeFields fields given
termination_by 2 * sizeOf schema

/-- The encodings of the fields of a sequence in the order of the type. -/
def writeFields (fields : List (Field Schema)) (given : Sequence Value) :
    Except EncodeError Octets :=
  match fields with
  | [] => .ok []
  | field :: rest =>
    match _h : field.lookup given with
    | .error error => .error error
    | .ok none => writeFields rest given
    | .ok (some (value, type)) => do
      let first ← field.write (type.encodedLen field.name) (type.write field.name) value
      let others ← writeFields rest given
      return first ++ others
termination_by 2 * sizeOf fields
decreasing_by
  all_goals simp only [List.cons.sizeOf_spec]
  · omega
  · have := Field.sizeOf_lt_of_lookup _h
    omega
  · omega

end

/-! ## Encoding -/

/-- The DER encoding of a value of the type. It fails exactly as the length pass does. -/
def encode (schema : Schema) (value : Value) : Except EncodeError Octets := do
  let _ ← schema.encodedLen schema.name none value
  schema.write schema.name none value

end Schema

end Asn1
