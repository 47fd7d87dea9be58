import Asn1.Schema

/-!
# `Asn1.Schema.Ambiguity` — optional fields that cannot be told apart

Decoding does not backtrack: an optional field is skipped if the next value has another tag. So an
optional field must not share a tag with a field that may come in its place. A field that may have any
tag can only be optional if it is the last one.

## Contents
- **One field.** `Field.isAmbiguous` compares an optional field with those that follow it, up to and
  including the first required one.
- **Whole types.** `Schema.ambiguousField?` finds the first such field, looking into nested sequences
  before the field that holds them.
-/

namespace Asn1

/-- Whether one of the fields that may come in place of a field with the given tags shares a tag with it.
    The first required field is the last of them. -/
def Field.clashes (tags : List Tag) : List (Field Schema) → Bool
  | [] => false
  | next :: rest =>
    match next.outerTags? with
    | none => true
    | some nextTags => nextTags.any (tags.contains ·) || (next.optional && clashes tags rest)

/-- Whether the field is optional and may be mistaken for one of the fields that follow it. -/
def Field.isAmbiguous (field : Field Schema) (following : List (Field Schema)) : Bool :=
  field.optional &&
    match field.outerTags? with
    | none => !following.isEmpty
    | some tags => Field.clashes tags following

mutual

/-- The name of the first field, at any depth, that cannot be told apart from what follows it. -/
def Schema.ambiguousField? (schema : Schema) : Option String :=
  match schema with
  | .primitive _ => none
  | .any => none
  | .sequence _ fields => Field.firstAmbiguous? fields
termination_by sizeOf schema

/-- The name of the first ambiguous field in a list of fields or in one of their types. -/
def Field.firstAmbiguous? (fields : List (Field Schema)) : Option String :=
  match fields with
  | [] => none
  | field :: rest =>
    (field.type.types.attach.findSome? fun ⟨type, _⟩ => type.ambiguousField?).or
      ((if field.isAmbiguous rest then some field.name else none).or
        (Field.firstAmbiguous? rest))
termination_by sizeOf fields
decreasing_by
  · rename_i hmem
    have := Field.sizeOf_lt_of_mem_types hmem
    simp only [List.cons.sizeOf_spec]
    omega
  · simp only [List.cons.sizeOf_spec]
    omega

end

end Asn1
