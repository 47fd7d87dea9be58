import Asn1.PrimitiveType

/-!
# `Asn1.Schema` — descriptions of types

A schema says how values of a type are encoded. Decoding and encoding interpret it.

## Contents
- **Schema.** A primitive type, any value at all, or a SEQUENCE of named fields.
- **Fields.** A field may be optional, tagged, or a repetition of its type. Its type is fixed or selected
  by the object identifier in another field of the sequence.
- **Resolution.** `Field.resolve?` finds the type of a field from the fields known so far. A type found is
  part of the field, which is what recursion over schemas rests on.
- **Outer tags.** `Field.outerTag?` is the tag that the encoding of a field starts with.
-/

namespace Asn1

/-! ## The types -/

/-- How the tag of a field is written. -/
inductive TaggingMode where
  /-- The tag replaces that of the value. -/
  | implicit
  /-- The value is wrapped into a constructed value with the tag. -/
  | explicit
deriving DecidableEq

/-- A tag given to a field. -/
structure Tagging where
  mode : TaggingMode
  tag : Tag
deriving DecidableEq

/-- Whether a field holds a single value or any number of them. -/
inductive Repetition where
  | single
  | setOf
  | sequenceOf
deriving DecidableEq

/-- Selects a type by the object identifier in another field of the sequence. -/
structure Selector (σ : Type) where
  /-- The name of the field that holds the identifier. -/
  field : String
  /-- The identifiers with a type of their own. -/
  choices : List (Oid × σ)
  /-- The type for all other identifiers, and where there is none. -/
  default : Option σ

/-- The type of a field. -/
inductive FieldType (σ : Type) where
  /-- The type is always the same. -/
  | fixed (type : σ)
  /-- The type depends on the value of another field. -/
  | selected (selector : Selector σ)

/-- A field of a sequence. -/
structure Field (σ : Type) where
  name : String
  type : FieldType σ
  /-- The tag of the field, if it is not the natural one of its type. -/
  tagging : Option Tagging := none
  /-- Whether the field may be absent. -/
  optional : Bool := false
  repetition : Repetition := .single

/-- The description of a type. -/
inductive Schema where
  /-- The primitive type with the given universal tag. -/
  | primitive (tag : Tag)
  /-- Any value at all. -/
  | any
  /-- A SEQUENCE with the given fields. -/
  | sequence (name : String) (fields : List (Field Schema))

instance : Inhabited Schema := ⟨.any⟩

/-! ## Resolution -/

namespace Selector

/-- The type selected by the fields known so far: that of the first choice with the identifier in the
    field referred to, and the default if there is no such choice. -/
def select? {σ : Type} (selector : Selector σ) (siblings : Sequence Value) : Option σ :=
  match (siblings.get? selector.field).bind Value.asOid? with
  | some oid => (selector.choices.lookup oid).or selector.default
  | none => selector.default

/-- All types that may be selected. -/
def types {σ : Type} (selector : Selector σ) : List σ :=
  selector.choices.map (·.2) ++ selector.default.toList

end Selector

namespace FieldType

/-- All types that the field may have. -/
def types {σ : Type} : FieldType σ → List σ
  | fixed type => [type]
  | selected selector => selector.types

end FieldType

namespace Field

/-- The type of the field, given the fields known so far. -/
def resolve? {σ : Type} (field : Field σ) (siblings : Sequence Value) : Option σ :=
  match field.type with
  | .fixed type => some type
  | .selected selector => selector.select? siblings

end Field

/-! ## Types found are parts of the field -/

theorem Selector.select?_mem {σ : Type} {selector : Selector σ} {siblings : Sequence Value} {type : σ}
    (h : selector.select? siblings = some type) : type ∈ selector.types := by
  have hdefault : selector.default = some type → type ∈ selector.types := by
    intro h
    simp [types, h]
  unfold select? at h
  split at h
  · rename_i oid _
    cases hlookup : selector.choices.lookup oid with
    | none => exact hdefault (by simpa [hlookup] using h)
    | some found =>
      have hfound : found = type := by simpa [hlookup] using h
      subst hfound
      obtain ⟨before, after, hchoices, _⟩ := List.lookup_eq_some_iff.1 hlookup
      simp [types, hchoices]
  · exact hdefault h

/-- A type that a field resolves to is one of those it may have. -/
theorem Field.resolve?_mem {σ : Type} {field : Field σ} {siblings : Sequence Value} {type : σ}
    (h : field.resolve? siblings = some type) : type ∈ field.type.types := by
  unfold resolve? at h
  split at h
  · rename_i heq
    simp_all [FieldType.types]
  · rename_i heq
    simpa [FieldType.types, heq] using Selector.select?_mem h

theorem Selector.sizeOf_lt_of_mem_types {σ : Type} [SizeOf σ] {selector : Selector σ} {type : σ}
    (h : type ∈ selector.types) : sizeOf type < sizeOf selector := by
  obtain ⟨field, choices, default⟩ := selector
  simp only [types, List.mem_append, List.mem_map, Option.mem_toList] at h
  simp only [mk.sizeOf_spec]
  rcases h with ⟨⟨oid, found⟩, hmem, rfl⟩ | h
  · have := List.sizeOf_lt_of_mem hmem
    simp only [Prod.mk.sizeOf_spec] at this
    show sizeOf found < _
    omega
  · subst h
    simp only [Option.some.sizeOf_spec]
    omega

/-- A type that a field may have is smaller than the field. -/
theorem Field.sizeOf_lt_of_mem_types {σ : Type} [SizeOf σ] {field : Field σ} {type : σ}
    (h : type ∈ field.type.types) : sizeOf type < sizeOf field := by
  obtain ⟨name, fieldType, tagging, optional, repetition⟩ := field
  simp only [mk.sizeOf_spec]
  cases fieldType with
  | fixed fixedType =>
    simp only [FieldType.types, List.mem_singleton] at h
    subst h
    simp only [FieldType.fixed.sizeOf_spec]
    omega
  | selected selector =>
    have := Selector.sizeOf_lt_of_mem_types h
    simp only [FieldType.selected.sizeOf_spec]
    omega

/-- A type that a field resolves to is smaller than the field. -/
theorem Field.sizeOf_lt_of_resolve? {σ : Type} [SizeOf σ] {field : Field σ} {siblings : Sequence Value}
    {type : σ} (h : field.resolve? siblings = some type) : sizeOf type < sizeOf field :=
  sizeOf_lt_of_mem_types (resolve?_mem h)

/-! ## Names and tags -/

namespace Schema

/-- The name of the type for use in errors. -/
def name : Schema → String
  | primitive tag =>
    match PrimitiveType.ofTag? tag with
    | some type => type.name
    | none => "unknown primitive"
  | any => "ANY"
  | sequence name _ => name

/-- The tag of the type if nothing else is said. A value of any type may have every tag. -/
def naturalTag? : Schema → Option Tag
  | primitive tag => some tag
  | any => none
  | sequence _ _ => some .sequence

end Schema

/-- The tag of a repetition as a whole. -/
def Repetition.tag? : Repetition → Option Tag
  | single => none
  | setOf => some .set
  | sequenceOf => some .sequence

namespace Field

/-- The tag that the encoding of the field starts with if it has the given type, unless it may start with
    every tag. -/
def outerTag? (field : Field Schema) (type : Schema) : Option Tag :=
  match field.tagging with
  | some tagging => some tagging.tag
  | none => field.repetition.tag?.or type.naturalTag?

/-- All tags that the encoding of the field may start with, unless it may start with every tag. -/
def outerTags? (field : Field Schema) : Option (List Tag) :=
  field.type.types.mapM field.outerTag?

end Field

end Asn1
