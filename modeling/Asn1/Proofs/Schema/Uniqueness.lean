import Asn1.Proofs.Schema.Unambiguous

/-!
# `Asn1.Proofs.Schema.Uniqueness` — octets have at most one value

Where no field is ambiguous, the grammar proper leaves nothing to choose: two derivations of the same octets
pass over the same fields and give the same value. This holds whether or not a selector finds a type for the
fields that are passed over.

## Contents
- **Items.** Values that are framed can be told apart in a row, so a repetition has one list of items.
- **Fields.** A field that can be passed over is not there. With it, `Schema.DerivesFields.unique`.
- **Types.** `Schema.Derives.unique` by induction over the types.
-/

namespace Asn1

/-! ## Items -/

/-- The octets are a value of some kind. -/
def IsFramed (mode : Mode) (octets : Octets) : Prop :=
  ∃ identifier content, Framed mode identifier content octets

theorem StartsWith.isFramed {mode : Mode} {expected : Option Tag} {octets : Octets}
    (h : StartsWith mode expected octets) : IsFramed mode octets := by
  obtain ⟨identifier, content, hframe, -⟩ := h
  exact ⟨identifier, content, hframe⟩

/-- Values at the front of the same octets are the same octets, followed by the same ones. -/
theorem IsFramed.append_inj {mode : Mode} {first other rest otherRest : Octets} (h : IsFramed mode first)
    (hother : IsFramed mode other) (heq : first ++ rest = other ++ otherRest) :
    first = other ∧ rest = otherRest := by
  obtain ⟨_, _, hframe⟩ := h
  obtain ⟨_, _, hotherFrame⟩ := hother
  obtain ⟨-, -, rfl⟩ := hframe.unique hotherFrame heq
  exact ⟨rfl, List.append_cancel_left heq⟩

/-- Octets are a row of values in one way only. -/
private theorem forall₂_unique {mode : Mode} {related : Octets → Value → Prop}
    (hframed : ∀ part value, related part value → IsFramed mode part)
    (hitem : ∀ part value other, related part value → related part other → value = other)
    {parts otherParts : List Octets} {values others : List Value} (h : List.Forall₂ related parts values)
    (hother : List.Forall₂ related otherParts others) (heq : parts.flatten = otherParts.flatten) :
    values = others := by
  have hne (part : Octets) (value : Value) (hpart : related part value) : part ≠ [] := by
    obtain ⟨_, _, hframe⟩ := hframed part value hpart
    exact hframe.ne_nil
  induction h generalizing otherParts others with
  | nil => exact ((exists_parts_nil_iff hne).1 ⟨otherParts, hother, heq⟩).symm
  | @cons part value parts values hpart _ ih =>
      cases hother with
      | nil =>
          rw [List.flatten_cons, List.flatten_nil] at heq
          exact absurd (List.append_eq_nil_iff.1 heq).1 (hne part value hpart)
      | cons hotherPart hothers =>
          rw [List.flatten_cons, List.flatten_cons] at heq
          obtain ⟨rfl, hrest⟩ := (hframed _ _ hpart).append_inj (hframed _ _ hotherPart) heq
          rw [hitem part value _ hpart hotherPart, ih hothers hrest]

namespace Field

variable {σ : Type} {field : Field σ} {mode : Mode} {item : Encodes} {octets : Octets} {value other : Value}

theorem DerivesRepeated.unique {override : Option Tag}
    (hframed : ∀ override part value, item override part value → IsFramed mode part)
    (hitem : ∀ override part value other, item override part value → item override part other →
      value = other)
    (h : field.DerivesRepeated (Framed mode) item override octets value)
    (hother : field.DerivesRepeated (Framed mode) item override octets other) : value = other := by
  have hitems {tag : Tag} {values others : List Value} (h : DerivesItems (Framed mode) item tag octets values)
      (hother : DerivesItems (Framed mode) item tag octets others) : values = others := by
    obtain ⟨parts, hparts, hframe⟩ := h
    obtain ⟨otherParts, hotherParts, hotherFrame⟩ := hother
    obtain ⟨-, hcontent⟩ := hframe.inj hotherFrame
    exact forall₂_unique (hframed none) (hitem none) hparts hotherParts hcontent
  unfold DerivesRepeated at h hother
  split at h
  · rename_i hrepetition
    simp only [hrepetition] at hother
    exact hitem _ _ _ _ h hother
  · rename_i hrepetition
    simp only [hrepetition] at hother
    obtain ⟨values, rfl, h⟩ := h
    obtain ⟨others, rfl, hother⟩ := hother
    rw [hitems h hother]
  · rename_i hrepetition
    simp only [hrepetition] at hother
    obtain ⟨values, rfl, h⟩ := h
    obtain ⟨others, rfl, hother⟩ := hother
    rw [hitems h hother]

/-- A field has one value, if its items do. -/
theorem Derives.unique
    (hframed : ∀ override part value, item override part value → IsFramed mode part)
    (hitem : ∀ override part value other, item override part value → item override part other →
      value = other)
    (h : field.Derives (Framed mode) item octets value)
    (hother : field.Derives (Framed mode) item octets other) : value = other := by
  unfold Derives at h hother
  split at h
  · rename_i htagging
    simp only [htagging] at hother
    exact h.unique hframed hitem hother
  · rename_i htagging
    simp only [htagging] at hother
    exact h.unique hframed hitem hother
  · rename_i htagging
    simp only [htagging] at hother
    obtain ⟨content, hframe, h⟩ := h
    obtain ⟨otherContent, hotherFrame, hother⟩ := hother
    obtain ⟨-, rfl⟩ := hframe.inj hotherFrame
    exact h.unique hframed hitem hother

end Field

/-! ## Fields -/

namespace Schema

variable {rule : OmissionRule} {mode : Mode} {known given other : Sequence Value} {octets : Octets}

theorem Derives.isFramed {schema : Schema} {override : Option Tag} {value : Value}
    (h : schema.Derives rule mode override octets value) : IsFramed mode octets :=
  h.startsWith.isFramed

/-- Octets that can be derived without an optional field do not have it in front. -/
theorem DerivesFields.not_derives {field : Field Schema} {rest : List (Field Schema)} {type : Schema}
    {first others : Octets} {value : Value} (hoptional : field.optional = true)
    (hambiguous : field.isAmbiguous rest = false)
    (h : DerivesFields rule mode rest known (first ++ others) given) (htype : type ∈ field.type.types) :
    ¬ field.Derives (Framed mode) (type.Derives rule mode) first value := by
  intro hfield
  obtain ⟨identifier, content, hframe, htag⟩ := startsWith_of_field hfield
  have hne : first ++ others ≠ [] := fun hnil => hframe.ne_nil (List.append_eq_nil_iff.1 hnil).1
  rw [Field.isAmbiguous, hoptional, Bool.true_and] at hambiguous
  cases htags : field.outerTags? with
  | none =>
      -- A field that may have every tag comes last, so there is nothing without it.
      simp only [htags, Bool.not_eq_false', List.isEmpty_iff] at hambiguous
      subst hambiguous
      exact hne (derivesFields_nil.1 h).1
  | some tags =>
      simp only [htags] at hambiguous
      obtain ⟨header, after, hheader, hnot⟩ := h.tag_not_mem hambiguous hne
      obtain ⟨tag, hmem, houter⟩ := Field.outerTag?_of_outerTags? htags htype
      rw [hframe.takeOctets_append others] at hheader
      obtain ⟨rfl, -⟩ := Prod.mk.inj (Except.ok.inj hheader)
      rw [houter] at htag
      obtain rfl : tag = identifier.tag := by simpa using htag
      exact hnot hmem

/-- **Fields are derived in one way only**, if values of their types are. -/
theorem DerivesFields.unique {fields : List (Field Schema)}
    (htypes : ∀ field ∈ fields, ∀ type ∈ field.type.types, ∀ override part value other,
      type.Derives rule mode override part value → type.Derives rule mode override part other →
        value = other)
    (hambiguous : Field.firstAmbiguous? fields = none)
    (h : DerivesFields rule mode fields known octets given)
    (hother : DerivesFields rule mode fields known octets other) : given = other := by
  induction fields generalizing known octets with
  | nil => rw [(derivesFields_nil.1 h).2, (derivesFields_nil.1 hother).2]
  | cons field rest ih =>
      obtain ⟨-, hfieldAmbiguous, hambiguous⟩ := Field.firstAmbiguous?_cons.1 hambiguous
      have ih {known : Sequence Value} {octets : Octets} :=
        @ih known octets (fun later hlater => htypes later (List.mem_cons_of_mem _ hlater)) hambiguous
      rcases derivesFields_cons.1 h with
        ⟨hoptional, -, h⟩ | ⟨type, first, others, value, htype, rfl, hfield, h⟩
      · rcases derivesFields_cons.1 hother with
          ⟨-, -, hother⟩ | ⟨type, first, others, value, htype, rfl, hfield, -⟩
        · exact ih h hother
        · exact absurd hfield (h.not_derives hoptional hfieldAmbiguous (Field.resolve?_mem htype))
      · rcases derivesFields_cons.1 hother with
          ⟨hoptional, -, hother⟩ | ⟨found, otherFirst, otherRest, otherValue, hfound, heq, hotherField, hother⟩
        · exact absurd hfield (hother.not_derives hoptional hfieldAmbiguous (Field.resolve?_mem htype))
        · -- Both have the field, so they have it with the same type, off the same octets.
          obtain rfl := Option.some.inj (htype.symm.trans hfound)
          obtain ⟨rfl, rfl⟩ := (startsWith_of_field hfield).isFramed.append_inj
            (startsWith_of_field hotherField).isFramed heq
          obtain rfl := hfield.unique (fun _ _ _ => Derives.isFramed)
            (htypes field List.mem_cons_self type (Field.resolve?_mem htype)) hotherField
          exact ih h hother

/-! ## Types -/

/-- **The grammar is unambiguous.** Octets have at most one value of a type without ambiguous fields. -/
theorem Derives.unique {schema : Schema} (hambiguous : schema.ambiguousField? = none)
    {override : Option Tag} {value other : Value} (h : schema.Derives rule mode override octets value)
    (hother : schema.Derives rule mode override octets other) : value = other := by
  induction schema using Schema.induction generalizing override octets value other with
  | primitive tag =>
      obtain ⟨type, content, htype, hframe, hdecode⟩ := derives_primitive.1 h
      obtain ⟨found, otherContent, hfound, hotherFrame, hother⟩ := derives_primitive.1 hother
      obtain rfl := Option.some.inj (htype.symm.trans hfound)
      obtain ⟨-, rfl⟩ := hframe.inj hotherFrame
      exact Except.ok.inj (hdecode.symm.trans hother)
  | any =>
      obtain ⟨⟨tag, constructed, content⟩, hframe, -, rfl⟩ := derives_any.1 h
      obtain ⟨⟨otherTag, otherConstructed, otherContent⟩, hotherFrame, -, rfl⟩ := derives_any.1 hother
      obtain ⟨hidentifier, hcontent⟩ := hframe.inj hotherFrame
      obtain ⟨rfl, rfl⟩ := Identifier.mk.inj hidentifier
      rw [show content = otherContent from hcontent]
  | sequence name fields ih =>
      rw [ambiguousField?] at hambiguous
      obtain ⟨content, given, hframe, hfields, rfl⟩ := derives_sequence.1 h
      obtain ⟨otherContent, others, hotherFrame, hotherFields, rfl⟩ := derives_sequence.1 hother
      obtain ⟨-, rfl⟩ := hframe.inj hotherFrame
      rw [hfields.unique (fun field hfield type htype _ _ _ _ => ih field hfield type htype
        (Field.ambiguousField?_of_firstAmbiguous? hambiguous hfield htype)) hambiguous hotherFields]

end Schema

end Asn1
