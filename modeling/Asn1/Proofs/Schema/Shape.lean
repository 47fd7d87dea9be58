import Asn1.Proofs.Schema.Grammar
import Mathlib.Data.List.Nodup

/-!
# `Asn1.Proofs.Schema.Shape` — conditions on schemas, and fields by their names

What a schema has to look like for decoding and encoding to agree. Decoding knows the fields before a
selected one, encoding all fields of the value; names and selectors have to be such that this makes no
difference.

## Contents
- **Everywhere.** A condition on the fields of every sequence in a schema, at any depth.
- **Names and selectors.** `Field.DistinctNames`, `Field.SelectsBackward`, `Field.SelectsIdentifiers` and
  `Field.SkipsResolve`, and their combinations `Field.Ordered`, `Field.Keyed` and `Field.Dispatched`.
- **Sequences that agree.** `Sequence.Agrees`: selectors choose alike in both.
- **Fields derived.** What a derivation of fields says about looking fields up by name.
-/

namespace Asn1

/-! ## Everywhere -/

/-- The condition holds for the fields of every sequence in the schema, those in types that may be
    selected included. -/
inductive Schema.Everywhere (condition : List (Field Schema) → Prop) : Schema → Prop
  | primitive (tag : Tag) : Everywhere condition (.primitive tag)
  | any : Everywhere condition .any
  | sequence {name : String} {fields : List (Field Schema)} : condition fields →
      (∀ field ∈ fields, ∀ type ∈ field.type.types, Everywhere condition type) →
      Everywhere condition (.sequence name fields)

theorem Schema.Everywhere.mono {condition weaker : List (Field Schema) → Prop} {schema : Schema}
    (himp : ∀ fields, condition fields → weaker fields) (h : schema.Everywhere condition) :
    schema.Everywhere weaker := by
  induction h with
  | primitive tag => exact .primitive tag
  | any => exact .any
  | sequence hfields _ ih => exact .sequence (himp _ hfields) ih

/-! ## Names and selectors -/

namespace Field

/-- No two fields share a name. -/
def DistinctNames (fields : List (Field Schema)) : Prop := (fields.map (·.name)).Nodup

instance (fields : List (Field Schema)) : Decidable (DistinctNames fields) :=
  inferInstanceAs (Decidable (List.Nodup _))

/-- Every selector refers to an earlier field or to none at all: not to its own field, and not to one
    further on. -/
def SelectsBackward : List (Field Schema) → Prop
  | [] => True
  | field :: rest =>
    (∀ selector, field.type = .selected selector → ∀ other ∈ field :: rest, other.name ≠ selector.field) ∧
      SelectsBackward rest

/-- Names are distinct, and selectors refer to earlier fields. -/
structure Ordered (fields : List (Field Schema)) : Prop where
  distinct : DistinctNames fields
  backward : SelectsBackward fields

/-- The field is a single object identifier. -/
def IsIdentifier (field : Field Schema) : Prop :=
  field.type = .fixed (.primitive .objectIdentifier) ∧ field.repetition = .single

/-- Every selector refers to an earlier field that is a single object identifier. -/
def SelectsIdentifiers (earlier : List (Field Schema)) : List (Field Schema) → Prop
  | [] => True
  | field :: rest =>
    (∀ selector, field.type = .selected selector →
      ∃ other ∈ earlier, other.name = selector.field ∧ other.IsIdentifier) ∧
      SelectsIdentifiers (earlier ++ [field]) rest

/-- Every optional selected field has a default type or comes last. -/
def SkipsResolve : List (Field Schema) → Prop
  | [] => True
  | field :: rest =>
    (field.optional = true → ∀ selector, field.type = .selected selector →
      selector.default.isSome = true ∨ rest = []) ∧
      SkipsResolve rest

/-- Names are distinct, and selectors find an object identifier. -/
structure Keyed (fields : List (Field Schema)) : Prop where
  distinct : DistinctNames fields
  identifiers : SelectsIdentifiers [] fields

/-- Names are distinct, selectors find an object identifier, and optional fields find a type. -/
structure Dispatched (fields : List (Field Schema)) : Prop where
  distinct : DistinctNames fields
  identifiers : SelectsIdentifiers [] fields
  skips : SkipsResolve fields

theorem distinctNames_cons {field : Field Schema} {rest : List (Field Schema)} :
    DistinctNames (field :: rest) ↔ (∀ other ∈ rest, other.name ≠ field.name) ∧ DistinctNames rest := by
  simp [DistinctNames]

/-- The name of a field is not that of one before or after it. -/
theorem DistinctNames.ne {earlier rest : List (Field Schema)} {field other : Field Schema}
    (h : DistinctNames (earlier ++ field :: rest)) (hother : other ∈ earlier ∨ other ∈ rest) :
    other.name ≠ field.name := by
  rw [DistinctNames, List.map_append, List.map_cons, List.nodup_middle] at h
  rintro heq
  refine (List.nodup_cons.1 h).1 ?_
  rw [← List.map_append, ← heq]
  exact List.mem_map_of_mem (List.mem_append.2 hother)

/-- Selectors that find an object identifier refer to earlier fields. -/
theorem SelectsIdentifiers.backward {earlier fields : List (Field Schema)}
    (hdistinct : DistinctNames (earlier ++ fields)) (h : SelectsIdentifiers earlier fields) :
    SelectsBackward fields := by
  induction fields generalizing earlier with
  | nil => trivial
  | cons field rest ih =>
      obtain ⟨hselector, h⟩ := h
      refine ⟨fun selector hselected other hother => ?_, ih (by rwa [List.append_assoc]) h⟩
      obtain ⟨found, hfound, hname, -⟩ := hselector selector hselected
      rw [DistinctNames, List.map_append, List.nodup_append] at hdistinct
      rw [← hname]
      exact (hdistinct.2.2 _ (List.mem_map_of_mem hfound) _ (List.mem_map_of_mem hother)).symm

/-- Each selector refers to an object identifier among the fields. -/
theorem SelectsIdentifiers.exists_mem {earlier fields : List (Field Schema)}
    (h : SelectsIdentifiers earlier fields) {field : Field Schema} (hfield : field ∈ fields)
    {selector : Selector Schema} (hselected : field.type = .selected selector) :
    ∃ other ∈ earlier ++ fields, other.name = selector.field ∧ other.IsIdentifier := by
  induction fields generalizing earlier with
  | nil => cases hfield
  | cons first rest ih =>
      obtain ⟨hselector, hrest⟩ := h
      rcases List.mem_cons.1 hfield with rfl | hmem
      · obtain ⟨other, hother, hfound⟩ := hselector selector hselected
        exact ⟨other, List.mem_append_left _ hother, hfound⟩
      · obtain ⟨other, hother, hfound⟩ := ih hrest hmem
        refine ⟨other, ?_, hfound⟩
        rwa [List.append_assoc] at hother

theorem Keyed.ordered {fields : List (Field Schema)} (h : Keyed fields) : Ordered fields :=
  ⟨h.distinct, h.identifiers.backward (show DistinctNames ([] ++ fields) from h.distinct)⟩

theorem Dispatched.keyed {fields : List (Field Schema)} (h : Dispatched fields) : Keyed fields :=
  ⟨h.distinct, h.identifiers⟩

theorem Dispatched.ordered {fields : List (Field Schema)} (h : Dispatched fields) : Ordered fields :=
  h.keyed.ordered

/-- Fields of fixed types select nothing. -/
theorem dispatched_of_fixed {fields : List (Field Schema)} (hdistinct : DistinctNames fields)
    (hfixed : ∀ field ∈ fields, ∀ selector, field.type ≠ .selected selector) : Dispatched fields := by
  have hidentifiers (earlier : List (Field Schema)) : SelectsIdentifiers earlier fields := by
    clear hdistinct
    induction fields generalizing earlier with
    | nil => trivial
    | cons field rest ih =>
        exact ⟨fun selector h => (hfixed field List.mem_cons_self selector h).elim,
          ih (fun other hother => hfixed other (List.mem_cons_of_mem _ hother)) _⟩
  have hskips : SkipsResolve fields := by
    clear hdistinct hidentifiers
    induction fields with
    | nil => trivial
    | cons field rest ih =>
        exact ⟨fun _ selector h => (hfixed field List.mem_cons_self selector h).elim,
          ih fun other hother => hfixed other (List.mem_cons_of_mem _ hother)⟩
  exact ⟨hdistinct, hidentifiers [], hskips⟩

/-- A field resolves to the same type where its selector finds the same value. -/
theorem resolve?_congr {σ : Type} {field : Field σ} {siblings others : Sequence Value}
    (h : ∀ selector, field.type = .selected selector →
      siblings.get? selector.field = others.get? selector.field) :
    field.resolve? siblings = field.resolve? others := by
  unfold resolve? Selector.select?
  split
  · rfl
  · rename_i selector htype
    rw [h selector htype]

/-- The names of other fields are still new when a field has become known. -/
theorem get?_push_of_new {field : Field Schema} {rest : List (Field Schema)} {known : Sequence Value}
    {value : Value} (hother : ∀ other ∈ rest, other.name ≠ field.name)
    (hnew : ∀ other ∈ rest, known.get? other.name = none) :
    ∀ other ∈ rest, (known.push field.name value).get? other.name = none := by
  intro other hmem
  rw [Sequence.get?_push, hnew other hmem, if_neg (hother other hmem), Option.or_none]

end Field

/-! ## Sequences that agree -/

/-- Two sequences have the same fields, and the same object identifiers in them. -/
def Sequence.Agrees (known other : Sequence Value) : Prop :=
  ∀ name, (known.get? name).map Value.asOid? = (other.get? name).map Value.asOid?

namespace Sequence.Agrees

variable {known other : Sequence Value}

/-- Selectors choose alike. -/
theorem resolve?_eq {σ : Type} (h : known.Agrees other) (field : Field σ) :
    field.resolve? known = field.resolve? other := by
  have hbind (found : Option Value) : found.bind Value.asOid? = (found.map Value.asOid?).join := by
    cases found <;> rfl
  unfold Field.resolve? Selector.select?
  split
  · rfl
  · rw [hbind, h, ← hbind]

/-- Values of the same data are pushed to both. -/
theorem push (h : known.Agrees other) (name : String) {value same : Value}
    (hsame : value.same same = true) : (known.push name value).Agrees (other.push name same) := by
  intro found
  rw [Sequence.get?_push, Sequence.get?_push, Option.map_or, Option.map_or, h found]
  split
  · rw [Option.map_some, Option.map_some, Value.asOid?_of_same hsame]
  · rfl

end Sequence.Agrees

/-! ## Fields derived -/

namespace Schema

variable {rule : OmissionRule} {mode : Mode} {fields : List (Field Schema)}
  {known given : Sequence Value} {octets : Octets}

/-- Fields that are known are kept. -/
theorem DerivesFields.get?_of_known (h : DerivesFields rule mode fields known octets given) {name : String}
    {value : Value} (hknown : known.get? name = some value) : given.get? name = some value := by
  induction fields generalizing known octets with
  | nil =>
      obtain ⟨-, rfl⟩ := derivesFields_nil.1 h
      exact hknown
  | cons field rest ih =>
      obtain ⟨-, -, h⟩ | ⟨type, first, others, found, -, -, -, h⟩ := derivesFields_cons.1 h
      · exact ih h hknown
      · exact ih h (by rw [Sequence.get?_push, hknown, Option.some_or])

/-- A field that was derived is found, whether its value was known before or not. -/
theorem DerivesFields.get?_ne_none {name : String} {value : Value}
    (h : DerivesFields rule mode fields (known.push name value) octets given) : given.get? name ≠ none := by
  obtain ⟨found, hfound⟩ : ∃ found, (known.push name value).get? name = some found := by
    rw [Sequence.get?_push, if_pos rfl]
    cases known.get? name with
    | none => exact ⟨value, rfl⟩
    | some found => exact ⟨found, rfl⟩
  rw [h.get?_of_known hfound]
  exact Option.some_ne_none found

/-- Nothing is added but fields of the type. -/
theorem DerivesFields.get?_of_not_mem (h : DerivesFields rule mode fields known octets given)
    {name : String} (hname : ∀ field ∈ fields, field.name ≠ name) : given.get? name = known.get? name := by
  induction fields generalizing known octets with
  | nil =>
      obtain ⟨-, rfl⟩ := derivesFields_nil.1 h
      rfl
  | cons field rest ih =>
      have hrest := fun other hother => hname other (List.mem_cons_of_mem _ hother)
      obtain ⟨-, -, h⟩ | ⟨type, first, others, found, -, -, -, h⟩ := derivesFields_cons.1 h
      · exact ih h hrest
      · rw [ih h hrest, Sequence.get?_push, if_neg (hname field List.mem_cons_self).symm, Option.or_none]

/-- Every value in the sequence was known, or is that of a field which is there. -/
theorem DerivesFields.mem_fields (h : DerivesFields rule mode fields known octets given)
    {entry : String × Value} (hentry : entry ∈ given.fields) :
    entry ∈ known.fields ∨ ∃ field ∈ fields, ∃ type ∈ field.type.types, ∃ part,
      entry.1 = field.name ∧ field.Derives (Framed mode) (type.Derives rule mode) part entry.2 := by
  induction fields generalizing known octets with
  | nil =>
      obtain ⟨-, rfl⟩ := derivesFields_nil.1 h
      exact .inl hentry
  | cons field rest ih =>
      obtain ⟨-, -, h⟩ | ⟨type, first, others, value, htype, -, hfield, h⟩ := derivesFields_cons.1 h
      · obtain hknown | ⟨other, hother, hfound⟩ := ih h
        · exact .inl hknown
        · exact .inr ⟨other, List.mem_cons_of_mem _ hother, hfound⟩
      · obtain hmem | ⟨other, hother, hfound⟩ := ih h
        · obtain hknown | hnew := List.mem_append.1 hmem
          · exact .inl hknown
          · obtain rfl := List.mem_singleton.1 hnew
            exact .inr ⟨field, List.mem_cons_self, type, Field.resolve?_mem htype, first, rfl, hfield⟩
        · exact .inr ⟨other, List.mem_cons_of_mem _ hother, hfound⟩

theorem DerivesFields.names_subset (h : DerivesFields rule mode fields known octets given) {name : String}
    (hname : name ∈ given.names) : name ∈ known.names ∨ ∃ field ∈ fields, field.name = name := by
  obtain ⟨entry, hentry, rfl⟩ := List.mem_map.1 hname
  obtain hknown | ⟨field, hfield, -, -, -, heq, -⟩ := h.mem_fields hentry
  · exact .inl (List.mem_map.2 ⟨entry, hknown, rfl⟩)
  · exact .inr ⟨field, hfield, heq.symm⟩

end Schema

end Asn1
