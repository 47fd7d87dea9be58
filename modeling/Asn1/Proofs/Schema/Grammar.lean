import Asn1.Proofs.PrimitiveType
import Asn1.Schema.Decode
import Mathlib.Data.List.Forall2

/-!
# `Asn1.Proofs.Schema.Grammar` — the grammar of a schema

What octets are an encoding of which value, without windows, positions and errors. A SEQUENCE is a frame
around the encodings of its fields in order; an implicit tag replaces the tag of a frame, an explicit one
is a frame of its own; a repetition is a frame around any number of items.

The one thing left open is when an optional field may be passed over. The grammar proper leaves that to
choice (`OmissionRule.free`); decoding goes by the tag of what comes next (`OmissionRule.byTag`).

## Contents
- **Fields.** `Field.Derives` adds tagging and repetition of a field to a relation for its items;
  `Field.Derives.map` carries it from one relation to another.
- **Types.** `Schema.Derives` and `Schema.DerivesFields`, and induction over the types in a schema.
- **Outer tags.** A field starts with its outer tag, which is what decoding looks at.
-/

namespace Asn1

/-- Relates octets and the value they encode. A tag that is given replaces the outermost one. -/
abbrev Encodes := Option Tag → Octets → Value → Prop

/-- Relates identifier and content to the octets of the whole. -/
abbrev Framing := Identifier → (content octets : Octets) → Prop

/-- Content is no longer than the frame around it. -/
def Framing.Encloses (framed : Framing) : Prop :=
  ∀ identifier content octets, framed identifier content octets → content.length ≤ octets.length

theorem Framing.encloses_framed (mode : Mode) : Encloses (Framed mode) := by
  intro identifier content octets hframe
  exact Nat.le_of_add_right_le hframe.length_content_le

/-! ## Fields -/

namespace Field

variable {σ : Type}

/-- The octets are a repetition with the given tag that holds the items in order. -/
def DerivesItems (framed : Framing) (item : Encodes) (tag : Tag) (octets : Octets)
    (values : List Value) : Prop :=
  ∃ parts : List Octets, List.Forall₂ (item none) parts values ∧ framed ⟨tag, true⟩ parts.flatten octets

/-- The octets are the value or repetition of a field. A tag that is given replaces the outermost one. -/
def DerivesRepeated (field : Field σ) (framed : Framing) (item : Encodes) : Encodes :=
  fun override octets value =>
    match field.repetition with
    | .single => item override octets value
    | .setOf => ∃ values, value = .setOf values ∧
        DerivesItems framed item (override.getD .set) octets values
    | .sequenceOf => ∃ values, value = .sequenceOf values ∧
        DerivesItems framed item (override.getD .sequence) octets values

/-- The octets are a field that is there. -/
def Derives (field : Field σ) (framed : Framing) (item : Encodes) (octets : Octets) (value : Value) :
    Prop :=
  match field.tagging with
  | none => field.DerivesRepeated framed item none octets value
  | some ⟨.implicit, tag⟩ => field.DerivesRepeated framed item (some tag) octets value
  | some ⟨.explicit, tag⟩ => ∃ content, framed ⟨tag, true⟩ content octets ∧
      field.DerivesRepeated framed item none content value

/-- The tag that replaces the outermost one of the field's value or repetition. -/
def implicitTag? (field : Field σ) : Option Tag :=
  match field.tagging with
  | some ⟨.implicit, tag⟩ => some tag
  | _ => none

/-- The value of a field by itself, or the items of a repetition. -/
def parts (field : Field σ) (value : Value) : List Value :=
  match field.repetition, value with
  | .single, value => [value]
  | .setOf, .setOf items => items
  | .sequenceOf, .sequenceOf items => items
  | _, _ => []

/-- Applies a function to the value of a field, or to each item of a repetition. -/
def mapValue (field : Field σ) (f : Option Tag → Value → Value) (value : Value) : Value :=
  match field.repetition, value with
  | .single, value => f field.implicitTag? value
  | .setOf, .setOf items => .setOf (items.map (f none))
  | .sequenceOf, .sequenceOf items => .sequenceOf (items.map (f none))
  | _, value => value

/-- The tag that replaces the outermost one of an item. That of a repetition is not replaced in its items. -/
def itemTag? (field : Field σ) : Option Tag :=
  match field.repetition with
  | .single => field.implicitTag?
  | _ => none

theorem parts_mapValue (field : Field σ) (f : Option Tag → Value → Value) (value : Value) :
    field.parts (field.mapValue f value) = (field.parts value).map (f field.itemTag?) := by
  unfold parts mapValue itemTag?
  cases field.repetition with
  | single => rfl
  | setOf => cases value <;> rfl
  | sequenceOf => cases value <;> rfl

theorem mapValue_single {field : Field σ} (h : field.repetition = .single)
    (f : Option Tag → Value → Value) (value : Value) :
    field.mapValue f value = f field.implicitTag? value := by
  simp only [mapValue, h]

theorem mapValue_id (field : Field σ) (value : Value) :
    field.mapValue (fun _ value => value) value = value := by
  unfold mapValue
  split <;> simp

/-- A function that changes no data in the items of a field changes none in its value. -/
theorem same_mapValue {field : Field σ} {f : Option Tag → Value → Value} {value : Value}
    (h : ∀ item ∈ field.parts value, (f field.itemTag? item).same item = true) :
    (field.mapValue f value).same value = true := by
  have hitems {items : List Value} (h : ∀ item ∈ items, (f none item).same item = true) :
      Value.sameItems (items.map (f none)) items = true := by
    induction items with
    | nil => rfl
    | cons first rest ih =>
        obtain ⟨hfirst, hrest⟩ := List.forall_mem_cons.1 h
        exact Bool.and_eq_true_iff.2 ⟨hfirst, ih hrest⟩
  unfold parts itemTag? at h
  unfold mapValue
  cases hrepetition : field.repetition with
  | single =>
      rw [hrepetition] at h
      exact h value (List.mem_singleton_self value)
  | setOf =>
      rw [hrepetition] at h
      cases value with
      | setOf items => exact hitems h
      | _ => exact Value.same_refl _
  | sequenceOf =>
      rw [hrepetition] at h
      cases value with
      | sequenceOf items => exact hitems h
      | _ => exact Value.same_refl _

theorem itemTag?_of_tag?_eq_none {field : Field σ} (h : field.repetition.tag? = none) :
    field.itemTag? = field.implicitTag? := by
  unfold itemTag?
  cases hrepetition : field.repetition with
  | single => rfl
  | setOf => simp [hrepetition, Repetition.tag?] at h
  | sequenceOf => simp [hrepetition, Repetition.tag?] at h

theorem itemTag?_of_tag?_eq_some {field : Field σ} {tag : Tag} (h : field.repetition.tag? = some tag) :
    field.itemTag? = none := by
  unfold itemTag?
  cases hrepetition : field.repetition with
  | single => simp [hrepetition, Repetition.tag?] at h
  | setOf => rfl
  | sequenceOf => rfl

end Field

/-! ## Types -/

/-- When an optional field may be passed over, given the fields before it and the octets left. -/
abbrev OmissionRule := Field Schema → Sequence Value → Octets → Prop

namespace OmissionRule

/-- An optional field may be passed over at will. -/
def free : OmissionRule := fun _ _ _ => True

/-- An optional field is passed over at the end, and where the next value has another tag than the field. -/
def byTag (mode : Mode) : OmissionRule := fun field known octets =>
  octets = [] ∨ ∃ type tag header rest, field.resolve? known = some type ∧
    field.outerTag? type = some tag ∧ Header.takeOctets mode octets = .ok (header, rest) ∧
    header.tag ≠ tag

end OmissionRule

namespace Schema

mutual

/-- The octets are an encoding of the value. A tag that is given replaces the natural one. -/
def Derives (rule : OmissionRule) (mode : Mode) (schema : Schema) (override : Option Tag)
    (octets : Octets) (value : Value) : Prop :=
  match schema with
  | primitive tag => ∃ type content, PrimitiveType.ofTag? tag = some type ∧
      Framed mode ⟨override.getD tag, false⟩ content octets ∧ type.decode mode content = .ok value
  | any => ∃ found : AnyValue, Framed mode ⟨found.tag, found.constructed⟩ found.content octets ∧
      override.all (· == found.tag) = true ∧ value = .any found
  | sequence _ fields => ∃ content given, Framed mode ⟨override.getD .sequence, true⟩ content octets ∧
      DerivesFields rule mode fields .empty content given ∧ value = .sequence (given.capture octets)
termination_by sizeOf schema

/-- The octets are encodings of fields that come after the known ones and make up the sequence with
    them. The type of a field is resolved from the fields before it. -/
def DerivesFields (rule : OmissionRule) (mode : Mode) (fields : List (Field Schema))
    (known : Sequence Value) (octets : Octets) (given : Sequence Value) : Prop :=
  match fields with
  | [] => octets = [] ∧ given = known
  | field :: rest =>
    (field.optional = true ∧ rule field known octets ∧
      DerivesFields rule mode rest known octets given) ∨
    match _h : field.resolve? known with
    | none => False
    | some type => ∃ first others value, octets = first ++ others ∧
        field.Derives (Framed mode) (type.Derives rule mode) first value ∧
        DerivesFields rule mode rest (known.push field.name value) others given
termination_by sizeOf fields
decreasing_by
  all_goals simp only [List.cons.sizeOf_spec]
  · omega
  · have := Field.sizeOf_lt_of_resolve? _h
    omega
  · omega

end

variable {rule : OmissionRule} {mode : Mode} {override : Option Tag} {octets : Octets} {value : Value}

/-- **Induction over the types in a schema.** A sequence is reached from all types of its fields. -/
theorem induction {motive : Schema → Prop} (primitive : ∀ tag, motive (.primitive tag))
    (any : motive .any)
    (sequence : ∀ name fields, (∀ field ∈ fields, ∀ type ∈ field.type.types, motive type) →
      motive (.sequence name fields)) (schema : Schema) : motive schema :=
  match schema with
  | .primitive tag => primitive tag
  | .any => any
  | .sequence name fields => sequence name fields fun _ _hfield type _htype =>
      induction primitive any sequence type
termination_by sizeOf schema
decreasing_by
  have := List.sizeOf_lt_of_mem _hfield
  have := Field.sizeOf_lt_of_mem_types _htype
  simp only [Schema.sequence.sizeOf_spec]
  omega

theorem derives_primitive {tag : Tag} :
    (primitive tag).Derives rule mode override octets value ↔
      ∃ type content, PrimitiveType.ofTag? tag = some type ∧
        Framed mode ⟨override.getD tag, false⟩ content octets ∧ type.decode mode content = .ok value := by
  rw [Derives]

/-- A value of a primitive type is of the kind that the type is for. -/
theorem holds_of_derives (type : PrimitiveType)
    (h : (primitive type.tag).Derives rule mode override octets value) : type.Holds value := by
  obtain ⟨found, content, hfound, -, hdecode⟩ := derives_primitive.1 h
  rw [PrimitiveType.ofTag?_eq_some_iff.2 rfl] at hfound
  obtain rfl := Option.some.inj hfound
  exact PrimitiveType.holds_of_decode hdecode

theorem derives_any :
    any.Derives rule mode override octets value ↔
      ∃ found : AnyValue, Framed mode ⟨found.tag, found.constructed⟩ found.content octets ∧
        override.all (· == found.tag) = true ∧ value = .any found := by
  rw [Derives]

theorem derives_sequence {name : String} {fields : List (Field Schema)} :
    (sequence name fields).Derives rule mode override octets value ↔
      ∃ content given, Framed mode ⟨override.getD .sequence, true⟩ content octets ∧
        DerivesFields rule mode fields .empty content given ∧
        value = .sequence (given.capture octets) := by
  rw [Derives]

theorem derivesFields_nil {known given : Sequence Value} :
    DerivesFields rule mode [] known octets given ↔ octets = [] ∧ given = known := by
  rw [DerivesFields]

/-- The first field is passed over, or it is there. -/
theorem derivesFields_cons {field : Field Schema} {rest : List (Field Schema)}
    {known given : Sequence Value} :
    DerivesFields rule mode (field :: rest) known octets given ↔
      (field.optional = true ∧ rule field known octets ∧
        DerivesFields rule mode rest known octets given) ∨
      ∃ type first others value, field.resolve? known = some type ∧ octets = first ++ others ∧
        field.Derives (Framed mode) (type.Derives rule mode) first value ∧
        DerivesFields rule mode rest (known.push field.name value) others given := by
  rw [DerivesFields]
  refine or_congr_right ?_
  split
  · rename_i hnone
    simp [hnone]
  · rename_i found hsome
    simp [hsome]

end Schema

/-! ## Carrying derivations over -/

/-- Items that are related pairwise stay so if each relation carries over, up to a bound on the whole. -/
private theorem forall₂_map {related related' : Octets → Value → Prop} {f : Value → Value} {bound : Nat}
    {parts : List Octets} {values : List Value}
    (hitem : ∀ part value, value ∈ values → part.length ≤ bound → related part value →
      related' part (f value))
    (hbound : parts.flatten.length ≤ bound) (h : List.Forall₂ related parts values) :
    List.Forall₂ related' parts (values.map f) := by
  induction h with
  | nil => exact .nil
  | cons hrelated _ ih =>
      rw [List.flatten_cons, List.length_append] at hbound
      exact .cons (hitem _ _ List.mem_cons_self (by omega) hrelated)
        (ih (fun part value hmem => hitem part value (List.mem_cons_of_mem _ hmem)) (by omega))

/-- An item that is related to a part pairwise has such a part. -/
private theorem exists_of_forall₂ {related : Octets → Value → Prop} {parts : List Octets}
    {values : List Value} (h : List.Forall₂ related parts values) {value : Value} (hvalue : value ∈ values) :
    ∃ part ∈ parts, related part value := by
  induction h with
  | nil => simp at hvalue
  | @cons part found _ _ hrelated _ ih =>
      obtain rfl | hmem := List.mem_cons.1 hvalue
      · exact ⟨part, List.mem_cons_self, hrelated⟩
      · obtain ⟨other, hother, h⟩ := ih hmem
        exact ⟨other, List.mem_cons_of_mem _ hother, h⟩

namespace Field

variable {σ : Type} {framed framed' : Framing} {item item' : Encodes} {f : Option Tag → Value → Value}

theorem DerivesRepeated.map {field : Field σ} {octets : Octets} {value : Value} (hencloses : framed.Encloses)
    (hframed : ∀ identifier content outer, outer.length ≤ octets.length →
      framed identifier content outer → framed' identifier content outer)
    (hitem : ∀ override part inner, inner ∈ field.parts value → part.length ≤ octets.length →
      item override part inner → item' override part (f override inner))
    (h : field.DerivesRepeated framed item field.implicitTag? octets value) :
    field.DerivesRepeated framed' item' field.implicitTag? octets (field.mapValue f value) := by
  have hitems {tag : Tag} {values : List Value} (hvalues : field.parts value = values)
      (h : DerivesItems framed item tag octets values) :
      DerivesItems framed' item' tag octets (values.map (f none)) := by
    rw [hvalues] at hitem
    obtain ⟨parts, hparts, hframe⟩ := h
    exact ⟨parts, forall₂_map (hitem none) (hencloses _ _ _ hframe) hparts,
      hframed _ _ _ (Nat.le_refl _) hframe⟩
  unfold DerivesRepeated at h ⊢
  cases hrepetition : field.repetition with
  | single =>
      simp only [hrepetition, mapValue] at h ⊢
      exact hitem _ _ _ (by simp [parts, hrepetition]) (Nat.le_refl _) h
  | setOf =>
      simp only [hrepetition] at h ⊢
      obtain ⟨values, rfl, h⟩ := h
      exact ⟨values.map (f none), by simp [mapValue, hrepetition],
        hitems (by simp [parts, hrepetition]) h⟩
  | sequenceOf =>
      simp only [hrepetition] at h ⊢
      obtain ⟨values, rfl, h⟩ := h
      exact ⟨values.map (f none), by simp [mapValue, hrepetition],
        hitems (by simp [parts, hrepetition]) h⟩

/-- **A derivation of a field carries over** to relations that take over all frames and items it can
    contain, those no longer than the field. -/
theorem Derives.map {field : Field σ} {octets : Octets} {value : Value} (hencloses : framed.Encloses)
    (hframed : ∀ identifier content outer, outer.length ≤ octets.length →
      framed identifier content outer → framed' identifier content outer)
    (hitem : ∀ override part inner, inner ∈ field.parts value → part.length ≤ octets.length →
      item override part inner → item' override part (f override inner))
    (h : field.Derives framed item octets value) :
    field.Derives framed' item' octets (field.mapValue f value) := by
  unfold Derives at h ⊢
  split at h
  · rename_i htagging
    have hoverride : field.implicitTag? = none := by simp [implicitTag?, htagging]
    rw [← hoverride] at h ⊢
    exact DerivesRepeated.map hencloses hframed hitem h
  · rename_i tag htagging
    have hoverride : field.implicitTag? = some tag := by simp [implicitTag?, htagging]
    rw [← hoverride] at h ⊢
    exact DerivesRepeated.map hencloses hframed hitem h
  · rename_i tag htagging
    have hoverride : field.implicitTag? = none := by simp [implicitTag?, htagging]
    rw [← hoverride] at h ⊢
    obtain ⟨content, hframe, h⟩ := h
    -- The bound on what the field contains is that on the wrapper.
    have hle := hencloses _ _ _ hframe
    refine ⟨content, hframed _ _ _ (Nat.le_refl _) hframe, ?_⟩
    exact DerivesRepeated.map hencloses (fun _ _ _ hlength => hframed _ _ _ (hlength.trans hle))
      (fun _ _ _ hmem hlength => hitem _ _ _ hmem (hlength.trans hle)) h

/-- A field holds a value by itself, or the items of a repetition under the tag of that. -/
theorem DerivesRepeated.value_or_items {field : Field σ} {override : Option Tag} {octets : Octets}
    {value : Value} (h : field.DerivesRepeated framed item override octets value) :
    (field.repetition.tag? = none ∧ field.parts value = [value] ∧ item override octets value) ∨
      ∃ tag, field.repetition.tag? = some tag ∧
        DerivesItems framed item (override.getD tag) octets (field.parts value) := by
  unfold DerivesRepeated at h
  unfold parts
  cases hrepetition : field.repetition with
  | single =>
      simp only [hrepetition] at h
      exact .inl ⟨rfl, rfl, h⟩
  | setOf =>
      simp only [hrepetition] at h
      obtain ⟨values, rfl, h⟩ := h
      exact .inr ⟨.set, rfl, h⟩
  | sequenceOf =>
      simp only [hrepetition] at h
      obtain ⟨values, rfl, h⟩ := h
      exact .inr ⟨.sequence, rfl, h⟩

theorem DerivesRepeated.exists_of_mem_parts {field : Field σ} {octets : Octets} {value inner : Value}
    (hencloses : framed.Encloses) (hinner : inner ∈ field.parts value)
    (h : field.DerivesRepeated framed item field.implicitTag? octets value) :
    ∃ part, item field.itemTag? part inner ∧ part.length ≤ octets.length := by
  rcases h.value_or_items with ⟨htag, hparts, h⟩ | ⟨tag, htag, parts, hparts, hframe⟩
  · rw [hparts, List.mem_singleton] at hinner
    rw [hinner, itemTag?_of_tag?_eq_none htag]
    exact ⟨octets, h, Nat.le_refl _⟩
  · obtain ⟨part, hpart, hitem⟩ := exists_of_forall₂ hparts hinner
    rw [itemTag?_of_tag?_eq_some htag]
    exact ⟨part, hitem, (List.sublist_flatten_of_mem hpart).length_le.trans (hencloses _ _ _ hframe)⟩

/-- A field holds its value or repetition, be it inside a wrapper. -/
theorem Derives.exists_repeated {field : Field σ} {octets : Octets} {value : Value}
    (h : field.Derives framed item octets value) :
    ∃ content, field.DerivesRepeated framed item field.implicitTag? content value ∧
      (content = octets ∨ ∃ tag, framed ⟨tag, true⟩ content octets) := by
  unfold Derives at h
  unfold implicitTag?
  split at h
  · rename_i htagging
    rw [htagging]
    exact ⟨octets, h, .inl rfl⟩
  · rename_i htagging
    rw [htagging]
    exact ⟨octets, h, .inl rfl⟩
  · rename_i tag htagging
    rw [htagging]
    obtain ⟨content, hframe, h⟩ := h
    exact ⟨content, h, .inr ⟨tag, hframe⟩⟩

/-- Each item of a field has an encoding within that of the field. -/
theorem Derives.exists_of_mem_parts {field : Field σ} {octets : Octets} {value inner : Value}
    (hencloses : framed.Encloses) (hinner : inner ∈ field.parts value)
    (h : field.Derives framed item octets value) :
    ∃ part, item field.itemTag? part inner ∧ part.length ≤ octets.length := by
  obtain ⟨content, h, hwrapped⟩ := h.exists_repeated
  obtain ⟨part, hitem, hle⟩ := h.exists_of_mem_parts hencloses hinner
  obtain rfl | ⟨tag, hframe⟩ := hwrapped
  · exact ⟨part, hitem, hle⟩
  · exact ⟨part, hitem, hle.trans (hencloses _ _ _ hframe)⟩

/-- A derivation of a field carries over to relations that allow the same frames, and the items in it. -/
theorem Derives.mono_parts {field : Field σ} {octets : Octets} {value : Value} (hencloses : framed.Encloses)
    (hframed : ∀ identifier content outer, framed identifier content outer →
      framed' identifier content outer)
    (hitem : ∀ override part inner, inner ∈ field.parts value → item override part inner →
      item' override part inner)
    (h : field.Derives framed item octets value) : field.Derives framed' item' octets value := by
  have hmap : field.Derives framed' item' octets (field.mapValue (fun _ value => value) value) :=
    h.map hencloses (fun _ _ _ _ => hframed _ _ _) fun _ _ _ hinner _ => hitem _ _ _ hinner
  rwa [mapValue_id] at hmap

/-- A derivation of a field carries over to relations that allow the same frames and items, and more. -/
theorem Derives.mono {field : Field σ} {octets : Octets} {value : Value} (hencloses : framed.Encloses)
    (hframed : ∀ identifier content outer, framed identifier content outer →
      framed' identifier content outer)
    (hitem : ∀ override part inner, item override part inner → item' override part inner)
    (h : field.Derives framed item octets value) : field.Derives framed' item' octets value :=
  h.mono_parts hencloses hframed fun _ _ _ _ => hitem _ _ _

end Field

/-! ## Outer tags -/

/-- The octets are a value whose tag is the one expected, if one is. -/
def StartsWith (mode : Mode) (expected : Option Tag) (octets : Octets) : Prop :=
  ∃ identifier content, Framed mode identifier content octets ∧
    expected.all (· == identifier.tag) = true

namespace Schema

/-- An encoding starts with the tag that replaces the natural one, else with the natural one. -/
theorem Derives.startsWith {rule : OmissionRule} {mode : Mode} {schema : Schema}
    {override : Option Tag} {octets : Octets} {value : Value}
    (h : schema.Derives rule mode override octets value) :
    StartsWith mode (override.or schema.naturalTag?) octets := by
  cases schema with
  | primitive tag =>
      obtain ⟨type, content, -, hframe, -⟩ := derives_primitive.1 h
      exact ⟨_, _, hframe, by cases override <;> simp [naturalTag?]⟩
  | any =>
      obtain ⟨found, hframe, htag, -⟩ := derives_any.1 h
      exact ⟨_, _, hframe, by simpa [naturalTag?] using htag⟩
  | sequence name fields =>
      obtain ⟨content, given, hframe, -, -⟩ := derives_sequence.1 h
      exact ⟨_, _, hframe, by cases override <;> simp [naturalTag?]⟩

end Schema

/-- The value or repetition of a field starts with the tag that replaces the outermost one, else with that. -/
theorem Field.DerivesRepeated.startsWith {σ : Type} {mode : Mode} {item : Encodes} {type : Schema}
    {field : Field σ} {override : Option Tag} {octets : Octets} {value : Value}
    (hitem : ∀ override part value, item override part value →
      StartsWith mode (override.or type.naturalTag?) part)
    (h : field.DerivesRepeated (Framed mode) item override octets value) :
    StartsWith mode (override.or (field.repetition.tag?.or type.naturalTag?)) octets := by
  unfold DerivesRepeated at h
  split at h
  · rename_i hrepetition
    simpa [Repetition.tag?, hrepetition] using hitem _ _ _ h
  · rename_i hrepetition
    obtain ⟨_, _, parts, -, hframe⟩ := h
    exact ⟨_, _, hframe, by cases override <;> simp [Repetition.tag?, hrepetition]⟩
  · rename_i hrepetition
    obtain ⟨_, _, parts, -, hframe⟩ := h
    exact ⟨_, _, hframe, by cases override <;> simp [Repetition.tag?, hrepetition]⟩

/-- **A field starts with its outer tag**, if its items start with theirs. -/
theorem Field.Derives.startsWith {mode : Mode} {item : Encodes} {type : Schema} {field : Field Schema}
    {octets : Octets} {value : Value}
    (hitem : ∀ override part value, item override part value →
      StartsWith mode (override.or type.naturalTag?) part)
    (h : field.Derives (Framed mode) item octets value) :
    StartsWith mode (field.outerTag? type) octets := by
  unfold Field.Derives at h
  unfold Field.outerTag?
  split at h
  · rename_i htagging
    simpa [htagging] using h.startsWith hitem
  · rename_i tag htagging
    simpa [htagging] using h.startsWith hitem
  · rename_i tag htagging
    obtain ⟨content, hframe, -⟩ := h
    exact ⟨_, _, hframe, by simp [htagging]⟩

/-- A field of a schema starts with its outer tag. -/
theorem Schema.startsWith_of_field {rule : OmissionRule} {mode : Mode} {type : Schema}
    {field : Field Schema} {octets : Octets} {value : Value}
    (h : field.Derives (Framed mode) (type.Derives rule mode) octets value) :
    StartsWith mode (field.outerTag? type) octets :=
  h.startsWith fun _ _ _ h => h.startsWith

theorem StartsWith.ne_nil {mode : Mode} {expected : Option Tag} {octets : Octets}
    (h : StartsWith mode expected octets) : octets ≠ [] := by
  obtain ⟨identifier, content, hframe, -⟩ := h
  exact hframe.ne_nil

end Asn1
