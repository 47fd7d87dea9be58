import Asn1.Proofs.Oid
import Asn1.Proofs.Schema.RoundTrip
import Mathlib.Algebra.Order.BigOperators.Group.List

/-!
# `Asn1.Proofs.Schema.Orderly` — every simple type has values as they should be

A value that decoding could give back has its fields in the order of the type, and a value of unknown type
wherever any type is allowed. Every type without selectors has such values that can be encoded, and for every
field there is one in which it is present and no optional field is besides. They are small: the type alone says
how many octets they take at most.

## Contents
- **Simple types.** `Schema.Simple`: no selectors, distinct names, known primitive types.
- **Room.** `Schema.room` for a value with single items, each wrapped as often as can be.
- **Orderly values.** `Schema.Orderly`, for values that keep their data in normal form, and `Schema.Proper` for
  those of them that are encoded with canonical leaves, and have room.
- **Fields.** `Field.single` puts one value into a field, `Sequence.ofPicks` picks values for fields.
- **Result.** `Schema.exists_proper` and `Schema.exists_proper_with`.
-/

namespace Asn1

/-! ## Simple types -/

/-- A type without selectors, whose primitive types are known. The fields of each sequence have different
    names. -/
inductive Schema.Simple : Schema → Prop where
  | primitive (type : PrimitiveType) : Simple (.primitive type.tag)
  | any : Simple .any
  | sequence {name : String} {fields : List (Field Schema)} : Field.DistinctNames fields →
      (∀ field ∈ fields, ∃ type, field.type = .fixed type) →
      (∀ field ∈ fields, ∀ type ∈ field.type.types, Simple type) → Simple (.sequence name fields)

namespace Schema.Simple

variable {name : String} {fields : List (Field Schema)}

theorem distinct (h : (Schema.sequence name fields).Simple) : Field.DistinctNames fields := by
  cases h with
  | sequence hdistinct _ _ => exact hdistinct

theorem fixed (h : (Schema.sequence name fields).Simple) :
    ∀ field ∈ fields, ∃ type, field.type = .fixed type := by
  cases h with
  | sequence _ hfixed _ => exact hfixed

theorem types (h : (Schema.sequence name fields).Simple) :
    ∀ field ∈ fields, ∀ type ∈ field.type.types, type.Simple := by
  cases h with
  | sequence _ _ htypes => exact htypes

/-- Without selectors there is nothing to dispatch. -/
theorem dispatched {schema : Schema} (h : schema.Simple) : schema.Everywhere Field.Dispatched := by
  induction h with
  | primitive type => exact .primitive type.tag
  | any => exact .any
  | sequence hdistinct hfixed _ ih =>
      refine .sequence (Field.dispatched_of_fixed hdistinct ?_) ih
      intro field hfield selector hselected
      obtain ⟨type, htype⟩ := hfixed field hfield
      cases htype.symm.trans hselected

end Schema.Simple

/-! ## Room -/

/-- Room for content of the given length and a header in front of it. No tag takes more than six octets. -/
def roomAround (length : Nat) : Nat := 6 + (Length.definite length).encodedLen + length

mutual

/-- Room for a value of a type with one item in each field at most. Primitive content may have one octet. -/
def Schema.room (schema : Schema) : Nat :=
  match schema with
  | .primitive _ => roomAround 1
  | .any => roomAround 0
  | .sequence _ fields => roomAround (Field.rooms fields)
termination_by sizeOf schema

/-- Room for one item in each field, which may be in a repetition, and this in the wrapper of an explicit tag. -/
def Field.rooms (fields : List (Field Schema)) : Nat :=
  match fields with
  | [] => 0
  | field :: rest =>
    (field.type.types.attach.map fun ⟨type, _⟩ => roomAround (roomAround type.room)).sum + Field.rooms rest
termination_by sizeOf fields
decreasing_by
  · rename_i hmem
    have := Field.sizeOf_lt_of_mem_types hmem
    simp only [List.cons.sizeOf_spec]
    omega
  · simp only [List.cons.sizeOf_spec]
    omega

end

theorem Tag.encodedLen_le (tag : Tag) : tag.encodedLen ≤ 6 := by
  have hlt : tag.number.toNat < 128 ^ 5 := Nat.lt_trans tag.number.toNat_lt (by decide)
  have hdigits := (Base128.encodedLen_le_iff (by decide)).2 hlt
  rw [encodedLen]
  split <;> omega

theorem Length.encodedLen_mono {number larger : Nat} (h : number ≤ larger) :
    (definite number).encodedLen ≤ (definite larger).encodedLen := by
  have hmono := Octets.lengthOfNat_mono h
  simp only [encodedLen]
  split <;> split <;> omega

theorem le_roomAround (length : Nat) : length ≤ roomAround length := Nat.le_add_left _ _

/-- A frame around content that is no longer has room. -/
theorem length_frame_le_roomAround (identifier : Identifier) {content : Octets} {length : Nat}
    (h : content.length ≤ length) : (frame identifier content).length ≤ roomAround length := by
  have htag := identifier.tag.encodedLen_le
  have hlength := Length.encodedLen_mono h
  rw [frame, roomAround, List.length_append, Header.length_octets, Header.encodedLen]
  show identifier.tag.encodedLen + (Length.definite content.length).encodedLen + _ ≤ _
  omega

/-- There is room for each type of the first field, and for the fields after it. -/
theorem Field.le_rooms_cons {field : Field Schema} (rest : List (Field Schema)) {type : Schema}
    (htype : type ∈ field.type.types) :
    roomAround (roomAround type.room) + rooms rest ≤ rooms (field :: rest) := by
  rw [rooms]
  apply Nat.add_le_add_right
  apply List.single_le_sum (fun _ _ => Nat.zero_le _)
  exact List.mem_map.2 ⟨⟨type, htype⟩, List.mem_attach _ _, rfl⟩

theorem Field.rooms_le_cons (field : Field Schema) (rest : List (Field Schema)) :
    rooms rest ≤ rooms (field :: rest) := by
  rw [rooms.eq_def (field :: rest)]
  exact Nat.le_add_left _ _

/-! ## Orderly values -/

namespace Schema

/-- Sequences hold their fields in the order of the type, and values of any type are values of unknown type
    under the tag that is given, if one is. -/
inductive Orderly : Schema → Option Tag → Value → Prop where
  | primitive (tag : Tag) (override : Option Tag) (value : Value) : Orderly (.primitive tag) override value
  | any {override : Option Tag} {found : AnyValue} : override.all (· == found.tag) = true →
      Orderly .any override (.any found)
  | sequence {name : String} {fields : List (Field Schema)} {override : Option Tag}
      {given : Sequence Value} : given.names.Sublist (fields.map (·.name)) →
      (∀ field ∈ fields, ∀ value type, field.lookup given = .ok (some (value, type)) →
        ∀ item ∈ field.parts value, Orderly type field.itemTag? item) →
      Orderly (.sequence name fields) override (.sequence given)

section NormalForm

variable {fields : List (Field Schema)} {given : Sequence Value}

/-- Entries in the order of the fields are what is found in normal form, if their values keep their data. -/
theorem sameFields_normalFields {entries : List (String × Value)} (hdistinct : Field.DistinctNames fields)
    (hfixed : ∀ field ∈ fields, ∃ type, field.type = .fixed type)
    (hnames : (entries.map (·.1)).Sublist (fields.map (·.name)))
    (hget : ∀ field ∈ fields, given.get? field.name = entries.lookup field.name)
    (hsame : ∀ field ∈ fields, ∀ value type, field.lookup given = .ok (some (value, type)) →
      (field.mapValue type.normal value).same value = true) :
    Value.sameFields (normalFields fields given) entries = true := by
  induction fields generalizing entries with
  | nil =>
      obtain rfl : entries = [] := by simpa using hnames
      rw [normalFields]
      rfl
  | cons field rest ih =>
      obtain ⟨hother, hdistinct⟩ := Field.distinctNames_cons.1 hdistinct
      have hfixedRest := fun other hmem => hfixed other (List.mem_cons_of_mem _ hmem)
      have hsameRest := fun other hmem => hsame other (List.mem_cons_of_mem _ hmem)
      have hgetField := hget field List.mem_cons_self
      rcases List.sublist_cons_iff.1 hnames with hnames | ⟨names, hentries, hnames⟩
      · -- The field is not among the entries, as its name is not that of a later one.
        have hnone : given.get? field.name = none := by
          rw [hgetField, List.lookup_eq_none_iff]
          intro entry hentry
          obtain ⟨other, hmem, hname⟩ := List.mem_map.1 (hnames.subset (List.mem_map_of_mem hentry))
          rw [← hname]
          exact bne_iff_ne.2 (hother other hmem).symm
        have hskip : normalFields (field :: rest) given = normalFields rest given := by
          rw [normalFields]
          split
          · rename_i hlookup
            cases hnone.symm.trans (Field.lookup_eq_some_iff.1 hlookup).1
          · rfl
        rw [hskip]
        exact ih hdistinct hfixedRest hnames (fun other hmem => hget other (List.mem_cons_of_mem _ hmem)) hsameRest
      · obtain ⟨⟨_, value⟩, others, rfl, rfl, rfl⟩ := List.map_eq_cons_iff.1 hentries
        obtain ⟨type, htype⟩ := hfixed field List.mem_cons_self
        have hlookup : field.lookup given = .ok (some (value, type)) := by
          refine Field.lookup_eq_some_iff.2 ⟨?_, ?_⟩
          · rw [hgetField, List.lookup_cons_self]
          · rw [Field.resolve?, htype]
        rw [normalFields_of_lookup_some hlookup]
        refine Value.sameFields_cons (hsame field List.mem_cons_self value type hlookup) ?_
        refine ih hdistinct hfixedRest hnames (fun other hmem => ?_) hsameRest
        rw [hget other (List.mem_cons_of_mem _ hmem), List.lookup_cons, beq_false_of_ne (hother other hmem)]

/-- **The normal form of an orderly value holds the same data.** -/
theorem Orderly.same_normal {schema : Schema} {override : Option Tag} {value : Value}
    (h : schema.Orderly override value) (hschema : schema.Simple) :
    (schema.normal override value).same value = true := by
  induction h with
  | primitive tag override value =>
      rw [normal]
      exact Value.same_refl value
  | any htag =>
      rw [normal, AnyValue.ofValue?_any htag]
      exact Value.same_refl _
  | @sequence name fields override given hnames _ ih =>
      rw [normal]
      refine sameFields_normalFields hschema.distinct hschema.fixed hnames (fun _ _ => rfl) ?_
      intro field hfield value type hlookup
      apply Field.same_mapValue
      intro item hitem
      have htype := Field.resolve?_mem (Field.lookup_eq_some_iff.1 hlookup).2
      exact ih field hfield value type hlookup item hitem (hschema.types field hfield type htype)

end NormalForm

/-- The value is encoded, in no more octets than there is room for, orderly, and canonical in all its leaves. -/
structure Proper (schema : Schema) (override : Option Tag) (value : Value) : Prop where
  writes : ∀ name, ∃ octets, schema.write name override value = .ok octets ∧ octets.length ≤ schema.room
  orderly : schema.Orderly override value
  canonical : schema.HasCanonicalLeaves value

end Schema

/-- The value of a field is encoded where there is room for one item, and its items are orderly and canonical. -/
structure Field.Proper (field : Field Schema) (type : Schema) (value : Value) : Prop where
  writes : ∃ octets, field.Derives .written (.by (type.write field.name)) octets value ∧
    octets.length ≤ roomAround (roomAround type.room)
  items : ∀ item ∈ field.parts value, type.Orderly field.itemTag? item ∧ type.HasCanonicalLeaves item

/-! ## Fields -/

namespace Field

variable {σ : Type}

/-- A value by itself, or as the only item of a repetition. -/
def single (field : Field σ) (value : Value) : Value :=
  match field.repetition with
  | .single => value
  | .setOf => .setOf [value]
  | .sequenceOf => .sequenceOf [value]

theorem parts_single (field : Field σ) (value : Value) : field.parts (field.single value) = [value] := by
  unfold parts single
  cases field.repetition <;> rfl

/-- The value or repetition of a field is written whatever its tagging is. -/
theorem exists_derives_of_repeated {field : Field σ} {item : Encodes} {content : Octets} {value : Value}
    {length : Nat} (h : field.DerivesRepeated .written item field.implicitTag? content value)
    (hlength : content.length ≤ length) :
    ∃ octets, field.Derives .written item octets value ∧ octets.length ≤ roomAround length := by
  have hroom : content.length ≤ roomAround length := Nat.le_trans hlength (le_roomAround length)
  unfold implicitTag? at h
  unfold Derives
  rcases htagging : field.tagging with _ | ⟨_ | _, tag⟩
  · rw [htagging] at h
    exact ⟨content, h, hroom⟩
  · rw [htagging] at h
    exact ⟨content, h, hroom⟩
  · rw [htagging] at h
    exact ⟨frame ⟨tag, true⟩ content, ⟨content, rfl, h⟩, length_frame_le_roomAround _ hlength⟩

/-- A proper value by itself makes a field proper. -/
theorem proper_single {field : Field Schema} {type : Schema} {value : Value}
    (h : type.Proper field.itemTag? value) : field.Proper type (field.single value) := by
  constructor
  · obtain ⟨octets, hwrite, hlength⟩ := h.writes field.name
    have hone (tag : Tag) (hitem : type.write field.name none value = .ok octets) :
        DerivesItems .written (.by (type.write field.name)) tag (frame ⟨tag, true⟩ [octets].flatten) [value] :=
      ⟨[octets], .cons hitem .nil, rfl⟩
    have hflatten : [octets].flatten.length ≤ type.room := by
      rwa [List.flatten_singleton]
    have hrepeated : ∃ content, field.DerivesRepeated .written (.by (type.write field.name))
        field.implicitTag? content (field.single value) ∧ content.length ≤ roomAround type.room := by
      unfold itemTag? at hwrite
      unfold DerivesRepeated single
      cases hrepetition : field.repetition with
      | single =>
          rw [hrepetition] at hwrite
          exact ⟨octets, hwrite, Nat.le_trans hlength (le_roomAround _)⟩
      | setOf =>
          rw [hrepetition] at hwrite
          exact ⟨_, ⟨[value], rfl, hone _ hwrite⟩, length_frame_le_roomAround _ hflatten⟩
      | sequenceOf =>
          rw [hrepetition] at hwrite
          exact ⟨_, ⟨[value], rfl, hone _ hwrite⟩, length_frame_le_roomAround _ hflatten⟩
    obtain ⟨content, hrepeated, hcontent⟩ := hrepeated
    exact exists_derives_of_repeated hrepeated hcontent
  · intro item hitem
    rw [parts_single, List.mem_singleton] at hitem
    rw [hitem]
    exact ⟨h.orderly, h.canonical⟩

theorem resolve?_of_fixed {field : Field σ} {type : σ} (h : field.type = .fixed type)
    (siblings : Sequence Value) : field.resolve? siblings = some type := by
  rw [resolve?, h]

end Field

/-- The fields that a value is picked for, in their order. -/
def Sequence.ofPicks (fields : List (Field Schema)) (pick : Field Schema → Option Value) : Sequence Value :=
  ⟨fields.filterMap fun field => (pick field).map (field.name, ·), none⟩

namespace Sequence

variable {fields : List (Field Schema)} {pick : Field Schema → Option Value}

theorem names_ofPicks_sublist : (ofPicks fields pick).names.Sublist (fields.map (·.name)) := by
  induction fields with
  | nil => exact .slnil
  | cons field rest ih =>
      simp only [names, ofPicks, List.filterMap_cons, List.map_cons] at ih ⊢
      cases pick field with
      | none => exact ih.cons _
      | some value => exact ih.cons_cons _

theorem get?_ofPicks_of_not_mem {name : String} (h : ∀ field ∈ fields, field.name ≠ name) :
    (ofPicks fields pick).get? name = none := by
  apply List.lookup_eq_none_iff.2
  intro entry hentry
  obtain ⟨field, hfield, hpick⟩ := List.mem_filterMap.1 hentry
  obtain ⟨value, -, rfl⟩ := Option.map_eq_some_iff.1 hpick
  exact bne_iff_ne.2 (h field hfield).symm

theorem get?_ofPicks (hdistinct : Field.DistinctNames fields) {field : Field Schema}
    (hfield : field ∈ fields) : (ofPicks fields pick).get? field.name = pick field := by
  induction fields with
  | nil => cases hfield
  | cons first rest ih =>
      obtain ⟨hother, hdistinct⟩ := Field.distinctNames_cons.1 hdistinct
      have hcons : (ofPicks (first :: rest) pick).get? field.name =
          (if field.name = first.name then pick first else none).or
            ((ofPicks rest pick).get? field.name) := by
        simp only [get?, ofPicks, List.filterMap_cons]
        cases pick first with
        | none =>
            rw [ite_self]
            rfl
        | some value =>
            by_cases hname : field.name = first.name
            · simp [hname]
            · simp [List.lookup_cons, hname, beq_false_of_ne hname]
      rw [hcons]
      rcases List.mem_cons.1 hfield with rfl | hmem
      · rw [if_pos rfl, get?_ofPicks_of_not_mem hother, Option.or_none]
      · rw [if_neg (hother field hmem), Option.none_or, ih hdistinct hmem]

end Sequence

namespace Schema

variable {fields : List (Field Schema)} {given : Sequence Value}

/-- Fields are written if each is left out, or written by itself. -/
theorem exists_writeFields
    (h : ∀ field ∈ fields, field.lookup given = .ok none ∨ ∃ value type,
      field.lookup given = .ok (some (value, type)) ∧ field.Proper type value) :
    ∃ octets, writeFields fields given = .ok octets ∧ octets.length ≤ Field.rooms fields := by
  induction fields with
  | nil => exact ⟨[], writeFields_nil.2 rfl, Nat.zero_le _⟩
  | cons field rest ih =>
      obtain ⟨others, hothers, hlength⟩ := ih fun later hlater => h later (List.mem_cons_of_mem _ hlater)
      rcases h field List.mem_cons_self with hnone | ⟨value, type, hlookup, hproper⟩
      · exact ⟨others, writeFields_cons.2 (.inl ⟨hnone, hothers⟩),
          Nat.le_trans hlength (Field.rooms_le_cons field rest)⟩
      · obtain ⟨first, hfirst, hroom⟩ := hproper.writes
        have htype := Field.resolve?_mem (Field.lookup_eq_some_iff.1 hlookup).2
        refine ⟨_, writeFields_cons.2 (.inr ⟨value, type, first, others, hlookup, rfl, hfirst, hothers⟩), ?_⟩
        rw [List.length_append]
        exact Nat.le_trans (Nat.add_le_add hroom hlength) (Field.le_rooms_cons rest htype)

/-- **Proper values of the required fields, and of any others, make a proper sequence.** -/
theorem proper_ofPicks {name : String} {pick : Field Schema → Option Value}
    (hdistinct : Field.DistinctNames fields) (hfixed : ∀ field ∈ fields, ∃ type, field.type = .fixed type)
    (hnone : ∀ field ∈ fields, pick field = none → field.optional = true)
    (hsome : ∀ field ∈ fields, ∀ value type, pick field = some value → field.type = .fixed type →
      field.Proper type value) (override : Option Tag) :
    (sequence name fields).Proper override (.sequence (.ofPicks fields pick)) := by
  have hlookup (field : Field Schema) (hfield : field ∈ fields) :
      (Sequence.ofPicks fields pick).get? field.name = pick field :=
    Sequence.get?_ofPicks hdistinct hfield
  have hproper (field : Field Schema) (hfield : field ∈ fields) {value : Value} {type : Schema}
      (h : field.lookup (.ofPicks fields pick) = .ok (some (value, type))) : field.Proper type value := by
    obtain ⟨hvalue, htype⟩ := Field.lookup_eq_some_iff.1 h
    obtain ⟨found, hfound⟩ := hfixed field hfield
    rw [Field.resolve?_of_fixed hfound] at htype
    rw [hlookup field hfield] at hvalue
    exact hsome field hfield value type hvalue (by rw [hfound, Option.some.inj htype])
  refine ⟨fun under => ?_, .sequence Sequence.names_ofPicks_sublist ?_, ?_⟩
  · have hwrites : ∃ content, writeFields fields (.ofPicks fields pick) = .ok content ∧
        content.length ≤ Field.rooms fields := by
      apply exists_writeFields
      intro field hfield
      obtain ⟨type, htype⟩ := hfixed field hfield
      cases hpick : pick field with
      | none =>
          left
          exact Field.lookup_eq_none_iff.2 ⟨(hlookup field hfield).trans hpick, hnone field hfield hpick⟩
      | some value =>
          have hfound : field.lookup (.ofPicks fields pick) = .ok (some (value, type)) :=
            Field.lookup_eq_some_iff.2
              ⟨(hlookup field hfield).trans hpick, Field.resolve?_of_fixed htype _⟩
          exact .inr ⟨value, type, hfound, hproper field hfield hfound⟩
    obtain ⟨content, hcontent, hlength⟩ := hwrites
    have hknown : knowsFields fields (.ofPicks fields pick) = true := by
      apply List.all_eq_true.2
      intro found hfound
      obtain ⟨field, hfield, rfl⟩ := List.mem_map.1 (Sequence.names_ofPicks_sublist.subset hfound)
      exact List.any_eq_true.2 ⟨field, hfield, beq_self_eq_true _⟩
    refine ⟨_, write_sequence.2 ⟨_, content, rfl, hknown, hcontent, rfl⟩, ?_⟩
    rw [room]
    exact length_frame_le_roomAround _ hlength
  · intro field hfield value type hfound item hitem
    exact ((hproper field hfield hfound).items item hitem).1
  · apply hasCanonicalLeaves_sequence.2
    intro field hfield value type hfound item hitem
    exact ((hproper field hfield hfound).items item hitem).2

/-! ## Result -/

/-- Every primitive type has a canonical value with content of one octet at most. -/
theorem exists_content (type : PrimitiveType) :
    ∃ value content, type.content? value = some content ∧ value.IsCanonical ∧ content.length ≤ 1 := by
  cases type with
  | boolean => exact ⟨.boolean false, _, rfl, trivial, by decide⟩
  | integer => exact ⟨.integer ⟨false, [], by decide, by decide⟩, _, rfl, trivial, by decide⟩
  | bitString => exact ⟨.bitString ⟨0, []⟩, _, rfl, ⟨rfl, fun _ => rfl⟩, by decide⟩
  | octetString => exact ⟨.octetString [], _, rfl, trivial, by decide⟩
  | null => exact ⟨.null, _, rfl, trivial, by decide⟩
  | objectIdentifier => exact ⟨.objectIdentifier ⟨[0x00]⟩, _, rfl, by cbv, by decide⟩
  | enumerated => exact ⟨.integer ⟨false, [], by decide, by decide⟩, _, rfl, trivial, by decide⟩
  | charString charType =>
      refine ⟨.charString ⟨charType, []⟩, [], ?_, trivial, by decide⟩
      rw [PrimitiveType.content?, if_pos rfl]

/-- An empty value of unknown type is proper where any type is allowed, under its own tag. -/
theorem proper_any {override : Option Tag} {tag : Tag} (h : override.all (· == tag) = true) :
    any.Proper override (.any ⟨tag, false, []⟩) := by
  refine ⟨fun _ => ⟨_, write_any.2 ⟨_, AnyValue.ofValue?_any h, rfl⟩, ?_⟩, .any h, hasCanonicalLeaves_any _⟩
  rw [room]
  exact length_frame_le_roomAround _ (Nat.le_refl 0)

/-- There are proper values for all fields, if there are for their types. -/
theorem exists_values (hfixed : ∀ field ∈ fields, ∃ type, field.type = .fixed type)
    (htypes : ∀ field ∈ fields, ∀ type ∈ field.type.types, ∀ override, ∃ value, type.Proper override value) :
    ∃ values : Field Schema → Value, ∀ field ∈ fields, ∀ type, field.type = .fixed type →
      field.Proper type (values field) := by
  have hvalue (field : Field Schema) : ∃ value, field ∈ fields → ∀ type, field.type = .fixed type →
      field.Proper type value := by
    by_cases hfield : field ∈ fields
    · obtain ⟨type, htype⟩ := hfixed field hfield
      have hmem : type ∈ field.type.types := by
        rw [htype]
        exact List.mem_cons_self
      obtain ⟨value, hvalue⟩ := htypes field hfield type hmem field.itemTag?
      refine ⟨field.single value, fun _ found hfound => ?_⟩
      rw [htype] at hfound
      rw [← FieldType.fixed.inj hfound]
      exact Field.proper_single hvalue
    · exact ⟨.null, fun hmem => absurd hmem hfield⟩
  choose values hvalues using hvalue
  exact ⟨values, hvalues⟩

/-- **Every simple type has a proper value**, whatever tag is given. -/
theorem exists_proper {schema : Schema} (hschema : schema.Simple) (override : Option Tag) :
    ∃ value, schema.Proper override value := by
  induction hschema generalizing override with
  | primitive type =>
      obtain ⟨value, content, hcontent, hcanonical, hlength⟩ := exists_content type
      refine ⟨value, fun name => ⟨_, write_primitive.2 ⟨type, content, ?_, hcontent, rfl⟩, ?_⟩,
        .primitive _ _ _, hasCanonicalLeaves_primitive _ hcanonical⟩
      · exact PrimitiveType.ofTag?_eq_some_iff.2 rfl
      · rw [room]
        exact length_frame_le_roomAround _ hlength
  | any =>
      have htag : override.all (· == override.getD .null) = true := by
        cases override with
        | none => rfl
        | some tag => exact beq_self_eq_true tag
      exact ⟨.any ⟨override.getD .null, false, []⟩, proper_any htag⟩
  | @sequence name fields hdistinct hfixed _ ih =>
      obtain ⟨values, hvalues⟩ := exists_values hfixed ih
      -- The required fields are enough.
      refine ⟨.sequence (.ofPicks fields fun field => if field.optional then none else some (values field)),
        proper_ofPicks hdistinct hfixed ?_ ?_ override⟩
      · intro field _ hpick
        by_contra hrequired
        simp [hrequired] at hpick
      · intro field hfield value type hpick htype
        obtain ⟨-, rfl⟩ : field.optional = false ∧ values field = value := by
          simpa using hpick
        exact hvalues field hfield type htype

/-- **A proper value of a field is part of a proper sequence** in which no other optional field is present. -/
theorem exists_proper_with {name : String} (hschema : (sequence name fields).Simple) {field : Field Schema}
    (hfield : field ∈ fields) {value : Value}
    (hvalue : ∀ type, field.type = .fixed type → field.Proper type value) :
    ∃ given : Sequence Value, (∀ override, (sequence name fields).Proper override (.sequence given)) ∧
      given.get? field.name = some value ∧
      ∀ other ∈ fields, other.name ≠ field.name → other.optional = true → given.get? other.name = none := by
  obtain ⟨values, hvalues⟩ := exists_values hschema.fixed fun field hfield type htype override =>
    exists_proper (hschema.types field hfield type htype) override
  let pick (other : Field Schema) : Option Value :=
    if other.name = field.name then some value
    else if other.optional then none else some (values other)
  have heq {other : Field Schema} (hother : other ∈ fields) (hname : other.name = field.name) :
      other = field :=
    List.inj_on_of_nodup_map hschema.distinct hother hfield hname
  refine ⟨.ofPicks fields pick, proper_ofPicks hschema.distinct hschema.fixed ?_ ?_, ?_, ?_⟩
  · intro other _ hpick
    by_contra hrequired
    simp only [pick, hrequired] at hpick
    split at hpick <;> simp at hpick
  · intro other hother found type hpick htype
    by_cases hname : other.name = field.name
    · simp only [pick, if_pos hname, Option.some.injEq] at hpick
      rw [heq hother hname] at htype ⊢
      rw [← hpick]
      exact hvalue type htype
    · obtain ⟨-, rfl⟩ : other.optional = false ∧ values other = found := by
        simpa [pick, hname] using hpick
      exact hvalues other hother type htype
  · rw [Sequence.get?_ofPicks hschema.distinct hfield]
    exact if_pos rfl
  · intro other hother hname hoptional
    rw [Sequence.get?_ofPicks hschema.distinct hother]
    exact (if_neg hname).trans (if_pos hoptional)

end Schema

end Asn1
