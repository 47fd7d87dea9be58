import Asn1.Proofs.Schema.Orderly

/-!
# `Asn1.Proofs.Schema.Misreading` — an ambiguous field has a value that is lost

Decoding looks at one tag to tell whether an optional field is there. Where the check for ambiguous fields
complains, there is a value that shows why: the optional field is absent, and what follows it starts with its
tag. Decoding cannot pass over the field at this place, so nothing is decoded to the value.

## Contents
- **Lost values.** `Schema.Lost`; a sequence is lost if an item of a field is (`Schema.lost_of_item`), or if
  an absent field is hidden behind one that starts like it (`Schema.lost_of_hidden`).
- **Ambiguous fields.** What the check finds, and a value for the field that hides another one.
- **Result.** `Schema.exists_lost` by induction over the types, `Schema.exists_misread` for what is decoded, with
  a bound for the octets. `Schema.Misread.ambiguousField?_ne_none` is the other direction.
-/

namespace Asn1

/-! ## Lost values -/

namespace Schema

/-- Nothing is decoded to the value. -/
def Lost (schema : Schema) (value : Value) : Prop :=
  ∀ mode override octets decoded, schema.Derives (.byTag mode) mode override octets decoded →
    decoded.same value = false

end Schema

/-- What is the same as a value by itself, or in a repetition, has an item that is the same. -/
theorem Field.exists_mem_parts_of_same {σ : Type} {field : Field σ} {found value : Value}
    (h : found.same (field.single value) = true) : ∃ item ∈ field.parts found, item.same value = true := by
  unfold Field.single at h
  unfold Field.parts
  have hone {items : List Value} (h : Value.sameItems items [value] = true) :
      ∃ item ∈ items, item.same value = true := by
    cases items with
    | nil => cases h
    | cons item rest =>
        simp only [Value.sameItems, Bool.and_eq_true] at h
        exact ⟨item, List.mem_cons_self, h.1⟩
  cases hrepetition : field.repetition with
  | single =>
      simp only [hrepetition] at h
      exact ⟨found, List.mem_singleton_self found, h⟩
  | setOf =>
      simp only [hrepetition] at h
      cases found with
      | setOf items => exact hone h
      | _ => cases h
  | sequenceOf =>
      simp only [hrepetition] at h
      cases found with
      | sequenceOf items => exact hone h
      | _ => cases h

/-- A field is not passed over by its tag where the next value starts with it. -/
theorem OmissionRule.not_byTag_of_startsWith {mode : Mode} {field : Field Schema} {type : Schema}
    {known : Sequence Value} {front rest : Octets} (htype : field.resolve? known = some type)
    (h : StartsWith mode (field.outerTag? type) front) : ¬ byTag mode field known (front ++ rest) := by
  rintro (hnil | ⟨found, tag, header, after, hfound, htag, hheader, hother⟩)
  · exact h.ne_nil (List.append_eq_nil_iff.1 hnil).1
  · obtain ⟨identifier, content, hframe, hstarts⟩ := h
    obtain rfl := Option.some.inj (htype.symm.trans hfound)
    rw [hframe.takeOctets_append rest] at hheader
    rw [htag] at hstarts
    apply hother
    rw [← (Prod.mk.inj (Except.ok.inj hheader)).1]
    exact (beq_iff_eq.1 hstarts).symm

namespace Schema

section Fields

variable {rule : OmissionRule} {mode : Mode} {known given : Sequence Value} {octets : Octets}

/-- A derivation of fields gets to those further on, and knows only fields before them. -/
theorem DerivesFields.exists_after {before after : List (Field Schema)}
    (h : DerivesFields rule mode (before ++ after) known octets given) :
    ∃ reached rest, DerivesFields rule mode after reached rest given ∧
      ∀ name, (∀ field ∈ before, field.name ≠ name) → reached.get? name = known.get? name := by
  induction before generalizing known octets with
  | nil => exact ⟨known, octets, h, fun _ _ => rfl⟩
  | cons field before ih =>
      rcases derivesFields_cons.1 h with ⟨-, -, h⟩ | ⟨type, first, others, value, -, -, -, h⟩
      · obtain ⟨reached, rest, hrest, hknown⟩ := ih h
        exact ⟨reached, rest, hrest, fun name hname => hknown name fun other hother =>
          hname other (List.mem_cons_of_mem _ hother)⟩
      · obtain ⟨reached, rest, hrest, hknown⟩ := ih h
        refine ⟨reached, rest, hrest, fun name hname => ?_⟩
        rw [hknown name fun other hother => hname other (List.mem_cons_of_mem _ hother),
          Sequence.get?_push, if_neg (hname field List.mem_cons_self).symm, Option.or_none]

/-- Behind absent fields, the octets start with the first one that is there. -/
theorem DerivesFields.exists_first {absent after : List (Field Schema)} {next : Field Schema}
    {value : Value} (h : DerivesFields rule mode (absent ++ next :: after) known octets given)
    (habsent : ∀ field ∈ absent, given.get? field.name = none) (hnext : given.get? next.name = some value)
    (hnew : known.get? next.name = none) (hother : ∀ field ∈ after, field.name ≠ next.name) :
    ∃ type ∈ next.type.types, ∃ first others, octets = first ++ others ∧
      next.Derives (Framed mode) (type.Derives rule mode) first value := by
  induction absent with
  | nil =>
      rcases derivesFields_cons.1 h with ⟨-, -, h⟩ | ⟨type, first, others, found, htype, hoctets, hfield, h⟩
      · rw [h.get?_of_not_mem hother, hnew] at hnext
        cases hnext
      · have hfound : given.get? next.name = some found := by
          apply h.get?_of_known
          rw [Sequence.get?_push, hnew, if_pos rfl, Option.none_or]
        obtain rfl := Option.some.inj (hfound.symm.trans hnext)
        exact ⟨type, Field.resolve?_mem htype, first, others, hoctets, hfield⟩
  | cons field absent ih =>
      rcases derivesFields_cons.1 h with ⟨-, -, h⟩ | ⟨type, first, others, found, -, -, -, h⟩
      · exact ih h fun other hmem => habsent other (List.mem_cons_of_mem _ hmem)
      · exact absurd (habsent field List.mem_cons_self) h.get?_ne_none

end Fields

variable {typeName : String} {given : Sequence Value}

/-- A sequence is decoded to the same data only from fields that hold them. -/
theorem lost_of_derivesFields {fields : List (Field Schema)}
    (h : ∀ mode octets decoded, DerivesFields (.byTag mode) mode fields .empty octets decoded →
      ¬ Value.sameFields decoded.fields given.fields = true) :
    (sequence typeName fields).Lost (.sequence given) := by
  intro mode override octets decoded hderives
  obtain ⟨content, found, -, hfields, rfl⟩ := derives_sequence.1 hderives
  exact Bool.eq_false_iff.2 (h mode content found hfields)

/-- **A sequence is lost if an item in it is.** -/
theorem lost_of_item {fields : List (Field Schema)} {field : Field Schema} {type : Schema} {item : Value}
    (hdistinct : Field.DistinctNames fields) (hfield : field ∈ fields) (htype : field.type = .fixed type)
    (hitem : type.Lost item) (hget : given.get? field.name = some (field.single item)) :
    (sequence typeName fields).Lost (.sequence given) := by
  apply lost_of_derivesFields
  intro mode octets decoded hfields hsame
  rcases Value.lookup_of_sameFields hsame field.name with ⟨-, hnone⟩ | ⟨found, value, hfound, hvalue, hsame⟩
  · cases hget.symm.trans hnone
  · obtain rfl := Option.some.inj (hget.symm.trans hvalue)
    obtain ⟨inner, hinner, hitemSame⟩ := Field.exists_mem_parts_of_same hsame
    obtain ⟨before, after, hentries, -⟩ := List.lookup_eq_some_iff.1 hfound
    have hentry : (field.name, found) ∈ decoded.fields := by
      rw [hentries]
      exact List.mem_append_right _ List.mem_cons_self
    rcases hfields.mem_fields hentry with hknown | ⟨other, hother, otherType, hotherType, part, hname, hpart⟩
    · cases hknown
    · obtain rfl : other = field := List.inj_on_of_nodup_map hdistinct hother hfield hname.symm
      rw [htype, FieldType.types, List.mem_singleton] at hotherType
      subst hotherType
      obtain ⟨octets, hderives, -⟩ := hpart.exists_of_mem_parts (Framing.encloses_framed mode) hinner
      exact Bool.eq_false_iff.1 (hitem mode other.itemTag? octets inner hderives) hitemSame

/-- **A sequence is lost if an absent field is hidden** behind the next field that is there, as that starts
    with its tag. -/
theorem lost_of_hidden {before absent after : List (Field Schema)} {field next : Field Schema}
    {type : Schema} {value : Value}
    (hdistinct : Field.DistinctNames (before ++ field :: (absent ++ next :: after)))
    (htype : field.type = .fixed type)
    (habsent : ∀ other ∈ field :: absent, given.get? other.name = none)
    (hnext : given.get? next.name = some value)
    (hstarts : ∀ mode nextType first found, nextType ∈ next.type.types →
      next.Derives (Framed mode) (nextType.Derives (.byTag mode) mode) first found →
        found.same value = true → StartsWith mode (field.outerTag? type) first) :
    (sequence typeName (before ++ field :: (absent ++ next :: after))).Lost (.sequence given) := by
  apply lost_of_derivesFields
  intro mode octets decoded hfields hsame
  have hnone (other : Field Schema) (hother : other ∈ field :: absent) :
      decoded.get? other.name = none := by
    rcases Value.lookup_of_sameFields hsame other.name with ⟨hnone, -⟩ | ⟨_, found, -, hfound, -⟩
    · exact hnone
    · cases (habsent other hother).symm.trans hfound
  obtain ⟨found, hfound, hsame⟩ : ∃ found, decoded.get? next.name = some found ∧
      found.same value = true := by
    rcases Value.lookup_of_sameFields hsame next.name with ⟨-, hnone⟩ | ⟨found, other, hfound, hother, hsame⟩
    · cases hnext.symm.trans hnone
    · obtain rfl := Option.some.inj (hnext.symm.trans hother)
      exact ⟨found, hfound, hsame⟩
  obtain ⟨reached, rest, hrest, hknown⟩ := hfields.exists_after
  have hmiddle : Field.DistinctNames ((before ++ field :: absent) ++ next :: after) := by
    rw [List.append_assoc]
    exact hdistinct
  have hnew : reached.get? next.name = none :=
    hknown next.name fun other hother => hmiddle.ne (.inl (List.mem_append_left _ hother))
  rcases derivesFields_cons.1 hrest with ⟨-, hrule, hrest⟩ | ⟨_, _, _, _, -, -, -, hrest⟩
  · obtain ⟨nextType, hnextType, first, others, rfl, hfirst⟩ := hrest.exists_first
      (fun other hother => hnone other (List.mem_cons_of_mem _ hother)) hfound hnew
      fun other hother => hmiddle.ne (.inr hother)
    have hstart := hstarts mode nextType first found hnextType hfirst hsame
    exact OmissionRule.not_byTag_of_startsWith (Field.resolve?_of_fixed htype reached) hstart hrule
  · exact hrest.get?_ne_none (hnone field List.mem_cons_self)

end Schema

/-! ## Ambiguous fields -/

namespace Field

/-- An ambiguous field is found in one of the types, or among the fields themselves. -/
theorem exists_of_firstAmbiguous? {fields : List (Field Schema)} (h : firstAmbiguous? fields ≠ none) :
    ∃ before field after, fields = before ++ field :: after ∧
      ((∃ type ∈ field.type.types, type.ambiguousField? ≠ none) ∨ field.isAmbiguous after = true) := by
  induction fields with
  | nil =>
      rw [firstAmbiguous?] at h
      exact absurd rfl h
  | cons field rest ih =>
      by_cases htypes : ∃ type ∈ field.type.types, type.ambiguousField? ≠ none
      · exact ⟨[], field, rest, rfl, .inl htypes⟩
      · cases hambiguous : field.isAmbiguous rest with
        | true => exact ⟨[], field, rest, rfl, .inr hambiguous⟩
        | false =>
            have hrest : firstAmbiguous? rest ≠ none := fun hnone => h (firstAmbiguous?_cons.2
              ⟨fun type htype => by_contra fun hne => htypes ⟨type, htype, hne⟩, hambiguous, hnone⟩)
            obtain ⟨before, other, after, rfl, hother⟩ := ih hrest
            exact ⟨field :: before, other, after, rfl, hother⟩

theorem outerTags?_of_fixed {field : Field Schema} {type : Schema} (h : field.type = .fixed type) :
    field.outerTags? = (field.outerTag? type).map ([·]) := by
  rw [outerTags?, h, FieldType.types, List.mapM_cons]
  cases field.outerTag? type <;> rfl

/-- A tag clashes with a field behind optional ones, which has the same tag if it has just one. -/
theorem exists_of_clashes {tag : Tag} {following : List (Field Schema)}
    (hfixed : ∀ field ∈ following, ∃ type, field.type = .fixed type) (h : clashes [tag] following = true) :
    ∃ absent next after type, following = absent ++ next :: after ∧
      (∀ field ∈ absent, field.optional = true) ∧ next.type = .fixed type ∧
      (next.outerTag? type).all (· == tag) = true := by
  induction following with
  | nil => cases h
  | cons next rest ih =>
      obtain ⟨type, htype⟩ := hfixed next List.mem_cons_self
      rw [clashes, outerTags?_of_fixed htype] at h
      by_cases htag : (next.outerTag? type).all (· == tag) = true
      · exact ⟨[], next, rest, type, rfl, by simp, htype, htag⟩
      · -- Another tag is no clash, so the field is optional and one further on clashes.
        obtain ⟨hoptional, hrest⟩ : next.optional = true ∧ clashes [tag] rest = true := by
          cases houter : next.outerTag? type with
          | none => simp [houter] at htag
          | some other => simpa [houter, show other ≠ tag by simpa [houter] using htag] using h
        obtain ⟨absent, found, after, foundType, rfl, habsent, hfound⟩ :=
          ih (fun field hfield => hfixed field (List.mem_cons_of_mem _ hfield)) hrest
        exact ⟨next :: absent, found, after, foundType, rfl, List.forall_mem_cons.2 ⟨hoptional, habsent⟩,
          hfound⟩

/-- An ambiguous field is optional, and a field behind optional ones may start as it does. -/
theorem exists_of_isAmbiguous {field : Field Schema} {type : Schema} {following : List (Field Schema)}
    (htype : field.type = .fixed type) (hfixed : ∀ field ∈ following, ∃ type, field.type = .fixed type)
    (h : field.isAmbiguous following = true) :
    field.optional = true ∧ ∃ absent next after nextType, following = absent ++ next :: after ∧
      (∀ field ∈ absent, field.optional = true) ∧ next.type = .fixed nextType ∧
      ∀ tag, field.outerTag? type = some tag → (next.outerTag? nextType).all (· == tag) = true := by
  unfold isAmbiguous at h
  obtain ⟨hoptional, h⟩ := Bool.and_eq_true_iff.1 h
  refine ⟨hoptional, ?_⟩
  rw [outerTags?_of_fixed htype] at h
  cases houter : field.outerTag? type with
  | none =>
      cases following with
      | nil => simp [houter] at h
      | cons next rest =>
          obtain ⟨nextType, hnext⟩ := hfixed next List.mem_cons_self
          exact ⟨[], next, rest, nextType, rfl, by simp, hnext, by simp⟩
  | some tag =>
      simp only [houter, Option.map_some] at h
      obtain ⟨absent, next, after, nextType, hfollowing, habsent, hnext, htag⟩ := exists_of_clashes hfixed h
      refine ⟨absent, next, after, nextType, hfollowing, habsent, hnext, fun other hother => ?_⟩
      rwa [← Option.some.inj hother]

/-- Only a single value of any type may start with every tag. -/
theorem of_outerTag?_eq_none {field : Field Schema} {type : Schema} (h : field.outerTag? type = none) :
    field.tagging = none ∧ field.repetition = .single ∧ type = .any := by
  unfold outerTag? at h
  cases htagging : field.tagging with
  | some tagging => simp [htagging] at h
  | none =>
      simp only [htagging, Option.or_eq_none_iff] at h
      obtain ⟨hrepetition, hnatural⟩ := h
      refine ⟨rfl, ?_, ?_⟩
      · cases hfield : field.repetition with
        | single => rfl
        | setOf => simp [hfield, Repetition.tag?] at hrepetition
        | sequenceOf => simp [hfield, Repetition.tag?] at hrepetition
      · cases type with
        | any => rfl
        | primitive tag => cases hnatural
        | sequence name fields => cases hnatural

end Field

namespace Schema

/-- **A field that may start with a tag has a proper value that does.** -/
theorem exists_hiding {next : Field Schema} {type : Schema} (htype : type.Simple) {expected : Option Tag}
    (hexpected : ∀ tag, expected = some tag → (next.outerTag? type).all (· == tag) = true) :
    ∃ value, next.Proper type value ∧ ∀ mode first found,
      next.Derives (Framed mode) (type.Derives (.byTag mode) mode) first found →
        found.same value = true → StartsWith mode expected first := by
  cases houter : next.outerTag? type with
  | some tag =>
      -- Every value starts with the tag of the field.
      obtain ⟨value, hvalue⟩ := exists_proper htype next.itemTag?
      refine ⟨next.single value, Field.proper_single hvalue, fun mode first found hfirst _ => ?_⟩
      obtain ⟨identifier, content, hframe, htag⟩ := startsWith_of_field hfirst
      refine ⟨identifier, content, hframe, ?_⟩
      rw [houter] at htag hexpected
      cases expected with
      | none => rfl
      | some other =>
          rw [← beq_iff_eq.1 (hexpected other rfl)]
          exact htag
  | none =>
      -- A value of unknown type starts with its own tag.
      obtain ⟨htagging, hrepetition, rfl⟩ := Field.of_outerTag?_eq_none houter
      let value : AnyValue := ⟨expected.getD .null, false, []⟩
      have hitemTag : next.itemTag? = none := by
        rw [Field.itemTag?, hrepetition, Field.implicitTag?, htagging]
      have hproper : any.Proper next.itemTag? (.any value) := by
        apply proper_any
        rw [hitemTag]
        rfl
      refine ⟨next.single (.any value), Field.proper_single hproper, ?_⟩
      · intro mode first found hfirst hsame
        rw [Field.single, hrepetition] at hsame
        rw [Field.Derives, htagging, Field.DerivesRepeated, hrepetition] at hfirst
        obtain ⟨inner, hframe, -, rfl⟩ := derives_any.1 hfirst
        obtain rfl : inner = value := beq_iff_eq.1 hsame
        refine ⟨_, _, hframe, ?_⟩
        cases expected with
        | none => rfl
        | some tag => exact beq_self_eq_true tag

/-! ## Result -/

/-- A lost item of a field is part of a sequence that is lost. -/
theorem exists_lost_of_item {fields : List (Field Schema)} (hschema : (sequence typeName fields).Simple)
    {field : Field Schema} {type : Schema} {item : Value} (hfield : field ∈ fields)
    (htype : field.type = .fixed type) (hproper : ∀ override, type.Proper override item)
    (hlost : type.Lost item) :
    ∃ value, (∀ override, (sequence typeName fields).Proper override value) ∧
      (sequence typeName fields).Lost value := by
  have hitem (other : Schema) (hother : field.type = .fixed other) :
      field.Proper other (field.single item) := by
    rw [htype] at hother
    rw [← FieldType.fixed.inj hother]
    exact Field.proper_single (hproper field.itemTag?)
  obtain ⟨given, hgiven, hget, -⟩ := exists_proper_with hschema hfield hitem
  exact ⟨.sequence given, hgiven, lost_of_item hschema.distinct hfield htype hlost hget⟩

/-- A sequence is lost that leaves out an ambiguous field, and has the one that it is mistaken for. -/
theorem exists_lost_of_isAmbiguous {before after : List (Field Schema)} {field : Field Schema}
    (hschema : (sequence typeName (before ++ field :: after)).Simple)
    (hambiguous : field.isAmbiguous after = true) :
    ∃ value, (∀ override, (sequence typeName (before ++ field :: after)).Proper override value) ∧
      (sequence typeName (before ++ field :: after)).Lost value := by
  have hmem {other : Field Schema} (hother : other ∈ field :: after) : other ∈ before ++ field :: after :=
    List.mem_append_right _ hother
  obtain ⟨type, htype⟩ := hschema.fixed field (hmem List.mem_cons_self)
  obtain ⟨hoptional, absent, next, rest, nextType, rfl, habsent, hnext, htags⟩ :=
    Field.exists_of_isAmbiguous htype
      (fun other hother => hschema.fixed other (hmem (List.mem_cons_of_mem _ hother))) hambiguous
  have hnextMem : next ∈ before ++ field :: (absent ++ next :: rest) := hmem (by simp)
  have hnextSimple : nextType.Simple :=
    hschema.types next hnextMem nextType (by simp [hnext, FieldType.types])
  obtain ⟨value, hproper, hstarts⟩ := exists_hiding hnextSimple htags
  have hvalue (other : Schema) (hother : next.type = .fixed other) : next.Proper other value := by
    rw [hnext] at hother
    rwa [← FieldType.fixed.inj hother]
  obtain ⟨given, hgiven, hget, hnone⟩ := exists_proper_with hschema hnextMem hvalue
  refine ⟨.sequence given, hgiven, lost_of_hidden hschema.distinct htype ?_ hget ?_⟩
  · intro other hother
    have hmiddle : Field.DistinctNames ((before ++ field :: absent) ++ next :: rest) := by
      rw [List.append_assoc]
      exact hschema.distinct
    apply hnone other (hmem (List.mem_append_left _ hother))
    · exact hmiddle.ne (.inl (List.mem_append_right _ hother))
    · rcases List.mem_cons.1 hother with rfl | hother
      · exact hoptional
      · exact habsent other hother
  · intro mode foundType first found hfoundType hfirst hsame
    rw [hnext, FieldType.types, List.mem_singleton] at hfoundType
    subst hfoundType
    exact hstarts mode first found hfirst hsame

/-- **A simple type with an ambiguous field has a proper value that is lost.** -/
theorem exists_lost {schema : Schema} (hschema : schema.Simple)
    (hambiguous : schema.ambiguousField? ≠ none) :
    ∃ value, (∀ override, schema.Proper override value) ∧ schema.Lost value := by
  induction hschema with
  | primitive type =>
      rw [ambiguousField?] at hambiguous
      exact absurd rfl hambiguous
  | any =>
      rw [ambiguousField?] at hambiguous
      exact absurd rfl hambiguous
  | @sequence name fields hdistinct hfixed htypes ih =>
      have hschema : (sequence name fields).Simple := .sequence hdistinct hfixed htypes
      rw [ambiguousField?] at hambiguous
      obtain ⟨before, field, after, rfl, ⟨type, htype, hnested⟩ | hfound⟩ :=
        Field.exists_of_firstAmbiguous? hambiguous
      · have hfield : field ∈ before ++ field :: after := List.mem_append_right _ List.mem_cons_self
        obtain ⟨item, hproper, hlost⟩ := ih field hfield type htype hnested
        obtain ⟨found, hfound⟩ := hfixed field hfield
        rw [hfound, FieldType.types, List.mem_singleton] at htype
        subst htype
        exact exists_lost_of_item hschema hfield hfound hproper hlost
      · exact exists_lost_of_isAmbiguous hschema hfound

/-- The value is encoded, as it should be and with room to spare, to octets that are not decoded to it. -/
structure Misread (schema : Schema) (value : Value) (octets : Octets) : Prop where
  encoded : schema.encode value = .ok octets
  length_le : octets.length ≤ schema.room
  orderly : schema.Orderly none value
  canonical : schema.HasCanonicalLeaves value
  lost : ∀ mode decoded, schema.decode mode octets = .ok decoded → decoded.same value = false

/-- **Only a type with an ambiguous field has misread values**, unless it has room for more octets than the
    largest length counts. -/
theorem Misread.ambiguousField?_ne_none {schema : Schema} {value : Value} {octets : Octets}
    (h : schema.Misread value octets) (hschema : schema.Simple) (hroom : schema.room < 2 ^ 64) :
    schema.ambiguousField? ≠ none := by
  intro hnone
  have hdecode : schema.decode .der octets = .ok (schema.normal none value) :=
    decode_of_write hschema.dispatched hnone h.canonical (Nat.lt_of_le_of_lt h.length_le hroom) h.encoded
  have hlost := h.lost .der _ hdecode
  cases (h.orderly.same_normal hschema).symm.trans hlost

/-- **The check for ambiguous fields raises no false alarm.** A type without selectors, with distinct names
    and known primitive types, that has an ambiguous field at any depth, has a value as it should be whose
    encoding is not decoded to it. It takes no more octets than the type has room for: where these are less than
    2^64 no other type has such a value, by `Misread.ambiguousField?_ne_none`. -/
theorem exists_misread {schema : Schema} (hschema : schema.Simple) {name : String}
    (hambiguous : schema.ambiguousField? = some name) : ∃ value octets, schema.Misread value octets := by
  obtain ⟨value, hproper, hlost⟩ := exists_lost hschema (by rw [hambiguous]; exact Option.some_ne_none name)
  obtain ⟨octets, hwrite, hlength⟩ := (hproper none).writes schema.name
  refine ⟨value, octets, encode_eq_ok_iff.2 hwrite, hlength, (hproper none).orderly, (hproper none).canonical, ?_⟩
  intro mode decoded hdecode
  exact hlost mode none octets decoded (decode_eq_ok_iff.1 hdecode)

/-- A sequence in which the first of two optional fields has the tag of the required one. -/
def twoOptional : Schema :=
  .sequence "TwoOptional"
    [{ name := "a", type := .fixed (.primitive .integer), optional := true,
       tagging := some ⟨.implicit, .contextSpecific 1⟩ },
     { name := "b", type := .fixed (.primitive .boolean), optional := true },
     { name := "c", type := .fixed (.primitive .integer), tagging := some ⟨.implicit, .contextSpecific 1⟩ }]

/-- A SET OF such sequences. -/
def twoOptionals : Schema :=
  .sequence "TwoOptionals" [{ name := "items", repetition := .setOf, type := .fixed twoOptional }]

/-- A sequence with the required field only. -/
def requiredItem : Value := .sequence ⟨[("c", .integer (.ofUnsigned [7]))], none⟩

/-- A set of one such sequence. -/
def onlyRequired : Value := .sequence ⟨[("items", .setOf [requiredItem])], none⟩

/-- The encoding of `onlyRequired`. -/
def onlyRequiredOctets : Octets := [0x30, 0x07, 0x31, 0x05, 0x30, 0x03, 0x81, 0x01, 0x07]

/-- The ambiguous field is nested in a repetition, and another optional field stands between the two. The number
    in the required field is taken for that of the optional one, and then nothing is left for the required field. -/
theorem exists_misread_twoOptionals :
    twoOptionals.Simple ∧ twoOptionals.ambiguousField? = some "a" ∧ twoOptionals.room = 94 ∧
      (∃ value octets, twoOptionals.Misread value octets) ∧
      twoOptionals.Misread onlyRequired onlyRequiredOctets ∧
      ∀ mode, twoOptionals.decode mode onlyRequiredOctets = .error ⟨.truncated, 9⟩ := by
  have hinteger : (primitive .integer).Simple := .primitive .integer
  have hboolean : (primitive .boolean).Simple := .primitive .boolean
  have hitem : twoOptional.Simple := by
    refine .sequence (by decide) (by simp) ?_
    simp [FieldType.types, hinteger, hboolean]
  have hsimple : twoOptionals.Simple := by
    refine .sequence (by decide) (by simp) ?_
    simp [FieldType.types, hitem]
  have hambiguous : twoOptionals.ambiguousField? = some "a" := by decide +kernel
  have hroom : twoOptionals.room = 94 := by cbv
  have horderly : twoOptional.Orderly none requiredItem := by
    refine .sequence (by decide) ?_
    simp [Field.lookup_eq_some_iff, Sequence.get?, Field.resolve?, Orderly.primitive]
  have hnumber : (primitive .integer).HasCanonicalLeaves (.integer (.ofUnsigned [7])) :=
    hasCanonicalLeaves_primitive _ trivial
  have hcanonical : twoOptional.HasCanonicalLeaves requiredItem := by
    refine hasCanonicalLeaves_sequence.2 ?_
    simp [Field.lookup_eq_some_iff, Sequence.get?, List.lookup_cons, Field.resolve?, Field.parts, hnumber]
  have hlost (mode : Mode) : twoOptionals.decode mode onlyRequiredOctets = .error ⟨.truncated, 9⟩ := by
    cases mode with
    | ber => cbv
    | der => cbv
  have hmisread : twoOptionals.Misread onlyRequired onlyRequiredOctets := by
    constructor
    · decide +kernel
    · rw [hroom]
      decide
    · refine .sequence (by decide) ?_
      simp [Field.lookup_eq_some_iff, Sequence.get?, Field.resolve?, Field.parts, Field.itemTag?, horderly]
    · refine hasCanonicalLeaves_sequence.2 ?_
      simp [Field.lookup_eq_some_iff, Sequence.get?, Field.resolve?, Field.parts, hcanonical]
    · intro mode decoded hdecode
      cases (hlost mode).symm.trans hdecode
  exact ⟨hsimple, hambiguous, hroom, exists_misread hsimple hambiguous, hmisread, hlost⟩

end Schema

end Asn1
