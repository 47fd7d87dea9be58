import Asn1.Proofs.Schema.Reproduction
import Asn1.Proofs.Schema.RoundTrip
import Asn1.Proofs.Schema.Uniqueness

/-!
# `Asn1.Proofs.Schema.Gap` — optional fields that find no type

The encoder looks for the value of a field first and asks for its type only if there is one. The decoder asks
for the type first, to know the tag that it has to look for, unless nothing is left. So an optional field
that is absent gets in the way of decoding if its selector finds no type and a field after it is there: the
value has a gap.

## Contents
- **Gaps.** `Field.HasGap` for the fields of one sequence, `Schema.HasGap` at any depth.
- **Fields derived.** What a derivation says about the fields that are absent.
- **Rules.** `Schema.derives_byTag_iff`: fields are passed over by their tags exactly where there is no gap.
- **Normal forms.** A value has a gap exactly if its normal form has.
- **Result.** `Schema.decode_eq_ok_iff_not_hasGap`.
-/

namespace Asn1

/-! ## Gaps -/

/-- Some field is absent and finds no type, and a field after it is there. -/
def Field.HasGap (given : Sequence Value) : List (Field Schema) → Prop
  | [] => False
  | field :: rest =>
    (given.get? field.name = none ∧ field.resolve? given = none ∧
      ∃ later ∈ rest, given.get? later.name ≠ none) ∨ HasGap given rest

/-- The value has a gap between its fields, or between those of a sequence inside it. -/
inductive Schema.HasGap : Schema → Value → Prop
  | here {name : String} {fields : List (Field Schema)} {given : Sequence Value} :
      Field.HasGap given fields → HasGap (.sequence name fields) (.sequence given)
  | inside {name : String} {fields : List (Field Schema)} {given : Sequence Value} {field : Field Schema}
      {value item : Value} {type : Schema} : field ∈ fields →
      field.lookup given = .ok (some (value, type)) → item ∈ field.parts value → HasGap type item →
      HasGap (.sequence name fields) (.sequence given)

/-- A gap is the same in sequences that have the same fields and choose alike. -/
theorem Field.hasGap_congr {fields : List (Field Schema)} {given other : Sequence Value}
    (hget : ∀ field ∈ fields, given.get? field.name = none ↔ other.get? field.name = none)
    (hresolve : ∀ field ∈ fields, field.resolve? given = field.resolve? other) :
    HasGap given fields ↔ HasGap other fields := by
  induction fields with
  | nil => exact Iff.rfl
  | cons field rest ih =>
      have hrest := ih (fun later hlater => hget later (List.mem_cons_of_mem _ hlater))
        fun later hlater => hresolve later (List.mem_cons_of_mem _ hlater)
      rw [HasGap, HasGap, hrest, hget field List.mem_cons_self, hresolve field List.mem_cons_self]
      refine or_congr_left (and_congr_right fun _ => and_congr_right fun _ => ?_)
      refine exists_congr fun later => and_congr_right fun hlater => not_congr ?_
      exact hget later (List.mem_cons_of_mem _ hlater)

/-- What was captured makes no difference. -/
theorem Field.hasGap_capture {fields : List (Field Schema)} {given : Sequence Value} (octets : Octets) :
    HasGap (given.capture octets) fields ↔ HasGap given fields :=
  hasGap_congr (fun _ _ => by rw [Sequence.get?_capture])
    fun _ _ => resolve?_congr fun _ _ => Sequence.get?_capture given octets _

namespace Schema

theorem not_hasGap_primitive (tag : Tag) (value : Value) : ¬ (primitive tag).HasGap value := by
  rintro ⟨⟩

theorem not_hasGap_any (value : Value) : ¬ any.HasGap value := by
  rintro ⟨⟩

theorem hasGap_sequence {name : String} {fields : List (Field Schema)} {given : Sequence Value} :
    (sequence name fields).HasGap (.sequence given) ↔ Field.HasGap given fields ∨
      ∃ field ∈ fields, ∃ value type, field.lookup given = .ok (some (value, type)) ∧
        ∃ item ∈ field.parts value, type.HasGap item := by
  constructor
  · rintro (hgap | ⟨hfield, hlookup, hitem, hgap⟩)
    · exact .inl hgap
    · exact .inr ⟨_, hfield, _, _, hlookup, _, hitem, hgap⟩
  · rintro (hgap | ⟨field, hfield, value, type, hlookup, item, hitem, hgap⟩)
    · exact .here hgap
    · exact .inside hfield hlookup hitem hgap

/-- If no type in a sequence can have a gap, then only the sequence itself can. -/
theorem hasGap_sequence_of_leaves {name : String} {fields : List (Field Schema)} {given : Sequence Value}
    (hleaves : ∀ field ∈ fields, ∀ type ∈ field.type.types, ∀ value, ¬ type.HasGap value) :
    (sequence name fields).HasGap (.sequence given) ↔ Field.HasGap given fields := by
  refine hasGap_sequence.trans (or_iff_left ?_)
  rintro ⟨field, hfield, value, type, hlookup, item, -, hgap⟩
  exact hleaves field hfield type (Field.resolve?_mem (Field.lookup_eq_some_iff.1 hlookup).2) item hgap

/-! ## Fields derived -/

section Fields

variable {rule : OmissionRule} {mode : Mode} {fields : List (Field Schema)}
  {known given : Sequence Value} {octets : Octets}

/-- If no field is there, there is nothing. -/
theorem DerivesFields.eq_nil_of_absent (h : DerivesFields rule mode fields known octets given)
    (habsent : ∀ field ∈ fields, given.get? field.name = none) : octets = [] := by
  induction fields generalizing known octets with
  | nil => exact (derivesFields_nil.1 h).1
  | cons field rest ih =>
      rcases derivesFields_cons.1 h with ⟨-, -, h⟩ | ⟨type, first, others, value, -, -, -, h⟩
      · exact ih h fun later hlater => habsent later (List.mem_cons_of_mem _ hlater)
      · exact absurd (habsent field List.mem_cons_self) h.get?_ne_none

/-- If there is nothing, no field is there. -/
theorem DerivesFields.eq_of_nil (h : DerivesFields rule mode fields known [] given) : given = known := by
  induction fields with
  | nil => exact (derivesFields_nil.1 h).2
  | cons field rest ih =>
      rcases derivesFields_cons.1 h with ⟨-, -, h⟩ | ⟨type, first, others, value, -, hnil, hfield, -⟩
      · exact ih h
      · exact absurd (List.append_eq_nil_iff.1 hnil.symm).1 (startsWith_of_field hfield).ne_nil

/-- A selector that refers to neither a field nor those after it chooses as it did before them. -/
theorem DerivesFields.resolve?_eq {field : Field Schema}
    (h : DerivesFields rule mode fields known octets given)
    (hselector : ∀ selector, field.type = .selected selector →
      ∀ other ∈ field :: fields, other.name ≠ selector.field) :
    field.resolve? given = field.resolve? known := by
  refine Field.resolve?_congr fun selector hselected => ?_
  exact h.get?_of_not_mem fun other hother => hselector selector hselected other (List.mem_cons_of_mem _ hother)

/-- A field that is found in the sequence was derived. -/
theorem DerivesFields.exists_of_lookup (hdistinct : Field.DistinctNames fields)
    (hbackward : Field.SelectsBackward fields) (hnew : ∀ field ∈ fields, known.get? field.name = none)
    {full : Sequence Value} (hfull : ∀ name, full.get? name = given.get? name)
    (h : DerivesFields rule mode fields known octets given) {field : Field Schema} (hfield : field ∈ fields)
    {value : Value} {type : Schema} (hlookup : field.lookup full = .ok (some (value, type))) :
    ∃ part, field.Derives (Framed mode) (type.Derives rule mode) part value := by
  induction fields generalizing known octets with
  | nil => cases hfield
  | cons first rest ih =>
      obtain ⟨hother, hdistinct⟩ := Field.distinctNames_cons.1 hdistinct
      obtain ⟨hselector, hbackward⟩ := hbackward
      have hnewFirst := hnew first List.mem_cons_self
      have hnewRest := fun later hlater => hnew later (List.mem_cons_of_mem _ hlater)
      rcases derivesFields_cons.1 h with
        ⟨hoptional, -, hrest⟩ | ⟨found, part, _, foundValue, hfound, -, hpart, hrest⟩
      · rcases List.mem_cons.1 hfield with rfl | hmem
        · rw [hrest.lookup_eq_none hother hnewFirst hoptional hfull] at hlookup
          cases hlookup
        · exact ih hdistinct hbackward hnewRest hrest hmem
      · rcases List.mem_cons.1 hfield with rfl | hmem
        · rw [hrest.lookup_eq_some hselector hnewFirst hfound hfull] at hlookup
          obtain ⟨rfl, rfl⟩ := Prod.mk.inj (Option.some.inj (Except.ok.inj hlookup))
          exact ⟨part, hpart⟩
        · exact ih hdistinct hbackward (Field.get?_push_of_new hother hnewRest) hrest hmem

/-! ## Rules -/

/-- Fields that are passed over by their tags leave no gap. -/
theorem DerivesFields.not_hasGap (hdistinct : Field.DistinctNames fields)
    (hbackward : Field.SelectsBackward fields) (hnew : ∀ field ∈ fields, known.get? field.name = none)
    (h : DerivesFields (.byTag mode) mode fields known octets given) : ¬ Field.HasGap given fields := by
  induction fields generalizing known octets with
  | nil => exact id
  | cons field rest ih =>
      obtain ⟨hother, hdistinct⟩ := Field.distinctNames_cons.1 hdistinct
      obtain ⟨hselector, hbackward⟩ := hbackward
      have hnewRest := fun later hlater => hnew later (List.mem_cons_of_mem _ hlater)
      rcases derivesFields_cons.1 h with ⟨-, hrule, h⟩ | ⟨type, first, others, value, -, -, -, h⟩
      · -- A field is passed over because nothing follows, or because it has a type with another tag.
        rintro (⟨-, hnone, later, hlater, hthere⟩ | hgap)
        · rcases hrule with rfl | ⟨type, -, -, -, htype, -⟩
          · rw [h.eq_of_nil] at hthere
            exact hthere (hnewRest later hlater)
          · rw [h.resolve?_eq hselector, htype] at hnone
            cases hnone
        · exact ih hdistinct hbackward hnewRest h hgap
      · rintro (⟨hnone, -⟩ | hgap)
        · have hvalue : given.get? field.name = some value := by
            refine h.get?_of_known ?_
            rw [Sequence.get?_push, hnew field List.mem_cons_self, if_pos rfl, Option.none_or]
          rw [hvalue] at hnone
          cases hnone
        · exact ih hdistinct hbackward (Field.get?_push_of_new hother hnewRest) h hgap

/-- Without a gap, fields that are passed over at will are passed over by their tags, if the same is true for
    the items of the fields that are there. -/
theorem derivesFields_byTag_of_not_hasGap {full : Sequence Value}
    (hitems : ∀ field ∈ fields, ∀ value type, field.lookup full = .ok (some (value, type)) →
      ∀ override part item, item ∈ field.parts value → type.Derives .free mode override part item →
        type.Derives (.byTag mode) mode override part item)
    (hdistinct : Field.DistinctNames fields) (hbackward : Field.SelectsBackward fields)
    (hambiguous : Field.firstAmbiguous? fields = none)
    (hnew : ∀ field ∈ fields, known.get? field.name = none)
    (hfull : ∀ name, full.get? name = given.get? name) (hgap : ¬ Field.HasGap given fields)
    (h : DerivesFields .free mode fields known octets given) :
    DerivesFields (.byTag mode) mode fields known octets given := by
  induction fields generalizing known octets with
  | nil => exact derivesFields_nil.2 (derivesFields_nil.1 h)
  | cons field rest ih =>
      obtain ⟨hother, hdistinct⟩ := Field.distinctNames_cons.1 hdistinct
      obtain ⟨hselector, hbackward⟩ := hbackward
      obtain ⟨-, hfieldAmbiguous, hambiguous⟩ := Field.firstAmbiguous?_cons.1 hambiguous
      obtain ⟨hhere, hlater⟩ := not_or.1 hgap
      have hnewField := hnew field List.mem_cons_self
      have hnewRest := fun later hmem => hnew later (List.mem_cons_of_mem _ hmem)
      have ih {known : Sequence Value} {octets : Octets} :=
        @ih known octets (fun later hmem => hitems later (List.mem_cons_of_mem _ hmem))
          hdistinct hbackward hambiguous
      rw [derivesFields_cons]
      rcases derivesFields_cons.1 h with
        ⟨hoptional, -, h⟩ | ⟨type, first, others, value, htype, rfl, hfield, h⟩
      · -- Something follows only if a later field is there, and so the field finds a type.
        have hresolve (hne : octets ≠ []) : ∃ type, field.resolve? known = some type := by
          apply Option.ne_none_iff_exists'.1
          intro hnone
          apply hhere
          refine ⟨by rw [h.get?_of_not_mem hother, hnewField], by rw [h.resolve?_eq hselector, hnone], ?_⟩
          by_contra habsent
          apply hne
          apply h.eq_nil_of_absent
          intro later hmem
          by_contra hthere
          exact habsent ⟨later, hmem, hthere⟩
        exact .inl ⟨hoptional, byTag_of_isAmbiguous hoptional hfieldAmbiguous hresolve h,
          ih hnewRest hlater h⟩
      · refine .inr ⟨type, first, others, value, htype, rfl, ?_,
          ih (Field.get?_push_of_new hother hnewRest) hlater h⟩
        exact hfield.mono_parts (Framing.encloses_framed _) (fun _ _ _ hframe => hframe)
          (hitems field List.mem_cons_self value type (h.lookup_eq_some hselector hnewField htype hfull))

end Fields

/-- What is derived by passing over fields by their tags has no gap, at any depth. -/
theorem Derives.not_hasGap {schema : Schema} (hschema : schema.Everywhere Field.Ordered) {mode : Mode}
    {override : Option Tag} {octets : Octets} {value : Value}
    (h : schema.Derives (.byTag mode) mode override octets value) : ¬ schema.HasGap value := by
  intro hgap
  induction hgap generalizing override octets with
  | here hgap =>
      cases hschema with
      | sequence hordered _ =>
          obtain ⟨content, given, -, hfields, hvalue⟩ := derives_sequence.1 h
          obtain rfl := Value.sequence.inj hvalue
          apply hfields.not_hasGap hordered.distinct hordered.backward fun _ _ => rfl
          exact (Field.hasGap_capture octets).1 hgap
  | inside hfield hlookup hitem _ ih =>
      cases hschema with
      | sequence hordered htypes =>
          obtain ⟨content, given, -, hfields, hvalue⟩ := derives_sequence.1 h
          obtain rfl := Value.sequence.inj hvalue
          obtain ⟨part, hpart⟩ := hfields.exists_of_lookup hordered.distinct hordered.backward
            (fun _ _ => rfl) (fun _ => rfl) hfield hlookup
          obtain ⟨_, hderives, -⟩ := hpart.exists_of_mem_parts (Framing.encloses_framed mode) hitem
          have htype := Field.resolve?_mem (Field.lookup_eq_some_iff.1 hlookup).2
          exact ih (htypes _ hfield _ htype) hderives

/-- **Optional fields are passed over by their tags exactly where there is no gap.** -/
theorem derives_byTag_iff {schema : Schema} (hschema : schema.Everywhere Field.Ordered)
    (hambiguous : schema.ambiguousField? = none) {mode : Mode} {override : Option Tag} {octets : Octets}
    {value : Value} :
    schema.Derives (.byTag mode) mode override octets value ↔
      schema.Derives .free mode override octets value ∧ ¬ schema.HasGap value := by
  constructor
  · exact fun h => ⟨h.weaken fun _ _ _ _ => trivial, h.not_hasGap hschema⟩
  · rintro ⟨h, hgap⟩
    induction hschema generalizing override octets value with
    | primitive tag => exact derives_primitive.2 (derives_primitive.1 h)
    | any => exact derives_any.2 (derives_any.1 h)
    | @sequence name fields hordered _ ih =>
        rw [ambiguousField?] at hambiguous
        obtain ⟨content, given, hframe, hfields, rfl⟩ := derives_sequence.1 h
        obtain ⟨hhere, hinside⟩ := not_or.1 (mt hasGap_sequence.2 hgap)
        have hgiven : ¬ Field.HasGap given fields := mt (Field.hasGap_capture octets).2 hhere
        refine derives_sequence.2 ⟨content, given, hframe, ?_, rfl⟩
        refine derivesFields_byTag_of_not_hasGap ?_ hordered.distinct hordered.backward hambiguous
          (fun _ _ => rfl) (fun _ => rfl) hgiven hfields
        intro field hfield value type hlookup override part item hitem hderives
        have htype := Field.resolve?_mem (Field.lookup_eq_some_iff.1 hlookup).2
        apply ih field hfield type htype
          (Field.ambiguousField?_of_firstAmbiguous? hambiguous hfield htype) hderives
        intro hitemGap
        exact hinside ⟨field, hfield, value, type, hlookup, item, hitem, hitemGap⟩

/-! ## Normal forms -/

section NormalForms

variable {fields : List (Field Schema)} {given normalized : Sequence Value}

theorem lookup_normalFields_eq_none {name : String}
    (h : ∀ field ∈ fields, field.name = name → field.lookup given = .ok none) :
    (normalFields fields given).lookup name = none := by
  induction fields with
  | nil =>
      rw [normalFields]
      rfl
  | cons field rest ih =>
      have ih := ih fun later hlater => h later (List.mem_cons_of_mem _ hlater)
      rw [normalFields]
      split
      · rename_i value type hlookup
        have hne : name ≠ field.name := by
          rintro rfl
          rw [h field List.mem_cons_self rfl] at hlookup
          cases hlookup
        rw [List.lookup_cons, beq_false_of_ne hne]
        exact ih
      · exact ih

theorem lookup_normalFields_eq_some (hdistinct : Field.DistinctNames fields) {field : Field Schema}
    (hfield : field ∈ fields) {value : Value} {type : Schema}
    (hlookup : field.lookup given = .ok (some (value, type))) :
    (normalFields fields given).lookup field.name = some (field.mapValue type.normal value) := by
  induction fields with
  | nil => cases hfield
  | cons first rest ih =>
      obtain ⟨hother, hdistinct⟩ := Field.distinctNames_cons.1 hdistinct
      rcases List.mem_cons.1 hfield with rfl | hmem
      · rw [normalFields_of_lookup_some hlookup, List.lookup_cons_self]
      · rw [normalFields]
        split
        · rw [List.lookup_cons, beq_false_of_ne (hother field hmem)]
          exact ih hdistinct hmem
        · exact ih hdistinct hmem

/-- All fields that are written are found to be there or not. -/
theorem exists_lookup_of_writeFields {octets : Octets} (h : writeFields fields given = .ok octets)
    {field : Field Schema} (hfield : field ∈ fields) : ∃ found, field.lookup given = .ok found := by
  induction fields generalizing octets with
  | nil => cases hfield
  | cons first rest ih =>
      rcases writeFields_cons.1 h with ⟨hlookup, h⟩ | ⟨_, _, _, _, hlookup, -, -, h⟩
      · rcases List.mem_cons.1 hfield with rfl | hmem
        · exact ⟨_, hlookup⟩
        · exact ih h hmem
      · rcases List.mem_cons.1 hfield with rfl | hmem
        · exact ⟨_, hlookup⟩
        · exact ih h hmem

/-- An object identifier is found in the normal form as it was. -/
theorem get?_normal_of_isIdentifier (hdistinct : Field.DistinctNames fields)
    (hwritten : ∀ field ∈ fields, ∃ found, field.lookup given = .ok found)
    (hnormal : ∀ name, normalized.get? name = (normalFields fields given).lookup name)
    {field : Field Schema} (hfield : field ∈ fields) (hidentifier : field.IsIdentifier) :
    normalized.get? field.name = given.get? field.name := by
  rw [hnormal]
  obtain ⟨_ | ⟨value, type⟩, hlookup⟩ := hwritten field hfield
  · rw [lookup_normalFields_eq_none, (Field.lookup_eq_none_iff.1 hlookup).1]
    intro other hother hname
    rwa [List.inj_on_of_nodup_map hdistinct hother hfield hname]
  · obtain ⟨hvalue, htype⟩ := Field.lookup_eq_some_iff.1 hlookup
    rw [lookup_normalFields_eq_some hdistinct hfield hlookup,
      mapValue_normal_of_isIdentifier hidentifier htype, hvalue]

/-- Selectors choose in the normal form as they did. -/
theorem resolve?_normal (hkeyed : Field.Keyed fields)
    (hwritten : ∀ field ∈ fields, ∃ found, field.lookup given = .ok found)
    (hnormal : ∀ name, normalized.get? name = (normalFields fields given).lookup name)
    {field : Field Schema} (hfield : field ∈ fields) : field.resolve? normalized = field.resolve? given := by
  refine Field.resolve?_congr fun selector hselected => ?_
  obtain ⟨other, hother, hname, hidentifier⟩ := hkeyed.identifiers.exists_mem hfield hselected
  rw [← hname]
  exact get?_normal_of_isIdentifier hkeyed.distinct hwritten hnormal hother hidentifier

/-- A field is found in the normal form exactly if it was there, and then with its normal form. -/
theorem lookup_normal (hkeyed : Field.Keyed fields)
    (hwritten : ∀ field ∈ fields, ∃ found, field.lookup given = .ok found)
    (hnormal : ∀ name, normalized.get? name = (normalFields fields given).lookup name)
    {field : Field Schema} (hfield : field ∈ fields) :
    field.lookup normalized = (field.lookup given).map
      (Option.map fun found => (field.mapValue found.2.normal found.1, found.2)) := by
  obtain ⟨_ | ⟨value, type⟩, hlookup⟩ := hwritten field hfield
  · rw [hlookup]
    refine Field.lookup_eq_none_iff.2 ⟨?_, (Field.lookup_eq_none_iff.1 hlookup).2⟩
    rw [hnormal]
    apply lookup_normalFields_eq_none
    intro other hother hname
    rwa [List.inj_on_of_nodup_map hkeyed.distinct hother hfield hname]
  · rw [hlookup]
    refine Field.lookup_eq_some_iff.2 ⟨?_, ?_⟩
    · rw [hnormal, lookup_normalFields_eq_some hkeyed.distinct hfield hlookup]
    · rw [resolve?_normal hkeyed hwritten hnormal hfield, (Field.lookup_eq_some_iff.1 hlookup).2]

/-- The normal form has a gap between its fields exactly if there was one. -/
theorem hasGap_normalFields (hkeyed : Field.Keyed fields)
    (hwritten : ∀ field ∈ fields, ∃ found, field.lookup given = .ok found)
    (hnormal : ∀ name, normalized.get? name = (normalFields fields given).lookup name) :
    Field.HasGap normalized fields ↔ Field.HasGap given fields := by
  apply Field.hasGap_congr
  · intro field hfield
    have hlookup := lookup_normal hkeyed hwritten hnormal hfield
    obtain ⟨_ | ⟨value, type⟩, hfound⟩ := hwritten field hfield
    · rw [hfound] at hlookup
      exact iff_of_true (Field.lookup_eq_none_iff.1 hlookup).1 (Field.lookup_eq_none_iff.1 hfound).1
    · rw [hfound] at hlookup
      rw [(Field.lookup_eq_some_iff.1 hlookup).1, (Field.lookup_eq_some_iff.1 hfound).1]
      exact iff_of_false nofun nofun
  · intro field hfield
    exact resolve?_normal hkeyed hwritten hnormal hfield

end NormalForms

/-- **A value that can be encoded has a gap exactly if its normal form has.** -/
theorem hasGap_normal {schema : Schema} (hschema : schema.Everywhere Field.Keyed) {name : String}
    {override : Option Tag} {value : Value} {octets : Octets}
    (h : schema.write name override value = .ok octets) (replacing : Option Tag) :
    schema.HasGap (schema.normal replacing value) ↔ schema.HasGap value := by
  induction hschema generalizing name override value octets replacing with
  | primitive tag => exact iff_of_false (not_hasGap_primitive tag _) (not_hasGap_primitive tag _)
  | any => exact iff_of_false (not_hasGap_any _) (not_hasGap_any _)
  | @sequence typeName fields hkeyed _ ih =>
      obtain ⟨given, content, rfl, -, hcontent, -⟩ := write_sequence.1 h
      have hwritten (field : Field Schema) (hfield : field ∈ fields) :=
        exists_lookup_of_writeFields hcontent hfield
      rw [normal, hasGap_sequence, hasGap_sequence,
        hasGap_normalFields hkeyed hwritten fun _ => rfl]
      refine or_congr_right (exists_congr fun field => and_congr_right fun hfield => ?_)
      -- The field was written if it was there, and with it all its items.
      have hitems {value : Value} {type : Schema} (hlookup : field.lookup given = .ok (some (value, type)))
          {item : Value} (hitem : item ∈ field.parts value) :
          type.HasGap (type.normal field.itemTag? item) ↔ type.HasGap item := by
        obtain ⟨first, hfirst, -⟩ := exists_of_writeFields hcontent hfield hlookup
        obtain ⟨part, hpart, -⟩ := hfirst.exists_of_mem_parts Framing.encloses_written hitem
        exact ih field hfield type (Field.resolve?_mem (Field.lookup_eq_some_iff.1 hlookup).2) hpart _
      rw [lookup_normal hkeyed hwritten (fun _ => rfl) hfield]
      obtain ⟨_ | ⟨found, foundType⟩, hlookup⟩ := hwritten field hfield
      · simp [hlookup, Except.map]
      · simp only [hlookup, Except.map, Option.map_some, Except.ok.injEq, Option.some.injEq, Prod.mk.injEq]
        constructor
        · rintro ⟨_, _, ⟨rfl, rfl⟩, item, hitem, hgap⟩
          rw [Field.parts_mapValue] at hitem
          obtain ⟨inner, hinner, rfl⟩ := List.mem_map.1 hitem
          exact ⟨found, foundType, ⟨rfl, rfl⟩, inner, hinner, (hitems hlookup hinner).1 hgap⟩
        · rintro ⟨_, _, ⟨rfl, rfl⟩, item, hitem, hgap⟩
          refine ⟨_, foundType, ⟨rfl, rfl⟩, foundType.normal field.itemTag? item, ?_,
            (hitems hlookup hitem).2 hgap⟩
          rw [Field.parts_mapValue]
          exact List.mem_map_of_mem hitem

/-! ## Result -/

/-- **Encodings are decoded exactly if the value has no gap.** An absent field is passed over if the selector
    finds a type for it, or if nothing follows. If it finds none and a field follows, then what was encoded
    cannot be decoded. -/
theorem decode_eq_ok_iff_not_hasGap {schema : Schema} (hschema : schema.Everywhere Field.Keyed)
    (hambiguous : schema.ambiguousField? = none) {value : Value} {octets : Octets}
    (hleaves : schema.HasCanonicalLeaves value) (hencode : schema.encode value = .ok octets)
    (hlength : octets.length < 2 ^ 64) (mode : Mode) (decoded : Value) :
    schema.decode mode octets = .ok decoded ↔
      decoded = schema.normal none value ∧ ¬ schema.HasGap value := by
  have hordered : schema.Everywhere Field.Ordered := hschema.mono fun _ => Field.Keyed.ordered
  have hwrite := encode_eq_ok_iff.1 hencode
  have hnormal : schema.Derives .free mode none octets (schema.normal none value) :=
    derives_normal hschema hleaves hlength hwrite
  have hgap : schema.HasGap (schema.normal none value) ↔ schema.HasGap value :=
    hasGap_normal hschema hwrite none
  rw [decode_eq_ok_iff, derives_byTag_iff hordered hambiguous]
  constructor
  · rintro ⟨hderives, hdecoded⟩
    obtain rfl := hderives.unique hambiguous hnormal
    exact ⟨rfl, mt hgap.2 hdecoded⟩
  · rintro ⟨rfl, hvalue⟩
    exact ⟨hnormal, mt hgap.1 hvalue⟩

/-- An algorithm, its parameters if it is a known one, and content. -/
def parameterized : Schema :=
  .sequence "Parameterized"
    [.plain "algorithm" (.primitive .objectIdentifier),
     { name := "parameters",
       type := .selected
         { field := "algorithm", choices := [(.rsaEncryption, .primitive .null)], default := none },
       optional := true },
     .plain "content" (.primitive .octetString)]

theorem keyed_parameterized : parameterized.Everywhere Field.Keyed := by
  refine .sequence ⟨by decide, ?_⟩ ?_
  · simp [Field.SelectsIdentifiers, Field.plain, Field.IsIdentifier]
  · simp [Field.plain, FieldType.types, Selector.types, Everywhere.primitive]

/-- A value with the given algorithm and without parameters. -/
def withoutParameters (algorithm : Oid) : Value :=
  .sequence ⟨[("algorithm", .objectIdentifier algorithm), ("content", .octetString [0x07])], none⟩

theorem hasCanonicalLeaves_withoutParameters {algorithm : Oid}
    (h : (Value.objectIdentifier algorithm).IsCanonical) :
    parameterized.HasCanonicalLeaves (withoutParameters algorithm) := by
  refine hasCanonicalLeaves_sequence.2 fun field hfield value type hlookup item hitem => ?_
  obtain ⟨hvalue, htype⟩ := Field.lookup_eq_some_iff.1 hlookup
  simp only [List.mem_cons, List.not_mem_nil, or_false] at hfield
  obtain rfl | rfl | rfl := hfield
  · obtain rfl := Option.some.inj hvalue
    obtain rfl := Option.some.inj htype
    obtain rfl := List.mem_singleton.1 hitem
    exact hasCanonicalLeaves_primitive _ h
  · cases hvalue
  · obtain rfl := Option.some.inj hvalue
    obtain rfl := Option.some.inj htype
    obtain rfl := List.mem_singleton.1 hitem
    exact hasCanonicalLeaves_primitive _ (by cbv)

/-- The content leaves a gap after every algorithm whose parameters have no type. -/
theorem hasGap_withoutParameters {algorithm : Oid} :
    parameterized.HasGap (withoutParameters algorithm) ↔ algorithm ≠ .rsaEncryption := by
  rw [parameterized, withoutParameters, hasGap_sequence_of_leaves (by
    simp [Field.plain, FieldType.types, Selector.types, not_hasGap_primitive])]
  simp [Field.HasGap, Field.plain, Field.resolve?, Selector.select?, Sequence.get?, Value.asOid?]

/-- RSA has parameters of a known type, which are not there: the content is found nevertheless. -/
theorem decode_eq_ok_iff_not_hasGap_rsaEncryption :
    parameterized.Everywhere Field.Keyed ∧ parameterized.ambiguousField? = none ∧
      parameterized.HasCanonicalLeaves (withoutParameters .rsaEncryption) ∧
      parameterized.encode (withoutParameters .rsaEncryption) = .ok [0x30, 0x0E, 0x06, 0x09, 0x2A, 0x86,
        0x48, 0x86, 0xF7, 0x0D, 0x01, 0x01, 0x01, 0x04, 0x01, 0x07] ∧
      parameterized.decode .der [0x30, 0x0E, 0x06, 0x09, 0x2A, 0x86, 0x48, 0x86, 0xF7, 0x0D, 0x01, 0x01,
        0x01, 0x04, 0x01, 0x07] = .ok (parameterized.normal none (withoutParameters .rsaEncryption)) := by
  have hambiguous : parameterized.ambiguousField? = none := by decide +kernel
  have hleaves : parameterized.HasCanonicalLeaves (withoutParameters .rsaEncryption) :=
    hasCanonicalLeaves_withoutParameters (by cbv)
  have hencode : parameterized.encode (withoutParameters .rsaEncryption) = .ok [0x30, 0x0E, 0x06, 0x09,
      0x2A, 0x86, 0x48, 0x86, 0xF7, 0x0D, 0x01, 0x01, 0x01, 0x04, 0x01, 0x07] := by
    decide +kernel
  have hgap : ¬ parameterized.HasGap (withoutParameters .rsaEncryption) := by
    rw [hasGap_withoutParameters]
    exact not_not.2 rfl
  exact ⟨keyed_parameterized, hambiguous, hleaves, hencode,
    (decode_eq_ok_iff_not_hasGap keyed_parameterized hambiguous hleaves hencode (by decide) .der _).2
      ⟨rfl, hgap⟩⟩

/-- For an algorithm that is not known no type is found: what was encoded cannot be decoded. -/
theorem decode_eq_error_of_gap :
    parameterized.Everywhere Field.Keyed ∧ parameterized.ambiguousField? = none ∧
      parameterized.HasCanonicalLeaves (withoutParameters .subjectKeyIdentifier) ∧
      parameterized.encode (withoutParameters .subjectKeyIdentifier) =
        .ok [0x30, 0x08, 0x06, 0x03, 0x55, 0x1D, 0x0E, 0x04, 0x01, 0x07] ∧
      parameterized.decode .der [0x30, 0x08, 0x06, 0x03, 0x55, 0x1D, 0x0E, 0x04, 0x01, 0x07] =
        .error ⟨.unsupportedSelectorValue "parameters", 7⟩ :=
  ⟨keyed_parameterized, by decide +kernel, hasCanonicalLeaves_withoutParameters (by cbv), by decide +kernel,
    by cbv⟩

end Schema

end Asn1
