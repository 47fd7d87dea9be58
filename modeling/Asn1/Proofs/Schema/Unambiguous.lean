import Asn1.Proofs.Certificate.Schema
import Asn1.Proofs.Schema.Decode

/-!
# `Asn1.Proofs.Schema.Unambiguous` — tags tell optional fields apart

Without ambiguous fields, what is derived by passing over optional fields at will is derived by going by
their tags. So a decoder that looks at one tag and never goes back finds every derivation.

## Contents
- **Tags.** An optional field without a clash does not start like what comes after it.
- **Rules.** `Schema.derives_byTag` exchanges one rule for passing over fields for the other, and
  `Schema.Derives.weaken` goes the easy way back.
- **Result.** `Schema.decode_eq_ok_iff_derives`: decoding accepts the grammar proper.
-/

namespace Asn1

/-! ## Tags -/

namespace Field

/-- If a function has a result for all items, each item has one of the results. -/
private theorem exists_of_mapM {α β : Type} {f : α → Option β} {items : List α} {results : List β}
    (h : items.mapM f = some results) {item : α} (hitem : item ∈ items) :
    ∃ result ∈ results, f item = some result := by
  induction items generalizing results with
  | nil => simp at hitem
  | cons first rest ih =>
      simp only [List.mapM_cons, Option.bind_eq_bind, Option.bind_eq_some_iff] at h
      obtain ⟨result, hresult, others, hothers, h⟩ := h
      obtain rfl := Option.some.inj h
      obtain rfl | hmem := List.mem_cons.1 hitem
      · exact ⟨result, List.mem_cons_self, hresult⟩
      · obtain ⟨found, hfound, heq⟩ := ih hothers hmem
        exact ⟨found, List.mem_cons_of_mem _ hfound, heq⟩

/-- With each of its types, a field starts with one of its tags. -/
theorem outerTag?_of_outerTags? {field : Field Schema} {type : Schema} {tags : List Tag}
    (h : field.outerTags? = some tags) (htype : type ∈ field.type.types) :
    ∃ tag ∈ tags, field.outerTag? type = some tag :=
  exists_of_mapM h htype

/-- A selected field resolves to a type if there is a default. -/
theorem exists_resolve? {field : Field Schema} {known : Sequence Value}
    (h : ∀ selector, field.type = .selected selector → selector.default.isSome = true) :
    ∃ type, field.resolve? known = some type := by
  unfold resolve?
  split
  · exact ⟨_, rfl⟩
  · rename_i selector htype
    obtain ⟨type, hdefault⟩ := Option.isSome_iff_exists.1 (h selector htype)
    unfold Selector.select?
    split
    · rename_i oid _
      cases hlookup : selector.choices.lookup oid with
      | none => exact ⟨type, by rw [Option.none_or, hdefault]⟩
      | some found => exact ⟨found, Option.some_or⟩
    · exact ⟨type, hdefault⟩

theorem firstAmbiguous?_cons {field : Field Schema} {rest : List (Field Schema)} :
    firstAmbiguous? (field :: rest) = none ↔
      (∀ type ∈ field.type.types, type.ambiguousField? = none) ∧ field.isAmbiguous rest = false ∧
        firstAmbiguous? rest = none := by
  rw [firstAmbiguous?]
  simp

/-- The types of fields have no ambiguous fields either. -/
theorem ambiguousField?_of_firstAmbiguous? {fields : List (Field Schema)}
    (h : firstAmbiguous? fields = none) {field : Field Schema} (hfield : field ∈ fields) {type : Schema}
    (htype : type ∈ field.type.types) : type.ambiguousField? = none := by
  induction fields with
  | nil => simp at hfield
  | cons first rest ih =>
      obtain ⟨htypes, -, hrest⟩ := firstAmbiguous?_cons.1 h
      obtain rfl | hmem := List.mem_cons.1 hfield
      · exact htypes type htype
      · exact ih hrest hmem

end Field

namespace Schema

variable {rule : OmissionRule} {mode : Mode} {known given : Sequence Value} {octets : Octets}

/-- **What follows a field without a clash starts with another tag**, if anything follows. -/
theorem DerivesFields.tag_not_mem {tags : List Tag} {fields : List (Field Schema)}
    (hclash : Field.clashes tags fields = false)
    (h : DerivesFields rule mode fields known octets given) (hne : octets ≠ []) :
    ∃ header rest, Header.takeOctets mode octets = .ok (header, rest) ∧ header.tag ∉ tags := by
  induction fields generalizing known octets with
  | nil => exact absurd (derivesFields_nil.1 h).1 hne
  | cons field rest ih =>
      rw [Field.clashes] at hclash
      cases htags : field.outerTags? with
      | none => simp [htags] at hclash
      | some fieldTags =>
          simp only [htags, Bool.or_eq_false_iff] at hclash
          obtain ⟨hdisjoint, hrest⟩ := hclash
          obtain ⟨hoptional, -, h⟩ | ⟨type, first, others, value, htype, rfl, hfield, h⟩ :=
            derivesFields_cons.1 h
          -- Passed over: the search for a clash goes on behind an optional field.
          · rw [hoptional, Bool.true_and] at hrest
            exact ih hrest h hne
          · obtain ⟨identifier, content, hframe, htag⟩ := startsWith_of_field hfield
            obtain ⟨tag, hmem, houter⟩ :=
              Field.outerTag?_of_outerTags? htags (Field.resolve?_mem htype)
            rw [houter] at htag
            obtain rfl : tag = identifier.tag := by simpa using htag
            refine ⟨_, _, hframe.takeOctets_append others, ?_⟩
            simpa using List.any_eq_false.1 hdisjoint _ hmem

/-! ## Rules -/

theorem DerivesFields.rest_ne_nil {fields : List (Field Schema)}
    (h : DerivesFields rule mode fields known octets given) (hne : octets ≠ []) : fields ≠ [] := by
  rintro rfl
  exact hne (derivesFields_nil.1 h).1

/-- An optional field that may be passed over is passed over by its tag, if it has one where something
    follows. -/
theorem byTag_of_isAmbiguous {field : Field Schema} {rest : List (Field Schema)}
    (hoptional : field.optional = true) (hambiguous : field.isAmbiguous rest = false)
    (hresolve : octets ≠ [] → ∃ type, field.resolve? known = some type)
    (h : DerivesFields rule mode rest known octets given) :
    OmissionRule.byTag mode field known octets := by
  by_cases hne : octets = []
  · exact .inl hne
  have hrest := h.rest_ne_nil hne
  rw [Field.isAmbiguous, hoptional, Bool.true_and] at hambiguous
  cases htags : field.outerTags? with
  | none => simp [htags, hrest] at hambiguous
  | some tags =>
      simp only [htags] at hambiguous
      obtain ⟨header, after, hheader, hnot⟩ := h.tag_not_mem hambiguous hne
      obtain ⟨type, htype⟩ := hresolve hne
      obtain ⟨tag, hmem, houter⟩ := Field.outerTag?_of_outerTags? htags (Field.resolve?_mem htype)
      exact .inr ⟨type, tag, header, after, htype, houter, hheader, fun h => hnot (h ▸ hmem)⟩

/-- Fields that are passed over at will are passed over by their tags, if the same is true inside each
    type. -/
theorem derivesFields_byTag {fields : List (Field Schema)}
    (htypes : ∀ field ∈ fields, ∀ type ∈ field.type.types, ∀ override part value,
      type.Derives .free mode override part value → type.Derives (.byTag mode) mode override part value)
    (hskips : Field.SkipsResolve fields) (hambiguous : Field.firstAmbiguous? fields = none)
    (h : DerivesFields .free mode fields known octets given) :
    DerivesFields (.byTag mode) mode fields known octets given := by
  induction fields generalizing known octets with
  | nil => exact derivesFields_nil.2 (derivesFields_nil.1 h)
  | cons field rest ih =>
      obtain ⟨hskip, hskips⟩ := hskips
      obtain ⟨-, hfieldAmbiguous, hambiguous⟩ := Field.firstAmbiguous?_cons.1 hambiguous
      have ih {known : Sequence Value} {octets : Octets} :=
        @ih known octets (fun other hother => htypes other (List.mem_cons_of_mem _ hother)) hskips hambiguous
      rw [derivesFields_cons]
      obtain ⟨hoptional, -, h⟩ | ⟨type, first, others, value, htype, rfl, hfield, h⟩ :=
        derivesFields_cons.1 h
      · -- Where something follows, the field is not the last one, and so its selector has a default.
        have hresolve (hne : octets ≠ []) : ∃ type, field.resolve? known = some type :=
          Field.exists_resolve? fun selector htype =>
            (hskip hoptional selector htype).resolve_right (h.rest_ne_nil hne)
        exact .inl ⟨hoptional, byTag_of_isAmbiguous hoptional hfieldAmbiguous hresolve h, ih h⟩
      · refine .inr ⟨type, first, others, value, htype, rfl, ?_, ih h⟩
        exact hfield.mono (Framing.encloses_framed _)
          (fun _ _ _ hframe => hframe)
          (htypes field List.mem_cons_self type (Field.resolve?_mem htype))

/-- **Tags find every derivation.** Where no field is ambiguous, optional fields that are passed over at
    will are passed over by their tags. -/
theorem derives_byTag {schema : Schema} (hschema : schema.Everywhere Field.SkipsResolve)
    (hambiguous : schema.ambiguousField? = none) {override : Option Tag} {value : Value}
    (h : schema.Derives .free mode override octets value) :
    schema.Derives (.byTag mode) mode override octets value := by
  induction hschema generalizing override octets value with
  | primitive tag => exact derives_primitive.2 (derives_primitive.1 h)
  | any => exact derives_any.2 (derives_any.1 h)
  | @sequence typeName fields hskips _ ih =>
      rw [ambiguousField?] at hambiguous
      have htypes {field : Field Schema} (hfield : field ∈ fields) {type : Schema}
          (htype : type ∈ field.type.types) : type.ambiguousField? = none :=
        Field.ambiguousField?_of_firstAmbiguous? hambiguous hfield htype
      obtain ⟨content, given, hframe, hfields, rfl⟩ := derives_sequence.1 h
      exact derives_sequence.2 ⟨content, given, hframe, derivesFields_byTag
        (fun field hfield type htype _ _ _ => ih field hfield type htype (htypes hfield htype))
        hskips hambiguous hfields, rfl⟩

/-- Fields derived by a rule are derived by one that lets pass over more, if the same is true inside each
    type. -/
theorem DerivesFields.weaken {weaker : OmissionRule} {fields : List (Field Schema)}
    (hrule : ∀ field known octets, rule field known octets → weaker field known octets)
    (htypes : ∀ field ∈ fields, ∀ type ∈ field.type.types, ∀ override part value,
      type.Derives rule mode override part value → type.Derives weaker mode override part value)
    (h : DerivesFields rule mode fields known octets given) :
    DerivesFields weaker mode fields known octets given := by
  induction fields generalizing known octets with
  | nil => exact derivesFields_nil.2 (derivesFields_nil.1 h)
  | cons field rest ih =>
      have ih {known : Sequence Value} {octets : Octets} :=
        @ih known octets fun other hother => htypes other (List.mem_cons_of_mem _ hother)
      rw [derivesFields_cons]
      obtain ⟨hoptional, homit, h⟩ | ⟨type, first, others, value, htype, rfl, hfield, h⟩ :=
        derivesFields_cons.1 h
      · exact .inl ⟨hoptional, hrule _ _ _ homit, ih h⟩
      · refine .inr ⟨type, first, others, value, htype, rfl, ?_, ih h⟩
        exact hfield.mono (Framing.encloses_framed _)
          (fun _ _ _ hframe => hframe)
          (htypes field List.mem_cons_self type (Field.resolve?_mem htype))

/-- What is derived by a rule is derived by one that lets pass over more. -/
theorem Derives.weaken {weaker : OmissionRule}
    (hrule : ∀ field known octets, rule field known octets → weaker field known octets)
    {schema : Schema} {override : Option Tag} {value : Value}
    (h : schema.Derives rule mode override octets value) :
    schema.Derives weaker mode override octets value := by
  induction schema using Schema.induction generalizing override octets value with
  | primitive tag => exact derives_primitive.2 (derives_primitive.1 h)
  | any => exact derives_any.2 (derives_any.1 h)
  | sequence typeName fields ih =>
      obtain ⟨content, given, hframe, hfields, rfl⟩ := derives_sequence.1 h
      exact derives_sequence.2 ⟨content, given, hframe,
        hfields.weaken hrule fun field hfield type htype _ _ _ => ih field hfield type htype, rfl⟩

/-! ## Result -/

/-- **Decoding accepts exactly the grammar.** Where no field is ambiguous, a value is decoded if and only
    if the grammar that passes over optional fields at will derives the data with it. So the choices that
    the grammar leaves open are forced: data have at most one value. -/
theorem decode_eq_ok_iff_derives {schema : Schema} (hschema : schema.Everywhere Field.SkipsResolve)
    (hambiguous : schema.ambiguousField? = none) (mode : Mode) (data : Octets) :
    (∀ value, schema.decode mode data = .ok value ↔ schema.Derives .free mode none data value) ∧
      ∀ value other, schema.Derives .free mode none data value →
        schema.Derives .free mode none data other → other = value := by
  have haccepts (value : Value) :
      schema.decode mode data = .ok value ↔ schema.Derives .free mode none data value := by
    rw [decode_eq_ok_iff]
    constructor
    · exact Derives.weaken fun _ _ _ _ => trivial
    · exact derives_byTag hschema hambiguous
  refine ⟨haccepts, fun value other hvalue hother => ?_⟩
  have hdecode := (haccepts value).2 hvalue
  exact Except.ok.inj (((haccepts other).2 hother).symm.trans hdecode)

/-- RSA encryption with parameters, with a length that is longer than need be. -/
def longRsaAlgorithm : Octets :=
  [0x30, 0x81, 0x0D, 0x06, 0x09, 0x2A, 0x86, 0x48, 0x86, 0xF7, 0x0D, 0x01, 0x01, 0x01, 0x05, 0x00]

/-- What `longRsaAlgorithm` says: the selector asks for NULL parameters, as the identifier before them is that of
    RSA encryption. -/
def rsaAlgorithmValue : Value :=
  .sequence ⟨[("algorithm", .objectIdentifier .rsaEncryption), ("parameters", .null)], some ⟨longRsaAlgorithm⟩⟩

/-- The optional parameters are there, and their type is selected. They are the only value. -/
theorem decode_eq_ok_iff_derives_nullParameters :
    algorithmIdentifier.Everywhere Field.SkipsResolve ∧ algorithmIdentifier.ambiguousField? = none ∧
      algorithmIdentifier.decode .ber longRsaAlgorithm = .ok rsaAlgorithmValue ∧
      algorithmIdentifier.Derives .free .ber none longRsaAlgorithm rsaAlgorithmValue ∧
      ∀ other, algorithmIdentifier.Derives .free .ber none longRsaAlgorithm other →
        other = rsaAlgorithmValue := by
  have hschema := dispatched_algorithmIdentifier.mono fun _ hfields => hfields.skips
  have hambiguous : algorithmIdentifier.ambiguousField? = none :=
    ambiguousField?_of_mem_certificateSchemas (by simp [certificateSchemas])
  have hdecode : algorithmIdentifier.decode .ber longRsaAlgorithm = .ok rsaAlgorithmValue := by cbv
  obtain ⟨haccepts, hunique⟩ := decode_eq_ok_iff_derives hschema hambiguous .ber longRsaAlgorithm
  have hderives := (haccepts _).1 hdecode
  exact ⟨hschema, hambiguous, hdecode, hderives, fun other => hunique _ other hderives⟩

end Schema

end Asn1
