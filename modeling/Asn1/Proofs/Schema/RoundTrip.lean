import Asn1.Proofs.Certificate.Schema
import Asn1.Proofs.Schema.Decode
import Asn1.Proofs.Schema.Encode
import Asn1.Proofs.Schema.Unambiguous

/-!
# `Asn1.Proofs.Schema.RoundTrip` — decoding undoes encoding

An encoded value is decoded to its normal form: fields in the order of the type, nothing twice, and
values of unknown type wherever any type is allowed. Beyond that nothing changes.

## Contents
- **Normal form.** `Schema.normal`, the value that comes back.
- **Leaves.** `Schema.Leaf`, the values that are encoded as primitive types. They have to be canonical.
- **Writing derives.** `Schema.derives_normal`: what is written for a value derives its normal form. The
  invariant between fields is `Schema.KnowsIdentifiers`.
- **Result.** `Schema.decode_of_encode`.
-/

namespace Asn1

/-! ## Normal form -/

namespace Schema

mutual

/-- The value that comes back when a value is encoded and decoded. A sequence has its fields in the order
    of the type, the first one of each name, and captures its encoding. Where any type is allowed, the
    content is kept under the tag written. Values that cannot be encoded stay as they are. -/
def normal (schema : Schema) (override : Option Tag) (value : Value) : Value :=
  match schema with
  | primitive _ => value
  | any =>
    match AnyValue.ofValue? override value with
    | some found => .any found
    | none => value
  | sequence typeName fields =>
    match value with
    | .sequence given =>
      .sequence
        { fields := normalFields fields given
          raw := ((sequence typeName fields).write typeName override value).toOption.map Captured.mk }
    | value => value
termination_by sizeOf schema

/-- The fields of a sequence in normal form. -/
def normalFields (fields : List (Field Schema)) (given : Sequence Value) : List (String × Value) :=
  match fields with
  | [] => []
  | field :: rest =>
    match _h : field.lookup given with
    | .ok (some (value, type)) =>
      (field.name, field.mapValue type.normal value) :: normalFields rest given
    | _ => normalFields rest given
termination_by sizeOf fields
decreasing_by
  all_goals simp only [List.cons.sizeOf_spec]
  · have := Field.sizeOf_lt_of_lookup _h
    omega
  · omega
  · omega

end

theorem normalFields_of_lookup_none {field : Field Schema} {rest : List (Field Schema)}
    {given : Sequence Value} (h : field.lookup given = .ok none) :
    normalFields (field :: rest) given = normalFields rest given := by
  rw [normalFields, h]

theorem normalFields_of_lookup_some {field : Field Schema} {rest : List (Field Schema)}
    {given : Sequence Value} {value : Value} {type : Schema}
    (h : field.lookup given = .ok (some (value, type))) :
    normalFields (field :: rest) given =
      (field.name, field.mapValue type.normal value) :: normalFields rest given := by
  rw [normalFields]
  split
  · rename_i hfound
    obtain ⟨rfl, rfl⟩ := Prod.mk.inj (Option.some.inj (Except.ok.inj (h.symm.trans hfound)))
    rfl
  · rename_i hnone
    exact (hnone _ _ h).elim

/-- The normal form of a sequence that can be encoded captures the encoding. -/
theorem raw_normal {name : String} {fields : List (Field Schema)} {value : Value} {octets : Octets}
    (h : (sequence name fields).encode value = .ok octets) :
    ∃ given, (sequence name fields).normal none value = .sequence given ∧ given.raw = some ⟨octets⟩ := by
  have hwrite : (sequence name fields).write name none value = .ok octets := encode_eq_ok_iff.1 h
  obtain ⟨given, -, rfl, -⟩ := write_sequence.1 hwrite
  rw [normal, hwrite]
  exact ⟨_, rfl, rfl⟩

/-! ## Leaves -/

/-- The values inside a value that a primitive type encodes. -/
inductive Leaf : Schema → Value → Value → Prop
  | primitive {tag : Tag} {type : PrimitiveType} {value : Value} {content : Octets} :
      PrimitiveType.ofTag? tag = some type → type.content? value = some content →
      Leaf (.primitive tag) value value
  | field {name : String} {fields : List (Field Schema)} {given : Sequence Value}
      {field : Field Schema} {value item leaf : Value} {type : Schema} : field ∈ fields →
      field.lookup given = .ok (some (value, type)) → item ∈ field.parts value → Leaf type item leaf →
      Leaf (.sequence name fields) (.sequence given) leaf

/-- The content of a leaf is part of the encoding. -/
theorem Leaf.length_content_le {schema : Schema} {value leaf : Value} (h : schema.Leaf value leaf)
    {name : String} {override : Option Tag} {octets : Octets}
    (hwrite : schema.write name override value = .ok octets) :
    ∃ (type : PrimitiveType) (content : Octets), type.content? leaf = some content ∧
      content.length ≤ octets.length := by
  induction h generalizing name override octets with
  | primitive _ _ =>
      obtain ⟨type, content, -, hcontent, rfl⟩ := write_primitive.1 hwrite
      exact ⟨type, content, hcontent, length_content_le_frame _ content⟩
  | @field name fields given field value item leaf type hfield hlookup hitem _ ih =>
      obtain ⟨_, content, ⟨⟩, -, hcontent, rfl⟩ := write_sequence.1 hwrite
      obtain ⟨first, hfirst, hle⟩ := exists_of_writeFields hcontent hfield hlookup
      obtain ⟨part, hpart, hpartle⟩ := hfirst.exists_of_mem_parts Framing.encloses_written hitem
      obtain ⟨type, inner, hinner, hinnerle⟩ := ih hpart
      refine ⟨type, inner, hinner, ?_⟩
      calc inner.length ≤ part.length := hinnerle
        _ ≤ first.length := hpartle
        _ ≤ content.length := hle
        _ ≤ _ := length_content_le_frame _ content

/-- All leaves of a value are canonical. -/
def HasCanonicalLeaves (schema : Schema) (value : Value) : Prop :=
  ∀ leaf, schema.Leaf value leaf → leaf.IsCanonical

theorem hasCanonicalLeaves_primitive (tag : Tag) {value : Value} (h : value.IsCanonical) :
    (primitive tag).HasCanonicalLeaves value := by
  rintro leaf ⟨⟩
  exact h

theorem hasCanonicalLeaves_any (value : Value) : any.HasCanonicalLeaves value := by
  rintro leaf ⟨⟩

/-- The leaves of a sequence are those of its fields. -/
theorem hasCanonicalLeaves_sequence {name : String} {fields : List (Field Schema)}
    {given : Sequence Value} :
    (sequence name fields).HasCanonicalLeaves (.sequence given) ↔
      ∀ field ∈ fields, ∀ value type, field.lookup given = .ok (some (value, type)) →
        ∀ item ∈ field.parts value, type.HasCanonicalLeaves item := by
  constructor
  · exact fun h field hfield value type hlookup item hitem leaf hleaf =>
      h leaf (.field hfield hlookup hitem hleaf)
  · rintro h leaf hleaf
    cases hleaf with
    | field hfield hlookup hitem hleaf => exact h _ hfield _ _ hlookup _ hitem leaf hleaf

/-! ## Writing derives -/

/-- The normal form of an object identifier is the identifier itself. -/
theorem mapValue_normal_of_isIdentifier {field : Field Schema} {given : Sequence Value} {type : Schema}
    (h : field.IsIdentifier) (htype : field.resolve? given = some type) (value : Value) :
    field.mapValue type.normal value = value := by
  obtain ⟨hfixed, hsingle⟩ := h
  simp only [Field.resolve?, hfixed, Option.some.injEq] at htype
  subst htype
  simp only [Field.mapValue, hsingle, normal]

/-- The object identifiers among the earlier fields are known as they are in the whole sequence. -/
def KnowsIdentifiers (earlier : List (Field Schema)) (known given : Sequence Value) : Prop :=
  ∀ field ∈ earlier, field.IsIdentifier → known.get? field.name = given.get? field.name

namespace KnowsIdentifiers

variable {earlier : List (Field Schema)} {known given : Sequence Value} {field : Field Schema}

/-- A selector that refers to an earlier identifier chooses as it does in the whole sequence. -/
theorem resolve?_eq (h : KnowsIdentifiers earlier known given)
    (hselector : ∀ selector, field.type = .selected selector →
      ∃ other ∈ earlier, other.name = selector.field ∧ other.IsIdentifier) :
    field.resolve? known = field.resolve? given := by
  refine Field.resolve?_congr fun selector hselected => ?_
  obtain ⟨other, hother, hname, hidentifier⟩ := hselector selector hselected
  rw [← hname, h other hother hidentifier]

/-- A field that is absent does not become known. -/
theorem skip (h : KnowsIdentifiers earlier known given) (hnew : known.get? field.name = none)
    (habsent : given.get? field.name = none) : KnowsIdentifiers (earlier ++ [field]) known given := by
  intro other hother hidentifier
  obtain hmem | hmem := List.mem_append.1 hother
  · exact h other hmem hidentifier
  · obtain rfl := List.mem_singleton.1 hmem
    rw [hnew, habsent]

/-- A field becomes known by its value, which for an identifier is the one in the whole sequence. -/
theorem push {value : Value} (h : KnowsIdentifiers earlier known given)
    (hne : ∀ other ∈ earlier, other.name ≠ field.name) (hnew : known.get? field.name = none)
    (hvalue : field.IsIdentifier → given.get? field.name = some value) :
    KnowsIdentifiers (earlier ++ [field]) (known.push field.name value) given := by
  intro other hother hidentifier
  rw [Sequence.get?_push]
  obtain hmem | hmem := List.mem_append.1 hother
  · rw [if_neg (hne other hmem), Option.or_none, h other hmem hidentifier]
  · obtain rfl := List.mem_singleton.1 hmem
    rw [if_pos rfl, hnew, Option.none_or, hvalue hidentifier]

end KnowsIdentifiers

theorem all_of_ofValue? {override : Option Tag} {value : Value} {found : AnyValue}
    (h : AnyValue.ofValue? override value = some found) : override.all (· == found.tag) = true := by
  have htag : ∃ tag, found.tag = override.getD tag := by
    unfold AnyValue.ofValue? at h
    split at h
    · obtain rfl := Option.some.inj h
      exact ⟨_, rfl⟩
    · simp only [Option.bind_eq_bind, Option.bind_eq_some_iff] at h
      obtain ⟨tag, -, _, -, _, -, h⟩ := h
      obtain rfl := Option.some.inj h
      exact ⟨tag, rfl⟩
  obtain ⟨tag, htag⟩ := htag
  rw [htag]
  cases override with
  | none => rfl
  | some replacing => exact beq_self_eq_true replacing

/-- **The fields written derive their normal forms**, if values of their types do. At any point the
    identifiers known are those of the whole sequence, so that selectors choose alike. -/
theorem derivesFields_normal {mode : Mode} {earlier fields : List (Field Schema)}
    {known given : Sequence Value} {octets : Octets}
    (htypes : ∀ field ∈ fields, ∀ value type, field.lookup given = .ok (some (value, type)) →
      ∀ name override part item, item ∈ field.parts value → part.length < Length.limit →
        type.write name override item = .ok part →
          type.Derives .free mode override part (type.normal override item))
    (hdistinct : Field.DistinctNames (earlier ++ fields))
    (hselects : Field.SelectsIdentifiers earlier fields) (hknown : KnowsIdentifiers earlier known given)
    (hnew : ∀ field ∈ fields, known.get? field.name = none)
    (hlength : octets.length < Length.limit) (h : writeFields fields given = .ok octets) :
    DerivesFields .free mode fields known octets
      { known with fields := known.fields ++ normalFields fields given } := by
  induction fields generalizing earlier known octets with
  | nil =>
      obtain rfl := writeFields_nil.1 h
      exact derivesFields_nil.2 ⟨rfl, by simp [normalFields]⟩
  | cons field rest ih =>
      obtain ⟨hselector, hselects⟩ := hselects
      have ih {known : Sequence Value} {octets : Octets} :=
        @ih (earlier ++ [field]) known octets
          (fun other hother => htypes other (List.mem_cons_of_mem _ hother))
          (by rwa [List.append_assoc]) hselects
      have hnewField := hnew field List.mem_cons_self
      have hnewRest := fun other hother => hnew other (List.mem_cons_of_mem _ hother)
      rw [derivesFields_cons]
      obtain ⟨hlookup, h⟩ | ⟨value, type, first, others, hlookup, rfl, hfield, h⟩ := writeFields_cons.1 h
      · obtain ⟨habsent, hoptional⟩ := Field.lookup_eq_none_iff.1 hlookup
        rw [normalFields_of_lookup_none hlookup]
        exact .inl ⟨hoptional, trivial, ih (hknown.skip hnewField habsent) hnewRest hlength h⟩
      · obtain ⟨hvalue, htype⟩ := Field.lookup_eq_some_iff.1 hlookup
        rw [List.length_append] at hlength
        have hderives : field.Derives (Framed mode) (type.Derives .free mode) first
            (field.mapValue type.normal value) :=
          hfield.map Framing.encloses_written
            (fun _ _ _ hle hframe => Framing.framed_of_written mode hframe (by omega))
            fun override part item hitem hle hwrite =>
              htypes field List.mem_cons_self value type hlookup _ override part item hitem (by omega) hwrite
        have hpushed : KnowsIdentifiers (earlier ++ [field])
            (known.push field.name (field.mapValue type.normal value)) given := by
          refine hknown.push (fun other hother => hdistinct.ne (.inl hother)) hnewField ?_
          intro hidentifier
          rw [hvalue, mapValue_normal_of_isIdentifier hidentifier htype]
        -- The sequence in the result is the one that the other fields are appended to.
        have hfields : { known with fields := known.fields ++ normalFields (field :: rest) given } =
            { known.push field.name (field.mapValue type.normal value) with
              fields := (known.push field.name (field.mapValue type.normal value)).fields ++
                normalFields rest given } := by
          rw [normalFields_of_lookup_some hlookup]
          simp [Sequence.push]
        rw [hfields]
        exact .inr ⟨type, first, others, _, (hknown.resolve?_eq hselector).trans htype, rfl, hderives,
          ih hpushed (Field.get?_push_of_new (fun other hother => hdistinct.ne (.inr hother)) hnewRest)
            (by omega) h⟩

/-- **What is written for a value derives its normal form**, in every mode, provided that its leaves are
    canonical and its length fits eight octets. -/
theorem derives_normal {mode : Mode} {schema : Schema} (hschema : schema.Everywhere Field.Keyed)
    {name : String} {override : Option Tag} {value : Value} {octets : Octets}
    (hleaves : schema.HasCanonicalLeaves value)
    (hlength : octets.length < Length.limit) (h : schema.write name override value = .ok octets) :
    schema.Derives .free mode override octets (schema.normal override value) := by
  induction hschema generalizing name override value octets with
  | primitive tag =>
      obtain ⟨type, content, htype, hcontent, rfl⟩ := write_primitive.1 h
      have hframe := framed_frame mode ⟨override.getD tag, false⟩
        (Nat.lt_of_le_of_lt (length_content_le_frame _ content) hlength)
      rw [normal]
      exact derives_primitive.2 ⟨type, content, htype, hframe,
        type.decode_of_content? mode hcontent (hleaves value (.primitive htype hcontent))⟩
  | any =>
      obtain ⟨found, hfound, rfl⟩ := write_any.1 h
      have hframe := framed_frame mode ⟨found.tag, found.constructed⟩
        (Nat.lt_of_le_of_lt (length_content_le_frame _ found.content) hlength)
      rw [normal, hfound]
      exact derives_any.2 ⟨found, hframe, all_of_ofValue? hfound, rfl⟩
  | @sequence typeName fields hfields _ ih =>
      -- The octets captured are those written under the name of the type, which are the same ones.
      have hwrite : (sequence typeName fields).write typeName override value = .ok octets :=
        write_sequence.2 (write_sequence.1 h)
      obtain ⟨given, content, rfl, -, hcontent, rfl⟩ := write_sequence.1 h
      have hlt := Nat.lt_of_le_of_lt (length_content_le_frame _ content) hlength
      rw [normal, hwrite]
      refine derives_sequence.2 ⟨content, ⟨normalFields fields given, none⟩, framed_frame mode _ hlt,
        ?_, rfl⟩
      refine derivesFields_normal ?_ (show Field.DistinctNames ([] ++ fields) from hfields.distinct)
        hfields.identifiers (fun _ hfield => absurd hfield List.not_mem_nil) (fun _ _ => rfl) hlt hcontent
      intro field hfield value type hlookup name override part item hitem hpart hwrite
      exact ih field hfield type (Field.resolve?_mem (Field.lookup_eq_some_iff.1 hlookup).2)
        (fun leaf hleaf => hleaves leaf (.field hfield hlookup hitem hleaf)) hpart hwrite

/-! ## Result -/

/-- What is written for a value is decoded to its normal form, in every mode. -/
theorem decode_of_write {mode : Mode} {schema : Schema} (hschema : schema.Everywhere Field.Dispatched)
    (hambiguous : schema.ambiguousField? = none) {value : Value} {octets : Octets}
    (hleaves : schema.HasCanonicalLeaves value)
    (hlength : octets.length < Length.limit) (h : schema.encode value = .ok octets) :
    schema.decode mode octets = .ok (schema.normal none value) :=
  decode_eq_ok_iff.2 (derives_byTag (hschema.mono fun _ hfields => hfields.skips) hambiguous
    (derives_normal (hschema.mono fun _ => Field.Dispatched.keyed) hleaves hlength (encode_eq_ok_iff.1 h)))

/-- **Decoding undoes encoding.** For every schema without ambiguous fields, an encoded value with canonical
    leaves is decoded from its DER encoding to its normal form. -/
theorem decode_of_encode {schema : Schema} (hschema : schema.Everywhere Field.Dispatched)
    (hambiguous : schema.ambiguousField? = none) {value : Value} {octets : Octets}
    (hleaves : schema.HasCanonicalLeaves value)
    (hencode : schema.encode value = .ok octets) (hlength : octets.length < 2 ^ 64) :
    schema.decode .der octets = .ok (schema.normal none value) :=
  decode_of_write hschema hambiguous hleaves hlength hencode

/-- The fields of an algorithm with its parameters in front, and a BOOLEAN for them. -/
def reversedAlgorithm : Sequence Value :=
  ⟨[("parameters", .boolean true), ("algorithm", .objectIdentifier .subjectKeyIdentifier)], none⟩

/-- For `reversedAlgorithm` the order is mended, and the parameters come back as a value of unknown type. -/
theorem decode_of_encode_reversed :
    algorithmIdentifier.Everywhere Field.Dispatched ∧ algorithmIdentifier.ambiguousField? = none ∧
      ∃ value, algorithmIdentifier.HasCanonicalLeaves value ∧
        algorithmIdentifier.encode value =
          .ok [0x30, 0x08, 0x06, 0x03, 0x55, 0x1D, 0x0E, 0x01, 0x01, 0xFF] ∧
        algorithmIdentifier.decode .der [0x30, 0x08, 0x06, 0x03, 0x55, 0x1D, 0x0E, 0x01, 0x01, 0xFF] =
          .ok (algorithmIdentifier.normal none value) ∧
        algorithmIdentifier.normal none value =
          .sequence ⟨[("algorithm", .objectIdentifier .subjectKeyIdentifier),
            ("parameters", .any ⟨.boolean, false, [0xFF]⟩)],
            some ⟨[0x30, 0x08, 0x06, 0x03, 0x55, 0x1D, 0x0E, 0x01, 0x01, 0xFF]⟩⟩ := by
  have hleaves : algorithmIdentifier.HasCanonicalLeaves (.sequence reversedAlgorithm) := by
    refine hasCanonicalLeaves_sequence.2 fun field hfield value type hlookup item hitem => ?_
    obtain ⟨hvalue, htype⟩ := Field.lookup_eq_some_iff.1 hlookup
    simp only [List.mem_cons, List.not_mem_nil, or_false] at hfield
    obtain rfl | rfl := hfield
    · obtain rfl := Option.some.inj hvalue
      obtain rfl := Option.some.inj htype
      obtain rfl := List.mem_singleton.1 hitem
      exact hasCanonicalLeaves_primitive _ (by cbv)
    · obtain rfl := Option.some.inj htype
      exact hasCanonicalLeaves_any item
  have hambiguous : algorithmIdentifier.ambiguousField? = none :=
    ambiguousField?_of_mem_certificateSchemas List.mem_cons_self
  have hwrite : algorithmIdentifier.write "AlgorithmIdentifier" none (.sequence reversedAlgorithm) =
      .ok [0x30, 0x08, 0x06, 0x03, 0x55, 0x1D, 0x0E, 0x01, 0x01, 0xFF] := by
    decide +kernel
  have hencode := encode_eq_ok_iff.2 hwrite
  refine ⟨dispatched_algorithmIdentifier, hambiguous, _, hleaves, hencode,
    decode_of_encode dispatched_algorithmIdentifier hambiguous hleaves hencode (by decide), ?_⟩
  unfold algorithmIdentifier at hwrite ⊢
  rw [normal, hwrite, normalFields_of_lookup_some (Field.lookup_eq_some_iff.2 ⟨rfl, rfl⟩),
    normalFields_of_lookup_some (Field.lookup_eq_some_iff.2 ⟨rfl, rfl⟩), normalFields]
  cbv

end Schema

end Asn1
