import Asn1.Proofs.Certificate.Schema
import Asn1.Proofs.Schema.Decode
import Asn1.Proofs.Schema.Encode

/-!
# `Asn1.Proofs.Schema.Reproduction` — DER input is written back as it was

DER leaves no choice in headers and primitive content, and the encoder resolves each type from all fields
as the decoder did from those before it. So encoding a decoded value gives the input again.

## Contents
- **Fields.** What was derived is found again: `Schema.DerivesFields.lookup_eq_some`. With it,
  `Schema.writeFields_of_derivesFields` for fields whose types are written back.
- **Types.** `Schema.write_of_derives` by induction over the types.
- **Result.** `Schema.encode_of_decode_der`.
-/

namespace Asn1

/-- Fields framed in DER are written back if their items are. -/
theorem Field.Derives.written {rule : OmissionRule} {field : Field Schema} {type : Schema} {name : String}
    {octets : Octets} {value : Value}
    (hitem : ∀ override part value, type.Derives rule .der override part value →
      type.write name override value = .ok part)
    (h : field.Derives (Framed .der) (type.Derives rule .der) octets value) :
    field.Derives .written (.by (type.write name)) octets value :=
  h.mono (Framing.encloses_framed _)
    (fun _ _ _ hframe => hframe.eq_frame) hitem

namespace Schema

variable {rule : OmissionRule}

/-! ## Fields -/

section Fields

variable {mode : Mode} {field : Field Schema} {rest : List (Field Schema)}
  {known given full : Sequence Value} {octets : Octets}

/-- A field that was passed over is not found in the sequence. -/
theorem DerivesFields.lookup_eq_none (h : DerivesFields rule mode rest known octets given)
    (hother : ∀ other ∈ rest, other.name ≠ field.name) (hnew : known.get? field.name = none)
    (hoptional : field.optional = true) (hfull : ∀ name, full.get? name = given.get? name) :
    field.lookup full = .ok none :=
  Field.lookup_eq_none_iff.2 ⟨by rw [hfull, h.get?_of_not_mem hother, hnew], hoptional⟩

/-- A field that was there is found in the sequence with the type it had. That was resolved from the fields
    before it; those after it do not matter, as a selector refers to nothing that comes later. -/
theorem DerivesFields.lookup_eq_some {value : Value} {type : Schema}
    (h : DerivesFields rule mode rest (known.push field.name value) octets given)
    (hselector : ∀ selector, field.type = .selected selector →
      ∀ other ∈ field :: rest, other.name ≠ selector.field)
    (hnew : known.get? field.name = none) (htype : field.resolve? known = some type)
    (hfull : ∀ name, full.get? name = given.get? name) :
    field.lookup full = .ok (some (value, type)) := by
  have hvalue : given.get? field.name = some value := by
    refine h.get?_of_known ?_
    rw [Sequence.get?_push, hnew, Option.none_or, if_pos rfl]
  have hresolve : field.resolve? full = some type := by
    rw [← htype]
    refine Field.resolve?_congr fun selector hselected => ?_
    have hnone := hselector selector hselected
    rw [hfull, h.get?_of_not_mem fun other hother => hnone other (List.mem_cons_of_mem _ hother),
      Sequence.get?_push, if_neg (hnone field List.mem_cons_self).symm, Option.or_none]
  exact Field.lookup_eq_some_iff.2 ⟨(hfull _).trans hvalue, hresolve⟩

end Fields

/-- **The fields derived are written back**, from any sequence that finds the same values for them. -/
theorem writeFields_of_derivesFields {fields : List (Field Schema)} {known given full : Sequence Value}
    {octets : Octets}
    (htypes : ∀ field ∈ fields, ∀ type ∈ field.type.types, ∀ name override part value,
      type.Derives rule .der override part value → type.write name override value = .ok part)
    (hdistinct : Field.DistinctNames fields) (hbackward : Field.SelectsBackward fields)
    (hnew : ∀ field ∈ fields, known.get? field.name = none)
    (h : DerivesFields rule .der fields known octets given)
    (hfull : ∀ name, full.get? name = given.get? name) :
    writeFields fields full = .ok octets := by
  induction fields generalizing known octets with
  | nil =>
      obtain ⟨rfl, -⟩ := derivesFields_nil.1 h
      exact writeFields_nil.2 rfl
  | cons field rest ih =>
      obtain ⟨hother, hdistinct⟩ := Field.distinctNames_cons.1 hdistinct
      obtain ⟨hselector, hbackward⟩ := hbackward
      have htypesRest := fun other hother => htypes other (List.mem_cons_of_mem _ hother)
      have hnewField := hnew field List.mem_cons_self
      have hnewRest := fun other hother => hnew other (List.mem_cons_of_mem _ hother)
      rw [writeFields_cons]
      obtain ⟨hoptional, -, h⟩ | ⟨type, first, others, value, htype, rfl, hfield, h⟩ :=
        derivesFields_cons.1 h
      · exact .inl ⟨h.lookup_eq_none hother hnewField hoptional hfull,
          ih htypesRest hdistinct hbackward hnewRest h⟩
      · refine .inr ⟨value, type, first, others, h.lookup_eq_some hselector hnewField htype hfull, rfl, ?_,
          ih htypesRest hdistinct hbackward (Field.get?_push_of_new hother hnewRest) h⟩
        exact hfield.written fun override part value =>
          htypes field List.mem_cons_self type (Field.resolve?_mem htype) _ override part value

/-! ## Types -/

/-- All fields derived are known to the type, as nothing else was added. -/
theorem DerivesFields.knowsFields {mode : Mode} {fields : List (Field Schema)} {given : Sequence Value}
    {octets : Octets} (h : DerivesFields rule mode fields .empty octets given) :
    knowsFields fields given = true := by
  refine List.all_eq_true.2 fun name hname => List.any_eq_true.2 ?_
  obtain hknown | ⟨field, hfield, rfl⟩ := h.names_subset hname
  · simp [Sequence.names, Sequence.empty] at hknown
  · exact ⟨field, hfield, beq_self_eq_true _⟩

/-- **A value derived from DER is written back**, whatever the rule for passing over fields. -/
theorem write_of_derives {schema : Schema} (hschema : schema.Everywhere Field.Ordered) (name : String)
    {override : Option Tag} {octets : Octets} {value : Value}
    (h : schema.Derives rule .der override octets value) :
    schema.write name override value = .ok octets := by
  induction hschema generalizing name override octets value with
  | primitive tag =>
      obtain ⟨type, content, htype, hframe, hdecode⟩ := derives_primitive.1 h
      exact write_primitive.2 ⟨type, content, htype, PrimitiveType.content?_of_decode_der hdecode,
        hframe.eq_frame⟩
  | any =>
      obtain ⟨found, hframe, htag, rfl⟩ := derives_any.1 h
      exact write_any.2 ⟨found, AnyValue.ofValue?_any htag, hframe.eq_frame⟩
  | @sequence typeName fields hordered _ ih =>
      obtain ⟨content, given, hframe, hfields, rfl⟩ := derives_sequence.1 h
      exact write_sequence.2 ⟨given.capture octets, content, rfl, hfields.knowsFields,
        writeFields_of_derivesFields (fun field hfield type htype name _ _ _ => ih field hfield type htype name)
          hordered.distinct hordered.backward (fun _ _ => rfl) hfields fun _ => rfl, hframe.eq_frame⟩

/-- **DER input is reproduced octet for octet.** Whatever is decoded from it, with whatever ambiguities
    between optional fields, is encoded to the same octets. -/
theorem encode_of_decode_der {schema : Schema} (hschema : schema.Everywhere Field.Ordered)
    {data : Octets} {value : Value} (h : schema.decode .der data = .ok value) :
    schema.encode value = .ok data :=
  encode_eq_ok_iff.2 (write_of_derives hschema schema.name (decode_eq_ok_iff.1 h))

/-- The identifier of RSA encryption with its NULL parameters, which the selector asks for. -/
theorem encode_of_decode_der_rsaEncryption :
    algorithmIdentifier.Everywhere Field.Ordered ∧
      ∃ value, algorithmIdentifier.decode .der
          [0x30, 0x0D, 0x06, 0x09, 0x2A, 0x86, 0x48, 0x86, 0xF7, 0x0D, 0x01, 0x01, 0x01, 0x05, 0x00] =
            .ok value ∧
        algorithmIdentifier.encode value =
          .ok [0x30, 0x0D, 0x06, 0x09, 0x2A, 0x86, 0x48, 0x86, 0xF7, 0x0D, 0x01, 0x01, 0x01, 0x05, 0x00] := by
  have hdecode : algorithmIdentifier.decode .der
      [0x30, 0x0D, 0x06, 0x09, 0x2A, 0x86, 0x48, 0x86, 0xF7, 0x0D, 0x01, 0x01, 0x01, 0x05, 0x00] =
        .ok (.sequence ⟨[("algorithm", .objectIdentifier .rsaEncryption), ("parameters", .null)],
          some ⟨[0x30, 0x0D, 0x06, 0x09, 0x2A, 0x86, 0x48, 0x86, 0xF7, 0x0D, 0x01, 0x01, 0x01, 0x05,
            0x00]⟩⟩) := by
    cbv
  have hordered := dispatched_algorithmIdentifier.mono fun _ => Field.Dispatched.ordered
  exact ⟨hordered, _, hdecode, encode_of_decode_der hordered hdecode⟩

end Schema

end Asn1
