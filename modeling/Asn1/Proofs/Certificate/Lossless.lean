import Asn1.Proofs.Certificate.Decode
import Asn1.Proofs.Certificate.RoundTrip
import Asn1.Proofs.Certificate.Schema
import Asn1.Proofs.Schema.Congruence
import Asn1.Proofs.Schema.Reproduction

/-!
# `Asn1.Proofs.Certificate.Lossless` — entities lose nothing

A value of the schema of an entity always converts to one, so decoding an entity fails only where its
schema does. The entity stands for the same data: an absent field stays absent, an empty list of
extensions stays a list, and parameters are kept as they are. So DER is reproduced octet for octet.

## Contents
- **Representation.** `Entity.Represents`, and what it gives: `Entity.Lossless`.
- **Types.** One lemma `represents` for each type of entity, from what its schema derives.
- **Result.** `Entity.lossless_certificate`.
-/

namespace Asn1

/-! ## Representation -/

namespace Entity

/-- The value converts to an entity that stands for the same data. -/
def Represents (α : Type) [Entity α] (value : Value) : Prop :=
  ∃ entity : α, ofValue? value = some entity ∧ value.same (toValue entity) = true

/-- Nothing is lost between the values of a schema and the entities made of them. -/
structure Lossless (α : Type) [Entity α] : Prop where
  /-- Decoding fails exactly where the schema does, and with the same error. -/
  fails : ∀ mode data error, (decode mode data : Except DecodeError α) = .error error ↔
    (schema α).decode mode data = .error error
  /-- Every value that is decoded converts to an entity. -/
  converts : ∀ mode data value, (schema α).decode mode data = .ok value →
    ∃ entity : α, ofValue? value = some entity ∧ decode mode data = .ok entity
  /-- DER is reproduced octet for octet. -/
  reproduces : ∀ data (entity : α), decode .der data = .ok entity → encode entity = .ok data

variable {α : Type} [Entity α]

/-- Items that are represented one by one are represented as a list. -/
theorem Represents.exists_mapM {values : List Value} (h : ∀ value ∈ values, Represents α value) :
    ∃ entities : List α, values.mapM ofValue? = some entities ∧
      Value.sameItems values (entities.map toValue) = true := by
  induction values with
  | nil => exact ⟨[], rfl, rfl⟩
  | cons value rest ih =>
      obtain ⟨entity, hentity, hsame⟩ := h value List.mem_cons_self
      obtain ⟨entities, hentities, hrest⟩ := ih fun other hother => h other (List.mem_cons_of_mem _ hother)
      refine ⟨entity :: entities, ?_, ?_⟩
      · rw [List.mapM_cons, hentity, hentities]
        rfl
      · rw [List.map_cons, Value.sameItems, hsame, hrest]
        rfl

/-- **A type of entity loses nothing if its schema derives only what it represents.** -/
theorem lossless_of_represents (hschema : (schema α).Everywhere Field.Ordered)
    (h : ∀ mode octets value, (schema α).Derives (.byTag mode) mode none octets value → Represents α value) :
    Lossless α := by
  have hdecode {mode : Mode} {data : Octets} {value : Value} {entity : α}
      (hvalue : (schema α).decode mode data = .ok value) (hentity : ofValue? value = some entity) :
      decode mode data = .ok entity :=
    Entity.decode_eq_ok_iff.2 ⟨value, hvalue, hentity⟩
  have hrepresents {mode : Mode} {data : Octets} {value : Value}
      (hvalue : (schema α).decode mode data = .ok value) : Represents α value :=
    h mode data value (Schema.decode_eq_ok_iff.1 hvalue)
  constructor
  case fails =>
    intro mode data error
    cases hvalue : (schema α).decode mode data with
    | error found =>
        have hfound : (decode mode data : Except DecodeError α) = .error found := by
          unfold decode
          rw [hvalue]
          rfl
        rw [hfound]
        constructor
        · intro h
          rw [Except.error.inj h]
        · intro h
          rw [Except.error.inj h]
    | ok value =>
        obtain ⟨entity, hentity, -⟩ := hrepresents hvalue
        rw [hdecode hvalue hentity]
        constructor
        · nofun
        · nofun
  case converts =>
    intro mode data value hvalue
    obtain ⟨entity, hentity, -⟩ := hrepresents hvalue
    exact ⟨entity, hentity, hdecode hvalue hentity⟩
  case reproduces =>
    intro data entity hentity
    obtain ⟨value, hvalue, hfound⟩ := Entity.decode_eq_ok_iff.1 hentity
    obtain ⟨represented, hrepresented, hsame⟩ := hrepresents hvalue
    obtain rfl := Option.some.inj (hfound.symm.trans hrepresented)
    -- The schema reproduces the value decoded, and the encoder takes the entity for it.
    have hwrite := Schema.write_of_derives hschema (schema α).name (Schema.decode_eq_ok_iff.1 hvalue)
    exact Schema.encode_eq_ok_iff.2 (Schema.write_of_same _ hsame hwrite)

end Entity

/-! ## Types -/

section Types

variable {rule : OmissionRule} {mode : Mode} {override : Option Tag} {octets : Octets} {value : Value}

/-- Parameters are kept, whatever type they have, and stay absent if they are. -/
theorem AlgorithmIdentifier.represents
    (h : Schema.algorithmIdentifier.Derives rule mode override octets value) :
    Entity.Represents AlgorithmIdentifier value := by
  obtain ⟨_, _, -, hfields, rfl⟩ := Schema.derives_sequence.1 h
  obtain ⟨_, _, _, -, halgorithm, hfields⟩ := Schema.derivesFields_plain.1 hfields
  obtain ⟨algorithm, rfl⟩ := Schema.holds_of_derives .objectIdentifier halgorithm
  rcases Schema.derivesFields_cons.1 hfields with ⟨-, -, hfields⟩ | ⟨_, _, _, parameters, -, -, -, hfields⟩
  · obtain ⟨-, rfl⟩ := Schema.derivesFields_nil.1 hfields
    exact ⟨⟨algorithm, none⟩, rfl, Value.sameFields_refl _⟩
  · obtain ⟨-, rfl⟩ := Schema.derivesFields_nil.1 hfields
    exact ⟨⟨algorithm, some parameters⟩, rfl, Value.sameFields_refl _⟩

/-- The critical flag is kept as it is, and stays absent if it is. -/
theorem Extension.represents (h : Schema.certificateExtension.Derives rule mode override octets value) :
    Entity.Represents Extension value := by
  obtain ⟨_, given, -, hfields, rfl⟩ := Schema.derives_sequence.1 h
  obtain ⟨_, _, _, -, hid, hfields⟩ := Schema.derivesFields_plain.1 hfields
  obtain ⟨id, rfl⟩ := Schema.holds_of_derives .objectIdentifier hid
  -- With or without the flag, what is left is the field after it.
  have hcritical : ∃ (critical : Option Bool) (rest : Octets),
      Schema.DerivesFields rule mode [.plain "value" (.primitive .octetString)]
        ⟨("id", .objectIdentifier id) :: critical.toList.map fun flag => ("critical", .boolean flag), none⟩
        rest given := by
    rcases Schema.derivesFields_cons.1 hfields with
      ⟨-, -, hfields⟩ | ⟨type, _, rest, flag, htype, -, hflag, hfields⟩
    · exact ⟨none, _, hfields⟩
    · obtain rfl := Option.some.inj htype
      obtain ⟨critical, rfl⟩ := Schema.holds_of_derives .boolean hflag
      exact ⟨some critical, rest, hfields⟩
  obtain ⟨critical, _, hfields⟩ := hcritical
  obtain ⟨_, _, _, -, hcontent, hfields⟩ := Schema.derivesFields_plain.1 hfields
  obtain ⟨content, rfl⟩ := Schema.holds_of_derives .octetString hcontent
  obtain ⟨-, rfl⟩ := Schema.derivesFields_nil.1 hfields
  refine ⟨⟨id, critical, content⟩, ?_, Value.sameFields_refl _⟩
  cases critical with
  | none => rfl
  | some flag => rfl

theorem RsaPublicKey.represents (h : Schema.rsaPublicKey.Derives rule mode override octets value) :
    Entity.Represents RsaPublicKey value := by
  obtain ⟨_, _, -, hfields, rfl⟩ := Schema.derives_sequence.1 h
  obtain ⟨_, _, _, -, hmodulus, hfields⟩ := Schema.derivesFields_plain.1 hfields
  obtain ⟨_, _, _, -, hexponent, hfields⟩ := Schema.derivesFields_plain.1 hfields
  obtain ⟨-, rfl⟩ := Schema.derivesFields_nil.1 hfields
  obtain ⟨modulus, rfl⟩ := Schema.holds_of_derives .integer hmodulus
  obtain ⟨exponent, rfl⟩ := Schema.holds_of_derives .integer hexponent
  exact ⟨⟨modulus, exponent⟩, rfl, Value.sameFields_refl _⟩

theorem SubjectPublicKeyInfo.represents
    (h : Schema.subjectPublicKeyInfo.Derives rule mode override octets value) :
    Entity.Represents SubjectPublicKeyInfo value := by
  obtain ⟨_, _, -, hfields, rfl⟩ := Schema.derives_sequence.1 h
  obtain ⟨_, _, identifier, -, hidentifier, hfields⟩ := Schema.derivesFields_plain.1 hfields
  obtain ⟨_, _, _, -, hbits, hfields⟩ := Schema.derivesFields_plain.1 hfields
  obtain ⟨-, rfl⟩ := Schema.derivesFields_nil.1 hfields
  obtain ⟨bits, rfl⟩ := Schema.holds_of_derives .bitString hbits
  obtain ⟨algorithm, halgorithm, hsame⟩ := AlgorithmIdentifier.represents hidentifier
  refine ⟨⟨algorithm, bits⟩, ?_, Value.sameFields_cons hsame (Value.sameFields_refl _)⟩
  show (AlgorithmIdentifier.ofValue? identifier).bind _ = _
  rw [show AlgorithmIdentifier.ofValue? identifier = some algorithm from halgorithm]
  rfl

/-- The extensions are a list if the field is there, be it an empty one, and absent if it is not. -/
theorem CertificateInfo.represents (h : Schema.certificateInfo.Derives rule mode override octets value) :
    Entity.Represents CertificateInfo value := by
  obtain ⟨_, _, -, hfields, rfl⟩ := Schema.derives_sequence.1 h
  obtain ⟨_, _, _, -, hserialNumber, hfields⟩ := Schema.derivesFields_plain.1 hfields
  obtain ⟨_, _, identifier, -, hidentifier, hfields⟩ := Schema.derivesFields_plain.1 hfields
  obtain ⟨_, _, key, -, hkey, hfields⟩ := Schema.derivesFields_plain.1 hfields
  obtain ⟨serialNumber, rfl⟩ := Schema.holds_of_derives .integer hserialNumber
  obtain ⟨algorithm, halgorithm, hsame⟩ := AlgorithmIdentifier.represents hidentifier
  obtain ⟨publicKey, hpublicKey, hsameKey⟩ := SubjectPublicKeyInfo.represents hkey
  rcases Schema.derivesFields_cons.1 hfields with
    ⟨-, -, hfields⟩ | ⟨type, part, _, extensions, htype, -, hextensions, hfields⟩
  · obtain ⟨-, rfl⟩ := Schema.derivesFields_nil.1 hfields
    refine ⟨⟨serialNumber, algorithm, publicKey, none⟩, ?_, ?_⟩
    · exact ofValue?_sequence none halgorithm hpublicKey rfl
    · exact Value.sameFields_cons (Value.same_refl _) (Value.sameFields_cons hsame
        (Value.sameFields_cons hsameKey rfl))
  · obtain ⟨-, rfl⟩ := Schema.derivesFields_nil.1 hfields
    obtain rfl := Option.some.inj htype
    obtain ⟨_, ⟨items, rfl, -⟩, -⟩ := hextensions.exists_repeated
    have hitems : ∀ item ∈ items, Entity.Represents Extension item := by
      intro item hitem
      obtain ⟨_, hderives, -⟩ := hextensions.exists_of_mem_parts (Framing.encloses_framed mode) hitem
      exact Extension.represents hderives
    obtain ⟨extensions, hmap, hsameItems⟩ := Entity.Represents.exists_mapM hitems
    refine ⟨⟨serialNumber, algorithm, publicKey, some extensions⟩, ?_, ?_⟩
    · exact ofValue?_sequence (some items) halgorithm hpublicKey (congrArg (Option.map some) hmap)
    · exact Value.sameFields_cons (Value.same_refl _) (Value.sameFields_cons hsame
        (Value.sameFields_cons hsameKey (Value.sameFields_cons hsameItems rfl)))

/-- The octets captured for the signed part are there, so that nothing has to be encoded. -/
theorem Certificate.represents (h : Schema.certificate.Derives rule mode none octets value) :
    Entity.Represents Certificate value := by
  obtain ⟨_, _, _, _, _, _, -, hinfo, hidentifier, hbits, rfl⟩ := Schema.derives_certificate.1 h
  obtain ⟨given, rfl, hraw⟩ := Schema.raw_of_derives hinfo
  obtain ⟨info, hinfo', hsame⟩ := CertificateInfo.represents hinfo
  obtain ⟨algorithm, halgorithm, hsameAlgorithm⟩ := AlgorithmIdentifier.represents hidentifier
  obtain ⟨bits, rfl⟩ := Schema.holds_of_derives .bitString hbits
  refine ⟨⟨info, algorithm, bits, _⟩, (ofValue?_eq_some_iff hraw).2 ⟨hinfo', halgorithm, rfl, rfl⟩, ?_⟩
  exact Value.sameFields_cons hsame (Value.sameFields_cons hsameAlgorithm (Value.sameFields_refl _))

end Types

/-! ## Result -/

/-- **No type of entity loses anything.** Whatever its schema decodes converts to an entity, so that decoding
    fails only where the schema does, and an entity decoded from DER is encoded to the same octets. -/
theorem Entity.lossless_certificate :
    Lossless Certificate ∧ Lossless CertificateInfo ∧ Lossless AlgorithmIdentifier ∧ Lossless Extension ∧
      Lossless SubjectPublicKeyInfo ∧ Lossless RsaPublicKey := by
  have hordered {schema : Schema} (h : schema.Everywhere Field.Dispatched) :
      schema.Everywhere Field.Ordered :=
    h.mono fun _ => Field.Dispatched.ordered
  refine ⟨?_, ?_, ?_, ?_, ?_, ?_⟩
  · exact lossless_of_represents (hordered Schema.dispatched_certificate) fun _ _ _ => Certificate.represents
  · exact lossless_of_represents (hordered Schema.dispatched_certificateInfo)
      fun _ _ _ => CertificateInfo.represents
  · exact lossless_of_represents (hordered Schema.dispatched_algorithmIdentifier)
      fun _ _ _ => AlgorithmIdentifier.represents
  · exact lossless_of_represents (hordered Schema.dispatched_certificateExtension)
      fun _ _ _ => Extension.represents
  · exact lossless_of_represents (hordered Schema.dispatched_subjectPublicKeyInfo)
      fun _ _ _ => SubjectPublicKeyInfo.represents
  · exact lossless_of_represents (hordered Schema.dispatched_rsaPublicKey)
      fun _ _ _ => RsaPublicKey.represents

/-- A signed part with an empty list of extensions keeps the list, and the wrapper it is in. -/
theorem Entity.lossless_certificate_emptyExtensions :
    ∃ info : CertificateInfo, info.extensions = some [] ∧
      decode .der [0x30, 0x22, 0x02, 0x01, 0x07, 0x30, 0x05, 0x06, 0x03, 0x55, 0x1D, 0x0E,
        0x30, 0x12, 0x30, 0x05, 0x06, 0x03, 0x55, 0x1D, 0x0E, 0x03, 0x09, 0x00, 0x30, 0x06, 0x02, 0x01,
        0x05, 0x02, 0x01, 0x03, 0xA3, 0x02, 0x30, 0x00] = .ok info ∧
      encode info = .ok [0x30, 0x22, 0x02, 0x01, 0x07, 0x30, 0x05, 0x06, 0x03, 0x55, 0x1D, 0x0E,
        0x30, 0x12, 0x30, 0x05, 0x06, 0x03, 0x55, 0x1D, 0x0E, 0x03, 0x09, 0x00, 0x30, 0x06, 0x02, 0x01,
        0x05, 0x02, 0x01, 0x03, 0xA3, 0x02, 0x30, 0x00] := by
  have hdecode : decode .der [0x30, 0x22, 0x02, 0x01, 0x07, 0x30, 0x05, 0x06, 0x03, 0x55, 0x1D, 0x0E,
      0x30, 0x12, 0x30, 0x05, 0x06, 0x03, 0x55, 0x1D, 0x0E, 0x03, 0x09, 0x00, 0x30, 0x06, 0x02, 0x01,
      0x05, 0x02, 0x01, 0x03, 0xA3, 0x02, 0x30, 0x00] =
      .ok (⟨⟨false, [0x07], by decide, by decide⟩, ⟨.subjectKeyIdentifier, none⟩, ⟨⟨.subjectKeyIdentifier, none⟩,
        ⟨0, [0x30, 0x06, 0x02, 0x01, 0x05, 0x02, 0x01, 0x03]⟩⟩, some []⟩ : CertificateInfo) :=
    decode_eq_ok_iff.2 ⟨_, by cbv, rfl⟩
  exact ⟨_, rfl, hdecode, lossless_certificate.2.1.reproduces _ _ hdecode⟩

end Asn1
