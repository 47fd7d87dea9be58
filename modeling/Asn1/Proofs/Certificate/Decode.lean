import Asn1.Certificate
import Asn1.Proofs.Schema.Decode

/-!
# `Asn1.Proofs.Certificate.Decode` — a certificate is decoded part by part

The octets of a certificate are a frame around three parts, each of which can be decoded by itself with
the same outcome. In particular the signed octets kept are those of the first part.

## Contents
- **Entities.** `Entity.decode_eq_ok_iff`: decoding goes through the schema.
- **Plain fields.** `Schema.derivesFields_plain` for a required field of fixed type under its natural tag.
- **Signed parts.** `CertificateInfo.ofValue?_eq_some_iff`: what is made of each field.
- **Certificates.** `Certificate.decode_eq_ok_iff`, and `Certificate.SignedPart`, which says where the signed
  part is and that it is the only one.
-/

namespace Asn1

/-! ## Entities -/

theorem Entity.decode_eq_ok_iff {α : Type} [Entity α] {mode : Mode} {data : Octets} {entity : α} :
    Entity.decode mode data = .ok entity ↔
      ∃ value, (Entity.schema α).decode mode data = .ok value ∧ Entity.ofValue? value = some entity := by
  unfold Entity.decode
  constructor
  · intro h
    obtain ⟨value, hvalue, h⟩ := bind_eq_ok_iff.1 h
    split at h
    · rename_i found hfound
      obtain rfl := Except.ok.inj h
      exact ⟨value, hvalue, hfound⟩
    · simp at h
  · rintro ⟨value, hvalue, hentity⟩
    exact bind_eq_ok_iff.2 ⟨value, hvalue, by rw [hentity]⟩

/-! ## Plain fields -/

namespace Schema

/-- A plain field is always there, with its type and nothing around it. -/
theorem derivesFields_plain {rule : OmissionRule} {mode : Mode} {name : String} {type : Schema}
    {rest : List (Field Schema)} {known given : Sequence Value} {octets : Octets} :
    DerivesFields rule mode (.plain name type :: rest) known octets given ↔
      ∃ first others value, octets = first ++ others ∧ type.Derives rule mode none first value ∧
        DerivesFields rule mode rest (known.push name value) others given := by
  rw [derivesFields_cons]
  constructor
  · rintro (⟨hoptional, -, -⟩ | ⟨found, first, others, value, hfound, hoctets, hfirst, h⟩)
    · cases hoptional
    · obtain rfl := Option.some.inj hfound
      exact ⟨first, others, value, hoctets, hfirst, h⟩
  · rintro ⟨first, others, value, hoctets, hfirst, h⟩
    exact .inr ⟨type, first, others, value, rfl, hoctets, hfirst, h⟩

/-- A sequence captures all of its encoding. -/
theorem raw_of_derives {rule : OmissionRule} {mode : Mode} {name : String} {fields : List (Field Schema)}
    {override : Option Tag} {octets : Octets} {value : Value}
    (h : (sequence name fields).Derives rule mode override octets value) :
    ∃ given, value = .sequence given ∧ given.raw = some ⟨octets⟩ := by
  obtain ⟨content, given, -, -, rfl⟩ := derives_sequence.1 h
  exact ⟨given.capture octets, rfl, rfl⟩

/-- The encoding of a certificate is a frame around those of its three fields. -/
theorem derives_certificate {rule : OmissionRule} {mode : Mode} {data : Octets} {value : Value} :
    certificate.Derives rule mode none data value ↔
      ∃ (signed algorithm signature : Octets) (info identifier bits : Value),
        Framed mode ⟨.sequence, true⟩ (signed ++ algorithm ++ signature) data ∧
        certificateInfo.Derives rule mode none signed info ∧
        algorithmIdentifier.Derives rule mode none algorithm identifier ∧
        (primitive .bitString).Derives rule mode none signature bits ∧
        value = .sequence ⟨[("tbs", info), ("signatureAlgorithm", identifier), ("signature", bits)],
          some ⟨data⟩⟩ := by
  rw [certificate, derives_sequence]
  simp only [derivesFields_plain, derivesFields_nil]
  constructor
  · rintro ⟨_, _, hframe, ⟨signed, _, info, rfl, hinfo, algorithm, _, identifier, rfl, hidentifier,
      signature, _, bits, rfl, hbits, rfl, rfl⟩, rfl⟩
    rw [List.append_nil, ← List.append_assoc] at hframe
    exact ⟨signed, algorithm, signature, info, identifier, bits, hframe, hinfo, hidentifier, hbits, rfl⟩
  · rintro ⟨signed, algorithm, signature, info, identifier, bits, hframe, hinfo, hidentifier, hbits, rfl⟩
    rw [List.append_assoc] at hframe
    exact ⟨_, _, hframe, ⟨signed, _, info, rfl, hinfo, algorithm, _, identifier, rfl, hidentifier,
      signature, _, bits, (List.append_nil _).symm, hbits, rfl, rfl⟩, rfl⟩

end Schema

/-! ## Signed parts -/

/-- The extensions in the items of a value. -/
def Extension.listOfValue? (value : Value) : Option (List Extension) :=
  value.asItems?.bind (·.mapM ofValue?)

/-- A signed part is made of four fields, of which the last one may be absent. -/
theorem CertificateInfo.ofValue?_eq_some_iff {given : Sequence Value} {info : CertificateInfo} :
    ofValue? (.sequence given) = some info ↔
      (given.get? "serialNumber").bind Value.asInteger? = some info.serialNumber ∧
      (given.get? "signatureAlgorithm").bind AlgorithmIdentifier.ofValue? = some info.signatureAlgorithm ∧
      (given.get? "subjectPublicKeyInfo").bind SubjectPublicKeyInfo.ofValue? = some info.publicKey ∧
      (given.get? "extensions").mapM Extension.listOfValue? = some info.extensions := by
  -- The fields are looked up one by one, the extensions first.
  have hunfold : ofValue? (.sequence given) = (do
      let extensions ← (given.get? "extensions").mapM Extension.listOfValue?
      let serialNumber ← (given.get? "serialNumber").bind Value.asInteger?
      let algorithm ← (given.get? "signatureAlgorithm").bind AlgorithmIdentifier.ofValue?
      let publicKey ← (given.get? "subjectPublicKeyInfo").bind SubjectPublicKeyInfo.ofValue?
      return ⟨serialNumber, algorithm, publicKey, extensions⟩) := by
    unfold ofValue?
    simp only [Value.asSequence?, Option.bind_eq_bind, Option.bind_some, Option.bind_assoc]
    cases given.get? "extensions" with
    | none => rfl
    | some value =>
        show value.asItems?.bind _ = ((value.asItems?.bind _).map some).bind _
        cases value.asItems? with
        | none => rfl
        | some items => rfl
  rw [hunfold]
  simp only [Option.bind_eq_bind, Option.bind_eq_some_iff]
  constructor
  · rintro ⟨_, hextensions, _, hserialNumber, _, halgorithm, _, hkey, ⟨⟩⟩
    exact ⟨hserialNumber, halgorithm, hkey, hextensions⟩
  · rintro ⟨hserialNumber, halgorithm, hkey, hextensions⟩
    exact ⟨_, hextensions, _, hserialNumber, _, halgorithm, _, hkey, rfl⟩

/-- A signed part with its fields in order, with or without extensions. -/
theorem CertificateInfo.ofValue?_sequence {serialNumber : Integer} {identifier key : Value}
    {raw : Option Captured} (items : Option (List Value)) {algorithm : AlgorithmIdentifier}
    {publicKey : SubjectPublicKeyInfo} {extensions : Option (List Extension)}
    (halgorithm : AlgorithmIdentifier.ofValue? identifier = some algorithm)
    (hkey : SubjectPublicKeyInfo.ofValue? key = some publicKey)
    (hitems : items.mapM (·.mapM Extension.ofValue?) = some extensions) :
    ofValue? (.sequence ⟨[("serialNumber", .integer serialNumber), ("signatureAlgorithm", identifier),
        ("subjectPublicKeyInfo", key)] ++ items.toList.map fun items => ("extensions", .sequenceOf items),
        raw⟩) = some ⟨serialNumber, algorithm, publicKey, extensions⟩ := by
  refine ofValue?_eq_some_iff.2 ⟨rfl, halgorithm, hkey, ?_⟩
  cases items with
  | none => exact hitems
  | some items => exact hitems

/-! ## Certificates -/

theorem Value.asBitString?_eq_some_iff {value : Value} {bits : BitString} :
    value.asBitString? = some bits ↔ value = .bitString bits := by
  cases value <;> simp [asBitString?]

namespace Certificate

/-- What a certificate is made of if the octets of its signed part were captured: nothing is encoded anew. -/
theorem ofValue?_eq_some_iff_of_captured {given signedPart : Sequence Value} {captured : Captured}
    {certificate : Certificate} (htbs : given.get? "tbs" = some (.sequence signedPart))
    (hraw : signedPart.raw = some captured) :
    ofValue? (.sequence given) = some certificate ↔
      CertificateInfo.ofValue? (.sequence signedPart) = some certificate.info ∧
      (given.get? "signatureAlgorithm").bind AlgorithmIdentifier.ofValue? =
        some certificate.signatureAlgorithm ∧
      (given.get? "signature").bind Value.asBitString? = some certificate.signature ∧
      certificate.signedOctets = captured := by
  have hunfold : ofValue? (.sequence given) = (do
      let info ← CertificateInfo.ofValue? (.sequence signedPart)
      let signatureAlgorithm ← (given.get? "signatureAlgorithm").bind AlgorithmIdentifier.ofValue?
      let signature ← (given.get? "signature").bind Value.asBitString?
      return ⟨info, signatureAlgorithm, signature, captured⟩) := by
    unfold ofValue?
    simp only [Value.asSequence?, htbs, hraw, Option.bind_eq_bind, Option.bind_some, Option.bind_assoc]
  rw [hunfold]
  simp only [Option.bind_eq_bind, Option.bind_eq_some_iff]
  constructor
  · rintro ⟨_, hinfo, _, halgorithm, _, hsignature, ⟨⟩⟩
    exact ⟨hinfo, halgorithm, hsignature, rfl⟩
  · rintro ⟨hinfo, halgorithm, hsignature, rfl⟩
    exact ⟨_, hinfo, _, halgorithm, _, hsignature, rfl⟩

/-- The parts of a certificate whose signed part has been captured. -/
theorem ofValue?_eq_some_iff {given : Sequence Value} {identifier bits : Value} {signed : Octets}
    {raw : Option Captured} {certificate : Certificate} (hraw : given.raw = some ⟨signed⟩) :
    ofValue? (.sequence ⟨[("tbs", .sequence given), ("signatureAlgorithm", identifier),
        ("signature", bits)], raw⟩) = some certificate ↔
      CertificateInfo.ofValue? (.sequence given) = some certificate.info ∧
      AlgorithmIdentifier.ofValue? identifier = some certificate.signatureAlgorithm ∧
      bits = .bitString certificate.signature ∧ certificate.signedOctets = ⟨signed⟩ := by
  rw [← Value.asBitString?_eq_some_iff]
  exact ofValue?_eq_some_iff_of_captured rfl hraw

/-- **A certificate is decoded exactly if its parts are.** The signed octets are those of the first part. -/
theorem decode_eq_ok_iff {mode : Mode} {data : Octets} {certificate : Certificate} :
    Entity.decode mode data = .ok certificate ↔
      ∃ signed algorithm signature : Octets,
        Framed mode ⟨.sequence, true⟩ (signed ++ algorithm ++ signature) data ∧
        Entity.decode mode signed = .ok certificate.info ∧
        Entity.decode mode algorithm = .ok certificate.signatureAlgorithm ∧
        (Schema.primitive .bitString).decode mode signature = .ok (.bitString certificate.signature) ∧
        certificate.signedOctets = ⟨signed⟩ := by
  simp only [Entity.decode_eq_ok_iff, Schema.decode_eq_ok_iff]
  constructor
  · rintro ⟨value, hvalue, hcertificate⟩
    obtain ⟨signed, algorithm, signature, info, identifier, bits, hframe, hinfo, hidentifier, hbits, rfl⟩ :=
      Schema.derives_certificate.1 hvalue
    obtain ⟨given, rfl, hraw⟩ := Schema.raw_of_derives hinfo
    obtain ⟨hinfo', hidentifier', rfl, hsigned⟩ := (ofValue?_eq_some_iff hraw).1 hcertificate
    exact ⟨signed, algorithm, signature, hframe, ⟨_, hinfo, hinfo'⟩, ⟨_, hidentifier, hidentifier'⟩,
      hbits, hsigned⟩
  · rintro ⟨signed, algorithm, signature, hframe, ⟨info, hinfo, hinfo'⟩,
      ⟨identifier, hidentifier, hidentifier'⟩, hbits, hsigned⟩
    obtain ⟨given, rfl, hraw⟩ := Schema.raw_of_derives hinfo
    exact ⟨_, Schema.derives_certificate.2 ⟨signed, algorithm, signature, _, identifier, _, hframe,
      hinfo, hidentifier, hbits, rfl⟩,
      (ofValue?_eq_some_iff hraw).2 ⟨hinfo', hidentifier', rfl, hsigned⟩⟩

/-- **Decoding a certificate is decoding its parts one by one.** The data are a header that counts what
    follows it, the signed part, the algorithm and the signature; the certificate is made of what each part
    decodes to by itself, and the signed octets are the first part as it stands in the data, whatever forms
    the headers inside it have. -/
theorem decode_eq_ok_iff_parts {mode : Mode} {data : Octets} {certificate : Certificate} :
    Entity.decode mode data = .ok certificate ↔
      ∃ (head signed algorithm signature : Octets) (info : CertificateInfo)
        (identifier : AlgorithmIdentifier) (bits : BitString),
        data = head ++ signed ++ algorithm ++ signature ∧
        Header.read mode data 0 data.length = .ok (⟨⟨.sequence, true⟩,
          .definite (signed.length + algorithm.length + signature.length)⟩, head.length) ∧
        Entity.decode mode signed = .ok info ∧ Entity.decode mode algorithm = .ok identifier ∧
        (Schema.primitive .bitString).decode mode signature = .ok (.bitString bits) ∧
        certificate = ⟨info, identifier, bits, ⟨signed⟩⟩ := by
  have hlength (signed algorithm signature : Octets) :
      (signed ++ algorithm ++ signature).length = signed.length + algorithm.length + signature.length := by
    rw [List.length_append, List.length_append]
  rw [decode_eq_ok_iff]
  simp only [Framed.iff_read, hlength, ← List.append_assoc]
  constructor
  · rintro ⟨signed, algorithm, signature, ⟨head, hdata, hread⟩, hinfo, hidentifier, hbits, hsigned⟩
    refine ⟨head, signed, algorithm, signature, _, _, _, hdata, hread, hinfo, hidentifier, hbits, ?_⟩
    rw [← hsigned]
  · rintro ⟨head, signed, algorithm, signature, info, identifier, bits, hdata, hread, hinfo, hidentifier,
      hbits, rfl⟩
    exact ⟨signed, algorithm, signature, ⟨head, hdata, hread⟩, hinfo, hidentifier, hbits, rfl⟩

/-- The info of a signed part with serial number 7, modulus 5 and exponent 3. -/
def smallInfo : CertificateInfo where
  serialNumber := .ofUnsigned [7]
  signatureAlgorithm := ⟨.subjectKeyIdentifier, none⟩
  publicKey := ⟨⟨.subjectKeyIdentifier, none⟩, .ofOctets [0x30, 0x06, 0x02, 0x01, 0x05, 0x02, 0x01, 0x03]⟩
  extensions := none

/-- A signed part with `smallInfo`, whose length is longer than need be. -/
def longPart : Octets :=
  [0x30, 0x81, 0x1E, 0x02, 0x01, 0x07, 0x30, 0x05, 0x06, 0x03, 0x55, 0x1D, 0x0E, 0x30, 0x12, 0x30, 0x05, 0x06,
   0x03, 0x55, 0x1D, 0x0E, 0x03, 0x09, 0x00, 0x30, 0x06, 0x02, 0x01, 0x05, 0x02, 0x01, 0x03]

/-- The signed octets are kept with the length as it stands in them. -/
theorem decode_eq_ok_iff_parts_longLength :
    Entity.decode .ber ([0x30, 0x2C] ++ longPart ++ [0x30, 0x05, 0x06, 0x03, 0x55, 0x1D, 0x0E] ++
        [0x03, 0x02, 0x00, 0x30]) =
      .ok (⟨smallInfo, ⟨.subjectKeyIdentifier, none⟩, .ofOctets [0x30], ⟨longPart⟩⟩ : Certificate) := by
  have hinfo : Entity.decode .ber longPart = .ok smallInfo :=
    Entity.decode_eq_ok_iff.2 ⟨_, by cbv, rfl⟩
  have hidentifier : Entity.decode .ber [0x30, 0x05, 0x06, 0x03, 0x55, 0x1D, 0x0E] =
      .ok (⟨.subjectKeyIdentifier, none⟩ : AlgorithmIdentifier) :=
    Entity.decode_eq_ok_iff.2 ⟨_, by cbv, rfl⟩
  have hbits : (Schema.primitive .bitString).decode .ber [0x03, 0x02, 0x00, 0x30] =
      .ok (.bitString (.ofOctets [0x30])) := by
    cbv
  exact decode_eq_ok_iff_parts.2 ⟨[0x30, 0x2C], longPart, [0x30, 0x05, 0x06, 0x03, 0x55, 0x1D, 0x0E],
    [0x03, 0x02, 0x00, 0x30], smallInfo, _, _, rfl, by cbv, hinfo, hidentifier, hbits, rfl⟩

/-- The octets right after the header of the data that decode as the signed part of a certificate. -/
def SignedPart (mode : Mode) (data signed : Octets) : Prop :=
  ∃ after, Framed mode ⟨.sequence, true⟩ (signed ++ after) data ∧
    ∃ info : CertificateInfo, Entity.decode mode signed = .ok info

/-- **There is at most one signed part**, as no encoding is the beginning of another one. -/
theorem SignedPart.unique {mode : Mode} {data signed other : Octets} (h : SignedPart mode data signed)
    (hother : SignedPart mode data other) : signed = other := by
  have hframed {octets : Octets} {info : CertificateInfo} (hdecode : Entity.decode mode octets = .ok info) :
      ∃ content, Framed mode ⟨.sequence, true⟩ content octets := by
    obtain ⟨value, hvalue, -⟩ := Entity.decode_eq_ok_iff.1 hdecode
    obtain ⟨content, given, hframe, -⟩ := Schema.derives_sequence.1 (Schema.decode_eq_ok_iff.1 hvalue)
    exact ⟨content, hframe⟩
  obtain ⟨after, houter, info, hdecode⟩ := h
  obtain ⟨otherAfter, hotherOuter, otherInfo, hotherDecode⟩ := hother
  -- Both are at the front of the content of the data, and both are framed.
  obtain ⟨-, hcontent⟩ := houter.inj hotherOuter
  obtain ⟨content, hsigned⟩ := hframed hdecode
  obtain ⟨otherContent, hotherSigned⟩ := hframed hotherDecode
  exact (hsigned.unique hotherSigned hcontent).2.2

/-- A certificate keeps the octets of its signed part, which decode to its info. -/
theorem signedPart_of_decode {mode : Mode} {data : Octets} {certificate : Certificate}
    (h : Entity.decode mode data = .ok certificate) :
    SignedPart mode data certificate.signedOctets.octets ∧
      Entity.decode mode certificate.signedOctets.octets = .ok certificate.info := by
  obtain ⟨signed, algorithm, signature, hframe, hinfo, -, -, hsigned⟩ := decode_eq_ok_iff.1 h
  rw [List.append_assoc] at hframe
  rw [hsigned]
  exact ⟨⟨_, hframe, _, hinfo⟩, hinfo⟩

end Certificate

end Asn1
