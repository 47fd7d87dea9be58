import Asn1.Proofs.Certificate.Decode
import Asn1.Proofs.Certificate.Schema
import Asn1.Proofs.Schema.RoundTrip

/-!
# `Asn1.Proofs.Certificate.RoundTrip` — encoded certificates are decoded again

The round trip of schemas, carried over to the types for parts of a certificate. Everything comes back but
the parameters of algorithms, which are values of unknown type after decoding.

## Contents
- **Leaves.** Values of these types have canonical leaves if the identifiers in them are well formed.
- **Normal forms.** What is made of the normal form of each value.
- **Round trips.** `RsaPublicKey.decode_eq_ok_of_encode` and `Certificate.decode_agrees_of_encode`.
-/

namespace Asn1

/-! ## Leaves -/

namespace Schema

/-- A plain field has canonical leaves if its value does. -/
theorem hasCanonicalLeaves_plain {name : String} {type : Schema} {given : Sequence Value} {value : Value}
    (hvalue : given.get? name = some value) (h : type.HasCanonicalLeaves value) :
    ∀ found foundType, (Field.plain name type).lookup given = .ok (some (found, foundType)) →
      ∀ item ∈ (Field.plain name type).parts found, foundType.HasCanonicalLeaves item := by
  intro found foundType hlookup item hitem
  obtain ⟨hfound, htype⟩ := Field.lookup_eq_some_iff.1 hlookup
  obtain rfl := Option.some.inj htype
  obtain rfl := List.mem_singleton.1 hitem
  obtain rfl := Option.some.inj (hvalue.symm.trans hfound)
  exact h

/-- The parameters of an algorithm have no leaves that could fail: they are NULL or of unknown type. -/
theorem hasCanonicalLeaves_parameters {type : Schema} (h : type ∈ parameterSelector.types) (value : Value) :
    type.HasCanonicalLeaves value := by
  simp only [Selector.types, parameterSelector, List.map_map, List.mem_append, List.mem_map,
    Option.toList_some, List.mem_singleton] at h
  rcases h with ⟨oid, -, rfl⟩ | rfl
  · rintro leaf hleaf
    cases hleaf with
    | @primitive tag found leaf content htype hcontent =>
        obtain rfl : PrimitiveType.null = found := Option.some.inj htype
        cases value <;> simp_all [PrimitiveType.content?, Value.IsCanonical]
  · exact hasCanonicalLeaves_any value

end Schema

theorem AlgorithmIdentifier.hasCanonicalLeaves {identifier : AlgorithmIdentifier}
    (h : identifier.algorithm.IsValid) :
    Schema.algorithmIdentifier.HasCanonicalLeaves identifier.toValue := by
  refine Schema.hasCanonicalLeaves_sequence.2 (List.forall_mem_cons.2 ⟨?_, List.forall_mem_cons.2 ⟨?_, ?_⟩⟩)
  · exact Schema.hasCanonicalLeaves_plain rfl (Schema.hasCanonicalLeaves_primitive _ h)
  · intro value type hlookup item _
    exact Schema.hasCanonicalLeaves_parameters
      (Field.resolve?_mem (Field.lookup_eq_some_iff.1 hlookup).2) item
  · exact List.forall_mem_nil _

theorem Extension.hasCanonicalLeaves {extension : Extension} (h : extension.id.IsValid) :
    Schema.certificateExtension.HasCanonicalLeaves extension.toValue := by
  obtain ⟨id, critical, value⟩ := extension
  refine Schema.hasCanonicalLeaves_sequence.2 (List.forall_mem_cons.2 ⟨?_, List.forall_mem_cons.2 ⟨?_,
    List.forall_mem_cons.2 ⟨?_, List.forall_mem_nil _⟩⟩⟩)
  · exact Schema.hasCanonicalLeaves_plain rfl (Schema.hasCanonicalLeaves_primitive _ h)
  · intro found type hlookup item hitem
    obtain ⟨hfound, htype⟩ := Field.lookup_eq_some_iff.1 hlookup
    obtain rfl := Option.some.inj htype
    obtain rfl := List.mem_singleton.1 hitem
    refine Schema.hasCanonicalLeaves_primitive _ ?_
    cases critical with
    | none => cases hfound
    | some flag =>
        obtain rfl := Option.some.inj hfound
        trivial
  · cases critical <;>
      exact Schema.hasCanonicalLeaves_plain rfl (Schema.hasCanonicalLeaves_primitive _ trivial)

theorem BitString.isCanonical_ofOctets (octets : Octets) :
    (Value.bitString (.ofOctets octets)).IsCanonical := by
  refine ⟨?_, fun _ => rfl⟩
  unfold unusedClear
  split
  · simp [ofOctets, Nat.mod_one]
  · rfl

theorem SubjectPublicKeyInfo.hasCanonicalLeaves {info : SubjectPublicKeyInfo}
    (halgorithm : info.algorithm.algorithm.IsValid)
    (hpublicKey : (Value.bitString info.publicKey).IsCanonical) :
    Schema.subjectPublicKeyInfo.HasCanonicalLeaves info.toValue := by
  refine Schema.hasCanonicalLeaves_sequence.2 (List.forall_mem_cons.2 ⟨?_, List.forall_mem_cons.2 ⟨?_,
    List.forall_mem_nil _⟩⟩)
  · exact Schema.hasCanonicalLeaves_plain rfl (AlgorithmIdentifier.hasCanonicalLeaves halgorithm)
  · exact Schema.hasCanonicalLeaves_plain rfl (Schema.hasCanonicalLeaves_primitive _ hpublicKey)

theorem RsaPublicKey.hasCanonicalLeaves (key : RsaPublicKey) :
    Schema.rsaPublicKey.HasCanonicalLeaves key.toValue := by
  refine Schema.hasCanonicalLeaves_sequence.2 (List.forall_mem_cons.2 ⟨?_, List.forall_mem_cons.2 ⟨?_,
    List.forall_mem_nil _⟩⟩)
  · exact Schema.hasCanonicalLeaves_plain rfl (Schema.hasCanonicalLeaves_primitive _ trivial)
  · exact Schema.hasCanonicalLeaves_plain rfl (Schema.hasCanonicalLeaves_primitive _ trivial)

/-- All identifiers of the signed part are valid, and its key is whole. -/
structure CertificateInfo.IsCanonical (info : CertificateInfo) : Prop where
  signatureAlgorithm : info.signatureAlgorithm.algorithm.IsValid
  keyAlgorithm : info.publicKey.algorithm.algorithm.IsValid
  publicKey : (Value.bitString info.publicKey.publicKey).IsCanonical
  extensions : ∀ extension ∈ info.extensions.getD [], extension.id.IsValid

theorem CertificateInfo.hasCanonicalLeaves {info : CertificateInfo} (h : info.IsCanonical) :
    Schema.certificateInfo.HasCanonicalLeaves info.toValue := by
  obtain ⟨serialNumber, signatureAlgorithm, publicKey, extensions⟩ := info
  refine Schema.hasCanonicalLeaves_sequence.2 (List.forall_mem_cons.2 ⟨?_, List.forall_mem_cons.2 ⟨?_,
    List.forall_mem_cons.2 ⟨?_, List.forall_mem_cons.2 ⟨?_, List.forall_mem_nil _⟩⟩⟩⟩)
  · exact Schema.hasCanonicalLeaves_plain rfl (Schema.hasCanonicalLeaves_primitive _ trivial)
  · exact Schema.hasCanonicalLeaves_plain rfl
      (AlgorithmIdentifier.hasCanonicalLeaves h.signatureAlgorithm)
  · exact Schema.hasCanonicalLeaves_plain rfl
      (SubjectPublicKeyInfo.hasCanonicalLeaves h.keyAlgorithm h.publicKey)
  · intro found type hlookup item hitem
    obtain ⟨hfound, htype⟩ := Field.lookup_eq_some_iff.1 hlookup
    obtain rfl := Option.some.inj htype
    cases extensions with
    | none => cases hfound
    | some extensions =>
        obtain rfl := Option.some.inj hfound
        obtain ⟨extension, hext, rfl⟩ := List.mem_map.1 hitem
        exact Extension.hasCanonicalLeaves (h.extensions extension hext)

theorem Certificate.hasCanonicalLeaves {certificate : Certificate} (hinfo : certificate.info.IsCanonical)
    (halgorithm : certificate.signatureAlgorithm.algorithm.IsValid)
    (hsignature : (Value.bitString certificate.signature).IsCanonical) :
    Schema.certificate.HasCanonicalLeaves certificate.toValue := by
  refine Schema.hasCanonicalLeaves_sequence.2 (List.forall_mem_cons.2 ⟨?_, List.forall_mem_cons.2 ⟨?_,
    List.forall_mem_cons.2 ⟨?_, List.forall_mem_nil _⟩⟩⟩)
  · exact Schema.hasCanonicalLeaves_plain rfl (CertificateInfo.hasCanonicalLeaves hinfo)
  · exact Schema.hasCanonicalLeaves_plain rfl (AlgorithmIdentifier.hasCanonicalLeaves halgorithm)
  · exact Schema.hasCanonicalLeaves_plain rfl (Schema.hasCanonicalLeaves_primitive _ hsignature)

/-! ## Normal forms -/

namespace Schema

theorem normal_primitive {tag : Tag} {override : Option Tag} {value : Value} :
    (primitive tag).normal override value = value := by
  rw [normal]

theorem normal_sequence {name : String} {fields : List (Field Schema)} {given : Sequence Value} :
    (sequence name fields).normal none (.sequence given) = .sequence ⟨normalFields fields given,
      ((sequence name fields).write name none (.sequence given)).toOption.map Captured.mk⟩ := by
  rw [normal]

theorem normalFields_nil {given : Sequence Value} : normalFields [] given = [] := by
  rw [normalFields]

theorem normalFields_plain {name : String} {type : Schema} {rest : List (Field Schema)}
    {given : Sequence Value} {value : Value} (h : given.get? name = some value) :
    normalFields (.plain name type :: rest) given =
      (name, type.normal none value) :: normalFields rest given :=
  normalFields_of_lookup_some (Field.lookup_eq_some_iff.2 ⟨h, rfl⟩)

end Schema

/-- The algorithm comes back, with whatever parameters. -/
theorem AlgorithmIdentifier.ofValue?_normal (identifier : AlgorithmIdentifier) :
    ∃ parameters, ofValue? (Schema.algorithmIdentifier.normal none identifier.toValue) =
      some ⟨identifier.algorithm, parameters⟩ := by
  obtain ⟨algorithm, parameters⟩ := identifier
  rw [Schema.algorithmIdentifier, toValue, Schema.normal_sequence, Schema.normalFields_plain rfl,
    Schema.normal_primitive]
  cases parameters with
  | none =>
      rw [Schema.normalFields_of_lookup_none rfl, Schema.normalFields_nil]
      exact ⟨none, rfl⟩
  | some parameters =>
      -- Which type is selected makes no difference to the algorithm.
      have hresolve (known : Sequence Value) : ∃ type, Field.resolve?
          ⟨"parameters", .selected Schema.parameterSelector, none, true, .single⟩ known = some type :=
        Field.exists_resolve? fun selector hselector => FieldType.selected.inj hselector ▸ rfl
      obtain ⟨type, htype⟩ := hresolve _
      rw [Schema.normalFields_of_lookup_some (Field.lookup_eq_some_iff.2 ⟨rfl, htype⟩),
        Schema.normalFields_nil]
      exact ⟨some _, rfl⟩

theorem Extension.ofValue?_normal (extension : Extension) :
    ofValue? (Schema.certificateExtension.normal none extension.toValue) = some extension := by
  obtain ⟨id, critical, value⟩ := extension
  rw [Schema.certificateExtension, toValue, Schema.normal_sequence, Schema.normalFields_plain rfl,
    Schema.normal_primitive]
  cases critical with
  | none =>
      rw [Schema.normalFields_of_lookup_none rfl, Schema.normalFields_plain rfl, Schema.normal_primitive,
        Schema.normalFields_nil]
      rfl
  | some flag =>
      rw [Schema.normalFields_of_lookup_some rfl, Schema.normalFields_plain rfl, Schema.normal_primitive,
        Schema.normalFields_nil, Field.mapValue_single rfl, Schema.normal_primitive]
      rfl

/-- The key info comes back, but for the parameters of its algorithm. -/
theorem SubjectPublicKeyInfo.ofValue?_normal (info : SubjectPublicKeyInfo) :
    ∃ parameters, ofValue? (Schema.subjectPublicKeyInfo.normal none info.toValue) =
      some ⟨⟨info.algorithm.algorithm, parameters⟩, info.publicKey⟩ := by
  obtain ⟨parameters, hparameters⟩ := info.algorithm.ofValue?_normal
  refine ⟨parameters, ?_⟩
  rw [Schema.subjectPublicKeyInfo, toValue, Schema.normal_sequence, Schema.normalFields_plain rfl,
    Schema.normalFields_plain rfl, Schema.normal_primitive, Schema.normalFields_nil]
  show (do
    let algorithm ← AlgorithmIdentifier.ofValue? (Schema.algorithmIdentifier.normal none info.algorithm.toValue)
    some (SubjectPublicKeyInfo.mk algorithm info.publicKey)) = _
  rw [hparameters]
  rfl

theorem RsaPublicKey.ofValue?_normal (key : RsaPublicKey) :
    ofValue? (Schema.rsaPublicKey.normal none key.toValue) = some key := by
  rw [Schema.rsaPublicKey, toValue, Schema.normal_sequence, Schema.normalFields_plain rfl,
    Schema.normal_primitive, Schema.normalFields_plain rfl, Schema.normal_primitive,
    Schema.normalFields_nil]
  rfl

/-- Two signed parts agree up to the parameters of their algorithms. -/
structure CertificateInfo.Agrees (info other : CertificateInfo) : Prop where
  serialNumber : info.serialNumber = other.serialNumber
  signatureAlgorithm : info.signatureAlgorithm.algorithm = other.signatureAlgorithm.algorithm
  keyAlgorithm : info.publicKey.algorithm.algorithm = other.publicKey.algorithm.algorithm
  publicKey : info.publicKey.publicKey = other.publicKey.publicKey
  extensions : info.extensions = other.extensions

theorem Extension.mapM_ofValue?_normal (extensions : List Extension) :
    ((extensions.map toValue).map (Schema.certificateExtension.normal none)).mapM ofValue? =
      some extensions := by
  induction extensions with
  | nil => rfl
  | cons extension rest ih =>
      rw [List.map_cons, List.map_cons, List.mapM_cons, extension.ofValue?_normal, ih]
      rfl

/-- The signed part comes back, but for the parameters of its algorithms. -/
theorem CertificateInfo.ofValue?_normal (info : CertificateInfo) :
    ∃ found : CertificateInfo, ofValue? (Schema.certificateInfo.normal none info.toValue) = some found ∧
      found.Agrees info := by
  obtain ⟨serialNumber, signatureAlgorithm, publicKey, extensions⟩ := info
  obtain ⟨parameters, hparameters⟩ := signatureAlgorithm.ofValue?_normal
  obtain ⟨keyParameters, hkeyParameters⟩ := publicKey.ofValue?_normal
  refine ⟨⟨serialNumber, ⟨signatureAlgorithm.algorithm, parameters⟩,
    ⟨⟨publicKey.algorithm.algorithm, keyParameters⟩, publicKey.publicKey⟩, extensions⟩, ?_,
    ⟨rfl, rfl, rfl, rfl, rfl⟩⟩
  rw [Schema.certificateInfo, toValue, Schema.normal_sequence, Schema.normalFields_plain rfl,
    Schema.normal_primitive, Schema.normalFields_plain rfl, Schema.normalFields_plain rfl]
  cases extensions with
  | none =>
      rw [Schema.normalFields_of_lookup_none rfl, Schema.normalFields_nil]
      exact ofValue?_sequence none hparameters hkeyParameters rfl
  | some extensions =>
      rw [Schema.normalFields_of_lookup_some rfl, Schema.normalFields_nil]
      refine ofValue?_sequence (some _) hparameters hkeyParameters ?_
      exact congrArg (Option.map some) (Extension.mapM_ofValue?_normal extensions)

/-! ## Round trips -/

/-- **An encoded RSA key is decoded again**, in every mode. -/
theorem RsaPublicKey.decode_eq_ok_of_encode {mode : Mode} {key : RsaPublicKey} {octets : Octets}
    (h : Entity.encode key = .ok octets) (hlength : octets.length < Length.limit) :
    Entity.decode mode octets = .ok key :=
  Entity.decode_eq_ok_iff.2 ⟨_, Schema.decode_of_write Schema.dispatched_rsaPublicKey
    (Schema.ambiguousField?_of_mem_certificateSchemas (by simp [Schema.certificateSchemas]))
    key.hasCanonicalLeaves hlength h, key.ofValue?_normal⟩

/-- **An encoded certificate is decoded again**, in every mode, but for the parameters of its algorithms.
    The octets captured for the signed part are those of its own encoding. -/
theorem Certificate.decode_agrees_of_encode {mode : Mode} {certificate : Certificate} {data signed : Octets}
    (hinfo : certificate.info.IsCanonical) (halgorithm : certificate.signatureAlgorithm.algorithm.IsValid)
    (hsignature : (Value.bitString certificate.signature).IsCanonical)
    (hsigned : Entity.encode certificate.info = .ok signed) (h : Entity.encode certificate = .ok data)
    (hlength : data.length < Length.limit) :
    ∃ decoded : Certificate, Entity.decode mode data = .ok decoded ∧
      decoded.info.Agrees certificate.info ∧ decoded.signature = certificate.signature ∧
      decoded.signedOctets = ⟨signed⟩ := by
  have hdecode : Schema.certificate.decode mode data =
      .ok (Schema.certificate.normal none certificate.toValue) :=
    Schema.decode_of_write Schema.dispatched_certificate
      (Schema.ambiguousField?_of_mem_certificateSchemas (by simp [Schema.certificateSchemas]))
      (Certificate.hasCanonicalLeaves hinfo halgorithm hsignature) hlength h
  obtain ⟨info, hinfo', hagrees⟩ := certificate.info.ofValue?_normal
  obtain ⟨parameters, hparameters⟩ := certificate.signatureAlgorithm.ofValue?_normal
  refine ⟨⟨info, ⟨certificate.signatureAlgorithm.algorithm, parameters⟩, certificate.signature, ⟨signed⟩⟩,
    Entity.decode_eq_ok_iff.2 ⟨_, hdecode, ?_⟩, hagrees, rfl, rfl⟩
  rw [Schema.certificate, toValue, Schema.normal_sequence, Schema.normalFields_plain rfl,
    Schema.normalFields_plain rfl, Schema.normalFields_plain rfl, Schema.normal_primitive,
    Schema.normalFields_nil]
  obtain ⟨given, hgiven, hraw⟩ := Schema.raw_normal hsigned
  have hgiven : Schema.certificateInfo.normal none certificate.info.toValue = .sequence given := hgiven
  rw [hgiven] at hinfo' ⊢
  exact (ofValue?_eq_some_iff hraw).2 ⟨hinfo', hparameters, rfl, rfl⟩

end Asn1
