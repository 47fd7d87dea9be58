import Asn1.Proofs.Certificate.RoundTrip
import Asn1.Proofs.Integer
import Asn1.Proofs.Octets.Hex
import Asn1.Proofs.Schema.Strictness
import Asn1.Verification

/-!
# `Asn1.Proofs.Verification` — what a verified certificate says

Verification reports something only if the signature over the signed part is valid, and what it reports
is taken from the signed part alone.

## Contents
- **Steps.** When each step of verification succeeds, and `Verifier.verify_eq_ok_iff` for all of them.
- **Soundness.** `Verifier.verify_sound`.
- **Completeness.** `Verifier.verify_of_signed`, for extensions that `Extension.Fits`; `Extension.Reported` says
  what is reported of them.
- **Modes.** `Verifier.verify_restricts`: what is verified in DER is verified in BER with the same outcome.
-/

namespace Asn1

/-! ## Steps -/

theorem Integer.isPositive_iff {integer : Integer} : integer.isPositive = true ↔ 0 < integer.toInt := by
  rw [isPositive, isZero, toInt]
  cases integer.negative with
  | true =>
      have hnonneg : (0 : Int) ≤ integer.magnitude.toNat := Int.natCast_nonneg _
      simp only [Bool.not_true, Bool.false_and, Bool.false_eq_true, if_true, false_iff]
      omega
  | false =>
      simp only [Bool.not_false, Bool.true_and, Bool.false_eq_true, if_false]
      cases hmagnitude : integer.magnitude with
      | nil => simp
      | cons first rest =>
          have hpos := Octets.le_toNat_of_head? (hmagnitude ▸ integer.head?_magnitude)
          have hpow : 0 < 256 ^ rest.length := Nat.pow_pos (by decide)
          simp only [List.isEmpty_cons, Bool.not_false, true_iff]
          omega

theorem RsaPublicKey.check_eq_ok_iff {key : RsaPublicKey} :
    key.check = .ok () ↔ 0 < key.modulus.toInt ∧ 0 < key.exponent.toInt := by
  rw [← Integer.isPositive_iff, ← Integer.isPositive_iff, check]
  cases key.modulus.isPositive <;> cases key.exponent.isPositive <;> simp

theorem mapError_eq_ok_iff {ε ε' α : Type} {f : ε → ε'} {result : Except ε α} {value : α} :
    result.mapError f = .ok value ↔ result = .ok value := by
  cases result <;> simp [Except.mapError]

/-- Recording an event does not change the result. -/
theorem Trail.result_note_bind {α : Type} (event : Event) (next : Unit → Trail α) :
    (note event >>= next).result = (next ()).result :=
  rfl

namespace Verifier

/-- The signature is accepted if it has whole octets and hides the digest of the signed octets. -/
theorem checkSignature_eq_ok_iff {verifier : Verifier} {certificate : Certificate} {key : RsaPublicKey} :
    (verifier.checkSignature certificate key).result = .ok () ↔
      certificate.signature.unused = 0 ∧
      verifier.recovery.recover key.modulus.magnitude key.exponent.magnitude certificate.signature.octets
        verifier.digest.outputLen = some (verifier.digest.digest certificate.signedOctets.octets) := by
  have hunused : certificate.signature.unused.val = 0 ↔ certificate.signature.unused = 0 :=
    Fin.val_eq_zero_iff
  unfold checkSignature
  split
  · rename_i hzero
    simp only [hunused.1 hzero, true_and, Trail.result_note_bind]
    cases verifier.recovery.recover key.modulus.magnitude key.exponent.magnitude
        certificate.signature.octets verifier.digest.outputLen with
    | none => simp [bind_eq_ok_iff]
    | some recovered =>
        by_cases h : recovered = verifier.digest.digest certificate.signedOctets.octets
        · simp [h]
        · simp [h, bind_eq_ok_iff]
  · rename_i hused
    simp [← hunused, hused, bind_eq_ok_iff]

/-- **Verification succeeds if all steps do**, and reports the signed part and its key. -/
theorem verify_eq_ok_iff {verifier : Verifier} {data : Octets} {result : VerifiedInfo} :
    verifier.verify data = .ok result ↔
      ∃ (certificate : Certificate) (key : RsaPublicKey) (extensions : List ReportedExtension),
        Entity.decode verifier.mode data = .ok certificate ∧
        certificate.info.publicKey.rsaPublicKey verifier.mode = .ok key ∧
        0 < key.modulus.toInt ∧ 0 < key.exponent.toInt ∧
        certificate.signature.unused = 0 ∧
        verifier.recovery.recover key.modulus.magnitude key.exponent.magnitude
          certificate.signature.octets verifier.digest.outputLen =
            some (verifier.digest.digest certificate.signedOctets.octets) ∧
        (reportExtensions verifier.hex key.modulusLen certificate.extensions).result = .ok extensions ∧
        result = ⟨certificate.info.serialNumber.toInt64?, key.modulus.magnitude, key.exponent.magnitude,
          extensions⟩ := by
  unfold verify run
  simp only [Trail.result_bind, Trail.result_ofExcept, Trail.result_note, Trail.result_pure]
  constructor
  · intro h
    obtain ⟨certificate, hcertificate, h⟩ := bind_eq_ok_iff.1 h
    obtain ⟨_, -, h⟩ := bind_eq_ok_iff.1 h
    obtain ⟨key, hkey, h⟩ := bind_eq_ok_iff.1 h
    obtain ⟨_, hcheck, h⟩ := bind_eq_ok_iff.1 h
    obtain ⟨_, -, h⟩ := bind_eq_ok_iff.1 h
    obtain ⟨_, hsignature, h⟩ := bind_eq_ok_iff.1 h
    obtain ⟨_, -, h⟩ := bind_eq_ok_iff.1 h
    obtain ⟨extensions, hextensions, h⟩ := bind_eq_ok_iff.1 h
    obtain ⟨hmodulus, hexponent⟩ := RsaPublicKey.check_eq_ok_iff.1 hcheck
    obtain ⟨hunused, hrecovered⟩ := checkSignature_eq_ok_iff.1 hsignature
    exact ⟨certificate, key, extensions, mapError_eq_ok_iff.1 hcertificate, mapError_eq_ok_iff.1 hkey,
      hmodulus, hexponent, hunused, hrecovered, hextensions, (Except.ok.inj h).symm⟩
  · rintro ⟨certificate, key, extensions, hcertificate, hkey, hmodulus, hexponent, hunused, hrecovered,
      hextensions, rfl⟩
    have hcheck := RsaPublicKey.check_eq_ok_iff.2 ⟨hmodulus, hexponent⟩
    have hsignature := checkSignature_eq_ok_iff.2 ⟨hunused, hrecovered⟩
    refine bind_eq_ok_iff.2 ⟨certificate, mapError_eq_ok_iff.2 hcertificate, ?_⟩
    refine bind_eq_ok_iff.2 ⟨(), rfl, bind_eq_ok_iff.2 ⟨key, mapError_eq_ok_iff.2 hkey, ?_⟩⟩
    refine bind_eq_ok_iff.2 ⟨(), hcheck, bind_eq_ok_iff.2 ⟨(), rfl, ?_⟩⟩
    refine bind_eq_ok_iff.2 ⟨(), hsignature, bind_eq_ok_iff.2 ⟨(), rfl, ?_⟩⟩
    exact bind_eq_ok_iff.2 ⟨extensions, hextensions, rfl⟩

/-! ## Soundness -/

/-- **The report depends on the mode and the signed part alone**: not on the octets around the signed part,
    and not on the digest, the recovery, and the reader of hexadecimal text. -/
theorem verify_congr {verifier other : Verifier} {data otherData signed : Octets}
    {result otherResult : VerifiedInfo} (hmode : other.mode = verifier.mode)
    (h : verifier.verify data = .ok result) (hother : other.verify otherData = .ok otherResult)
    (hsigned : Certificate.SignedPart verifier.mode data signed)
    (hotherSigned : Certificate.SignedPart verifier.mode otherData signed) : otherResult = result := by
  obtain ⟨certificate, key, extensions, hcertificate, hkey, -, -, -, -, hextensions, rfl⟩ :=
    verify_eq_ok_iff.1 h
  obtain ⟨otherCertificate, otherKey, otherExtensions, hotherCertificate, hotherKey, -, -, -, -,
    hotherExtensions, rfl⟩ := verify_eq_ok_iff.1 hother
  rw [hmode] at hotherCertificate hotherKey
  -- Both certificates have the same signed part, hence the same info, key and extensions.
  obtain ⟨hpart, hinfo⟩ := Certificate.signedPart_of_decode hcertificate
  obtain ⟨hotherPart, hotherInfo⟩ := Certificate.signedPart_of_decode hotherCertificate
  rw [hpart.unique hsigned] at hinfo
  rw [hotherPart.unique hotherSigned] at hotherInfo
  have hsame : otherCertificate.info = certificate.info := Except.ok.inj (hotherInfo.symm.trans hinfo)
  rw [hsame] at hotherKey
  have hkeys : otherKey = key := Except.ok.inj (hotherKey.symm.trans hkey)
  subst hkeys
  rw [Certificate.extensions, hsame, HexReader.unique other.hex verifier.hex] at hotherExtensions
  have hreported : otherExtensions = extensions :=
    Except.ok.inj (hotherExtensions.symm.trans hextensions)
  rw [hsame, hreported]

/-- **Verification is sound.** If anything is reported, the data are an outer header around the signed part, an
    algorithm and a signature, each of which is decoded by itself and is what the certificate has. The signed part
    holds a key with positive components, and it is what the signature with whole octets hides the digest of. Any
    other input with the same signed part that is accepted in this mode, whatever else is around it, gives the same
    report. -/
theorem verify_sound {verifier : Verifier} {data : Octets} {result : VerifiedInfo}
    (h : verifier.verify data = .ok result) :
    ∃ (signed algorithm signature : Octets) (info : CertificateInfo) (identifier : AlgorithmIdentifier)
      (bits : BitString) (key : RsaPublicKey),
      Framed verifier.mode ⟨.sequence, true⟩ (signed ++ algorithm ++ signature) data ∧
      Entity.decode verifier.mode signed = .ok info ∧
      Entity.decode verifier.mode algorithm = .ok identifier ∧
      (Schema.primitive .bitString).decode verifier.mode signature = .ok (.bitString bits) ∧
      Entity.decode verifier.mode data = .ok (⟨info, identifier, bits, ⟨signed⟩⟩ : Certificate) ∧
      info.publicKey.rsaPublicKey verifier.mode = .ok key ∧
      0 < key.modulus.toInt ∧ 0 < key.exponent.toInt ∧
      bits.unused = 0 ∧
      verifier.recovery.recover key.modulus.magnitude key.exponent.magnitude bits.octets
        verifier.digest.outputLen = some (verifier.digest.digest signed) ∧
      ∀ (other : Verifier) (otherData : Octets) (otherResult : VerifiedInfo),
        other.mode = verifier.mode → other.verify otherData = .ok otherResult →
        Certificate.SignedPart verifier.mode otherData signed → otherResult = result := by
  obtain ⟨certificate, key, extensions, hcertificate, hkey, hmodulus, hexponent, hunused, hrecovered, -, -⟩ :=
    verify_eq_ok_iff.1 h
  obtain ⟨signed, algorithm, signature, hframe, hinfo, hidentifier, hbits, hsigned⟩ :=
    Certificate.decode_eq_ok_iff.1 hcertificate
  obtain ⟨info, identifier, bits, captured⟩ := certificate
  obtain rfl : captured = ⟨signed⟩ := hsigned
  refine ⟨signed, algorithm, signature, info, identifier, bits, key, hframe, hinfo, hidentifier, hbits,
    hcertificate, hkey, hmodulus, hexponent, hunused, hrecovered, ?_⟩
  intro other otherData otherResult hmode hother hotherSigned
  rw [List.append_assoc] at hframe
  exact verify_congr hmode h hother ⟨_, hframe, _, hinfo⟩ hotherSigned

/-- A verifier that takes the first octet for the digest, and signatures that are not hidden at all. -/
def plainVerifier : Verifier := ⟨.der, ⟨1, List.take 1⟩, ⟨fun _ _ signature _ => some signature⟩, .plain⟩

/-- A signed part with serial number 7, modulus 5 and exponent 3. -/
def plainPart : Octets :=
  [0x30, 0x1E, 0x02, 0x01, 0x07, 0x30, 0x05, 0x06, 0x03, 0x55, 0x1D, 0x0E, 0x30, 0x12, 0x30, 0x05, 0x06, 0x03,
   0x55, 0x1D, 0x0E, 0x03, 0x09, 0x00, 0x30, 0x06, 0x02, 0x01, 0x05, 0x02, 0x01, 0x03]

/-- A certificate for `plainPart`, whose signature is its first octet. -/
def plainCertificate : Octets :=
  [0x30, 0x2B] ++ plainPart ++ [0x30, 0x05, 0x06, 0x03, 0x55, 0x1D, 0x0E, 0x03, 0x02, 0x00, 0x30]

theorem decode_plainCertificate : Entity.decode .der plainCertificate =
    .ok (⟨Certificate.smallInfo, ⟨.subjectKeyIdentifier, none⟩, .ofOctets [0x30], ⟨plainPart⟩⟩ : Certificate) :=
  Entity.decode_eq_ok_iff.2 ⟨_, by cbv, rfl⟩

theorem rsaPublicKey_smallInfo : Certificate.smallInfo.publicKey.rsaPublicKey .der =
    .ok ⟨.ofUnsigned [5], .ofUnsigned [3]⟩ := by
  have hkey : Entity.decode .der [0x30, 0x06, 0x02, 0x01, 0x05, 0x02, 0x01, 0x03] =
      .ok (⟨.ofUnsigned [5], .ofUnsigned [3]⟩ : RsaPublicKey) :=
    Entity.decode_eq_ok_iff.2 ⟨_, by cbv, rfl⟩
  exact hkey

theorem verify_plainCertificate :
    plainVerifier.verify plainCertificate = .ok ⟨some 7, [5], [3], []⟩ := by
  refine verify_eq_ok_iff.2 ⟨_, _, _, decode_plainCertificate, rsaPublicKey_smallInfo, by decide, by decide, rfl,
    by decide, rfl, ?_⟩
  cbv

/-- The signature is the first octet of the signed part, and it is the one that the verifier looks at. -/
theorem verify_sound_plain :
    plainVerifier.verify plainCertificate = .ok ⟨some 7, [5], [3], []⟩ ∧
      (∃ algorithm signature : Octets,
        Framed .der ⟨.sequence, true⟩ (plainPart ++ algorithm ++ signature) plainCertificate ∧
        Entity.decode .der algorithm = .ok (⟨.subjectKeyIdentifier, none⟩ : AlgorithmIdentifier) ∧
        (Schema.primitive .bitString).decode .der signature = .ok (.bitString (.ofOctets [0x30]))) ∧
      ∀ otherData otherResult, plainVerifier.verify otherData = .ok otherResult →
        Certificate.SignedPart .der otherData plainPart → otherResult = ⟨some 7, [5], [3], []⟩ := by
  obtain ⟨signed, algorithm, signature, info, identifier, bits, key, hframe, -, hidentifier, hbits, hdecode, -, -,
    -, -, -, hother⟩ := verify_sound verify_plainCertificate
  obtain ⟨rfl, rfl, rfl, hsigned⟩ :=
    Certificate.mk.inj (Except.ok.inj (hdecode.symm.trans decode_plainCertificate))
  obtain rfl := Captured.mk.inj hsigned
  exact ⟨verify_plainCertificate, ⟨algorithm, signature, hframe, hidentifier, hbits⟩,
    fun otherData otherResult => hother plainVerifier otherData otherResult rfl⟩

end Verifier

/-! ## Completeness -/

namespace Extension

/-- The value of the extension is at most `limit` octets long, or hexadecimal text of one that is. -/
def Fits (limit : Nat) (extension : Extension) : Prop :=
  extension.value.length ≤ limit ∨ ∃ value, Octets.SpelledBy value extension.value ∧ value.length ≤ limit

/-- What is reported of an extension: its identifier, and a value of at most `limit` octets, which is that of
    the extension or, if this one is longer, the one that it is a text of. -/
structure Reported (limit : Nat) (extension : Extension) (entry : ReportedExtension) : Prop where
  id : entry.id = extension.id
  length_le : entry.value.length ≤ limit
  short : extension.value.length ≤ limit → entry.value = extension.value
  long : limit < extension.value.length → Octets.SpelledBy entry.value extension.value

variable {limit : Nat} {extension : Extension}

/-- A value that is short enough is reported as it is. -/
theorem reported_of_short (h : extension.value.length ≤ limit) :
    extension.Reported limit ⟨extension.id, extension.value⟩ :=
  ⟨rfl, h, fun _ => rfl, fun hlong => absurd h (Nat.not_le.2 hlong)⟩

/-- A longer one is reported as the value that it is a text of. -/
theorem reported_of_spelledBy {value : Octets} (hlong : limit < extension.value.length)
    (hspelled : Octets.SpelledBy value extension.value) (hle : value.length ≤ limit) :
    extension.Reported limit ⟨extension.id, value⟩ :=
  ⟨rfl, hle, fun hshort => absurd hshort (Nat.not_le.2 hlong), fun _ => hspelled⟩

/-- **There is one way to report an extension.** -/
theorem Reported.unique {entry other : ReportedExtension} (h : extension.Reported limit entry)
    (hother : extension.Reported limit other) : other = entry := by
  have hvalue : other.value = entry.value := by
    by_cases hshort : extension.value.length ≤ limit
    · rw [h.short hshort, hother.short hshort]
    · have hlong := Nat.not_le.1 hshort
      exact (h.long hlong).unique (hother.long hlong)
  obtain ⟨id, value⟩ := entry
  obtain ⟨otherId, otherValue⟩ := other
  obtain rfl := h.id
  obtain rfl := hother.id
  rw [show otherValue = value from hvalue]

theorem report_of_fits (hex : HexReader) (h : extension.Fits limit) :
    ∃ entry, (extension.report hex limit).result = .ok entry ∧ extension.Reported limit entry := by
  unfold report
  by_cases hshort : extension.value.length ≤ limit
  · rw [if_pos hshort]
    exact ⟨_, rfl, reported_of_short hshort⟩
  · obtain ⟨value, hspelled, hle⟩ := h.resolve_left hshort
    simp only [if_neg hshort, hex.read?_eq_some_iff.2 hspelled, if_pos hle]
    exact ⟨_, rfl, reported_of_spelledBy (Nat.not_le.1 hshort) hspelled hle⟩

end Extension

/-- Extensions that fit are reported one by one and in order. -/
theorem reportExtensions_of_fits (hex : HexReader) {limit : Nat} {extensions : List Extension}
    (h : ∀ extension ∈ extensions, extension.Fits limit) :
    ∃ entries, (reportExtensions hex limit extensions).result = .ok entries ∧
      List.Forall₂ (Extension.Reported limit) extensions entries := by
  induction extensions with
  | nil => exact ⟨[], rfl, .nil⟩
  | cons extension rest ih =>
      obtain ⟨first, hfirst, hreported⟩ := Extension.report_of_fits hex (h extension List.mem_cons_self)
      obtain ⟨others, hothers, hall⟩ := ih fun other hother => h other (List.mem_cons_of_mem _ hother)
      refine ⟨first :: others, ?_, .cons hreported hall⟩
      rw [reportExtensions]
      simp only [Trail.result_bind, Trail.result_note, Trail.result_pure]
      exact bind_eq_ok_iff.2 ⟨(), rfl, bind_eq_ok_iff.2 ⟨_, hfirst, bind_eq_ok_iff.2 ⟨_, hothers, rfl⟩⟩⟩

/-- The key info of an RSA key is valid and whole. -/
theorem SubjectPublicKeyInfo.ofRsa_eq_ok_iff {key : RsaPublicKey} {info : SubjectPublicKeyInfo} :
    ofRsa key = .ok info ↔
      ∃ encoded, Entity.encode key = .ok encoded ∧ info = ⟨.withNull .rsaEncryption, .ofOctets encoded⟩ := by
  unfold ofRsa
  constructor
  · intro h
    obtain ⟨encoded, hencoded, h⟩ := bind_eq_ok_iff.1 h
    exact ⟨encoded, hencoded, (Except.ok.inj h).symm⟩
  · rintro ⟨encoded, hencoded, rfl⟩
    exact bind_eq_ok_iff.2 ⟨encoded, hencoded, rfl⟩

/-- The encoded key is part of the encoding of the certificate. -/
theorem Certificate.length_publicKey_le {certificate : Certificate} {data : Octets}
    (h : Entity.encode certificate = .ok data) :
    certificate.info.publicKey.publicKey.octets.length ≤ data.length := by
  have hbits : (Schema.primitive .bitString).Leaf (.bitString certificate.info.publicKey.publicKey)
      (.bitString certificate.info.publicKey.publicKey) :=
    .primitive rfl rfl
  have hkey : Schema.subjectPublicKeyInfo.Leaf certificate.info.publicKey.toValue
      (.bitString certificate.info.publicKey.publicKey) :=
    .field (List.mem_cons_of_mem _ List.mem_cons_self) rfl List.mem_cons_self hbits
  have hinfo : Schema.certificateInfo.Leaf certificate.info.toValue
      (.bitString certificate.info.publicKey.publicKey) :=
    .field (List.mem_cons_of_mem _ (List.mem_cons_of_mem _ List.mem_cons_self)) rfl List.mem_cons_self hkey
  have hleaf : Schema.certificate.Leaf certificate.toValue
      (.bitString certificate.info.publicKey.publicKey) :=
    .field List.mem_cons_self rfl List.mem_cons_self hinfo
  obtain ⟨type, content, hcontent, hle⟩ := hleaf.length_content_le (Schema.encode_eq_ok_iff.1 h)
  cases type <;> simp only [PrimitiveType.content?, Option.some.injEq, reduceCtorEq] at hcontent
  rw [← hcontent, BitString.length_content, BitString.contentLen] at hle
  omega

theorem Schema.writeFields_plain {name : String} {type : Schema} {rest : List (Field Schema)}
    {given : Sequence Value} {value : Value} {first others : Octets} (hvalue : given.get? name = some value)
    (hfirst : type.write name none value = .ok first) (hothers : writeFields rest given = .ok others) :
    writeFields (.plain name type :: rest) given = .ok (first ++ others) := by
  have hlookup : (Field.plain name type).lookup given = .ok (some (value, type)) :=
    Field.lookup_eq_some_iff.2 ⟨hvalue, rfl⟩
  exact writeFields_cons.2 (.inr ⟨value, type, first, others, hlookup, rfl, hfirst, hothers⟩)

namespace Verifier

/-- **Signed certificates are verified.** A certificate made for a key with positive components, with a
    signature that hides the digest of the encoded signed part, is accepted in every mode. The report has
    the data of the signed part and its extensions one by one and in order, and the octets captured for it are
    those that were signed. -/
theorem verify_of_signed {verifier : Verifier} {info : CertificateInfo} {key : RsaPublicKey}
    {algorithm : AlgorithmIdentifier} {signature signed data : Octets} {certificate : Certificate}
    (hkey : SubjectPublicKeyInfo.ofRsa key = .ok info.publicKey)
    (hmodulus : 0 < key.modulus.toInt) (hexponent : 0 < key.exponent.toInt)
    (hsignatureAlgorithm : info.signatureAlgorithm.algorithm.IsValid)
    (hextensions : ∀ extension ∈ info.extensions.getD [], extension.id.IsValid)
    (halgorithm : algorithm.algorithm.IsValid)
    (hcertificate : Certificate.ofInfo info algorithm (.ofOctets signature) = .ok certificate)
    (hsigned : Entity.encode info = .ok signed) (hdata : Entity.encode certificate = .ok data)
    (hlength : data.length < 2 ^ 64)
    (hrecover : verifier.recovery.recover key.modulus.magnitude key.exponent.magnitude signature
      verifier.digest.outputLen = some (verifier.digest.digest signed))
    (hfits : ∀ extension ∈ info.extensions.getD [], extension.Fits key.modulusLen) :
    (∃ reported, verifier.verify data =
        .ok ⟨info.serialNumber.toInt64?, key.modulus.magnitude, key.exponent.magnitude, reported⟩ ∧
      List.Forall₂ (Extension.Reported key.modulusLen) (info.extensions.getD []) reported) ∧
      ∃ decoded : Certificate, Entity.decode verifier.mode data = .ok decoded ∧
        decoded.signedOctets = ⟨signed⟩ := by
  obtain ⟨encoded, hencoded, hpublicKey⟩ := SubjectPublicKeyInfo.ofRsa_eq_ok_iff.1 hkey
  obtain rfl : certificate = ⟨info, algorithm, .ofOctets signature, ⟨signed⟩⟩ := by
    obtain ⟨found, hfound, h⟩ := bind_eq_ok_iff.1 hcertificate
    obtain rfl := Except.ok.inj (hfound.symm.trans hsigned)
    exact (Except.ok.inj h).symm
  -- The identifier of the key algorithm is valid and the key is whole, as they come from an RSA key.
  have hcanonical : info.IsCanonical := by
    refine ⟨hsignatureAlgorithm, ?_, ?_, hextensions⟩
    · rw [hpublicKey]
      rfl
    · rw [hpublicKey]
      exact BitString.isCanonical_ofOctets encoded
  obtain ⟨decoded, hdecoded, hagrees, hsignature, hoctets⟩ :=
    @Certificate.decode_agrees_of_encode verifier.mode _ _ _ hcanonical halgorithm
      (BitString.isCanonical_ofOctets signature) hsigned hdata hlength
  -- The key inside is decoded on its own, which takes a bound on its own length.
  have hencodedLength : encoded.length < Length.limit := by
    have hle := Certificate.length_publicKey_le hdata
    rw [hpublicKey] at hle
    exact Nat.lt_of_le_of_lt hle hlength
  have hrsa : decoded.info.publicKey.rsaPublicKey verifier.mode = .ok key := by
    rw [SubjectPublicKeyInfo.rsaPublicKey, hagrees.publicKey, hpublicKey]
    exact (if_pos rfl).trans (RsaPublicKey.decode_eq_ok_of_encode hencoded hencodedLength)
  obtain ⟨reported, hreport, hreported⟩ := reportExtensions_of_fits verifier.hex hfits
  have hextensionsReport :
      (reportExtensions verifier.hex key.modulusLen decoded.extensions).result = .ok reported := by
    rw [Certificate.extensions, hagrees.extensions]
    exact hreport
  refine ⟨⟨reported, verify_eq_ok_iff.2 ⟨decoded, key, _, hdecoded, hrsa, hmodulus, hexponent, ?_, ?_,
    hextensionsReport, ?_⟩, hreported⟩, decoded, hdecoded, hoctets⟩
  · rw [hsignature]
    rfl
  · rw [hsignature, hoctets]
    exact hrecover
  · rw [hagrees.serialNumber]

/-- A signed part with the key of `plainCertificate` and an extension that is too long for it. -/
def plainInfo : CertificateInfo where
  serialNumber := .ofUnsigned [7]
  signatureAlgorithm := ⟨.subjectKeyIdentifier, none⟩
  publicKey := ⟨.withNull .rsaEncryption, .ofOctets [0x30, 0x06, 0x02, 0x01, 0x05, 0x02, 0x01, 0x03]⟩
  extensions := some [⟨.keyUsage, none, [0x30, 0x33]⟩]

/-- The encoding of `plainInfo`. -/
def plainSigned : Octets :=
  [0x30, 0x35, 0x02, 0x01, 0x07, 0x30, 0x05, 0x06, 0x03, 0x55, 0x1D, 0x0E, 0x30, 0x1A, 0x30, 0x0D, 0x06, 0x09,
   0x2A, 0x86, 0x48, 0x86, 0xF7, 0x0D, 0x01, 0x01, 0x01, 0x05, 0x00, 0x03, 0x09, 0x00, 0x30, 0x06, 0x02, 0x01,
   0x05, 0x02, 0x01, 0x03, 0xA3, 0x0D, 0x30, 0x0B, 0x30, 0x09, 0x06, 0x03, 0x55, 0x1D, 0x0F, 0x04, 0x02, 0x30,
   0x33]

theorem ofRsa_plain :
    SubjectPublicKeyInfo.ofRsa ⟨.ofUnsigned [5], .ofUnsigned [3]⟩ = .ok plainInfo.publicKey := by
  have hmodulus : (Schema.primitive .integer).write "modulus" none (.integer (.ofUnsigned [5])) =
      .ok [0x02, 0x01, 0x05] := by
    decide +kernel
  have hexponent : (Schema.primitive .integer).write "publicExponent" none (.integer (.ofUnsigned [3])) =
      .ok [0x02, 0x01, 0x03] := by
    decide +kernel
  have hkey : Schema.rsaPublicKey.write "RSAPublicKey" none
      (RsaPublicKey.toValue ⟨.ofUnsigned [5], .ofUnsigned [3]⟩) =
        .ok [0x30, 0x06, 0x02, 0x01, 0x05, 0x02, 0x01, 0x03] := by
    exact Schema.write_sequence.2 ⟨_, _, rfl, by cbv, Schema.writeFields_plain rfl hmodulus
      (Schema.writeFields_plain rfl hexponent (Schema.writeFields_nil.2 rfl)), rfl⟩
  exact SubjectPublicKeyInfo.ofRsa_eq_ok_iff.2 ⟨_, Schema.encode_eq_ok_iff.2 hkey, rfl⟩

theorem write_plainAlgorithm : Schema.algorithmIdentifier.write "signatureAlgorithm" none
    (AlgorithmIdentifier.toValue ⟨.subjectKeyIdentifier, none⟩) =
      .ok [0x30, 0x05, 0x06, 0x03, 0x55, 0x1D, 0x0E] := by
  decide +kernel

/-- The signed part is the same by itself and in a certificate. -/
theorem write_plainInfo (name : String) :
    Schema.certificateInfo.write name none plainInfo.toValue = .ok plainSigned := by
  have hserial : (Schema.primitive .integer).write "serialNumber" none (.integer plainInfo.serialNumber) =
      .ok [0x02, 0x01, 0x07] := by
    decide +kernel
  have hkeyAlgorithm : Schema.algorithmIdentifier.write "algorithm" none
      (AlgorithmIdentifier.withNull .rsaEncryption).toValue =
        .ok [0x30, 0x0D, 0x06, 0x09, 0x2A, 0x86, 0x48, 0x86, 0xF7, 0x0D, 0x01, 0x01, 0x01, 0x05, 0x00] := by
    decide +kernel
  have hbits : (Schema.primitive .bitString).write "subjectPublicKey" none
      (.bitString plainInfo.publicKey.publicKey) =
        .ok [0x03, 0x09, 0x00, 0x30, 0x06, 0x02, 0x01, 0x05, 0x02, 0x01, 0x03] := by
    decide +kernel
  have hkey : Schema.subjectPublicKeyInfo.write "subjectPublicKeyInfo" none plainInfo.publicKey.toValue =
      .ok [0x30, 0x1A, 0x30, 0x0D, 0x06, 0x09, 0x2A, 0x86, 0x48, 0x86, 0xF7, 0x0D, 0x01, 0x01, 0x01, 0x05, 0x00,
        0x03, 0x09, 0x00, 0x30, 0x06, 0x02, 0x01, 0x05, 0x02, 0x01, 0x03] := by
    exact Schema.write_sequence.2 ⟨_, _, rfl, by cbv, Schema.writeFields_plain rfl hkeyAlgorithm
      (Schema.writeFields_plain rfl hbits (Schema.writeFields_nil.2 rfl)), rfl⟩
  have hextension : Schema.certificateExtension.write "extensions" none
      (Extension.toValue ⟨.keyUsage, none, [0x30, 0x33]⟩) =
        .ok [0x30, 0x09, 0x06, 0x03, 0x55, 0x1D, 0x0F, 0x04, 0x02, 0x30, 0x33] := by
    decide +kernel
  exact Schema.write_sequence.2 ⟨_, _, rfl, by cbv, Schema.writeFields_plain rfl hserial
    (Schema.writeFields_plain rfl write_plainAlgorithm (Schema.writeFields_plain rfl hkey
      (Schema.writeFields_cons.2 (.inr ⟨_, _, _, _, Field.lookup_eq_some_iff.2 ⟨rfl, rfl⟩, rfl,
        ⟨_, rfl, _, rfl, [_], .cons hextension .nil, rfl⟩, Schema.writeFields_nil.2 rfl⟩)))), rfl⟩

/-- The value of the extension is the text of the octet 3. -/
theorem verify_of_signed_plain :
    ∃ (certificate : Certificate) (data : Octets),
      Certificate.ofInfo plainInfo ⟨.subjectKeyIdentifier, none⟩ (.ofOctets [0x30]) = .ok certificate ∧
      Entity.encode certificate = .ok data ∧
      plainVerifier.verify data = .ok ⟨some 7, [5], [3], [⟨.keyUsage, [3]⟩]⟩ ∧
      ∃ decoded : Certificate, Entity.decode .der data = .ok decoded ∧
        decoded.signedOctets = ⟨plainSigned⟩ := by
  have hsigned : Entity.encode plainInfo = .ok plainSigned := Schema.encode_eq_ok_iff.2 (write_plainInfo _)
  have hcertificate : Certificate.ofInfo plainInfo ⟨.subjectKeyIdentifier, none⟩ (.ofOctets [0x30]) =
      .ok ⟨plainInfo, ⟨.subjectKeyIdentifier, none⟩, .ofOctets [0x30], ⟨plainSigned⟩⟩ := by
    rw [Certificate.ofInfo, hsigned]
    rfl
  have hsignature : (Schema.primitive .bitString).write "signature" none (.bitString (.ofOctets [0x30])) =
      .ok [0x03, 0x02, 0x00, 0x30] := by
    decide +kernel
  have hdata : Entity.encode (⟨plainInfo, ⟨.subjectKeyIdentifier, none⟩, .ofOctets [0x30],
      ⟨plainSigned⟩⟩ : Certificate) = .ok ([0x30, 0x42] ++ plainSigned ++
        [0x30, 0x05, 0x06, 0x03, 0x55, 0x1D, 0x0E, 0x03, 0x02, 0x00, 0x30]) := by
    exact Schema.encode_eq_ok_iff.2 (Schema.write_sequence.2 ⟨_, _, rfl, by cbv, Schema.writeFields_plain rfl
      (write_plainInfo "tbs") (Schema.writeFields_plain rfl write_plainAlgorithm
        (Schema.writeFields_plain rfl hsignature (Schema.writeFields_nil.2 rfl))), rfl⟩)
  have hid : Oid.IsValid .subjectKeyIdentifier := by cbv
  have hextensions : ∀ extension ∈ plainInfo.extensions.getD [], extension.id.IsValid := by
    intro extension hext
    obtain rfl := List.mem_singleton.1 hext
    show Oid.IsValid .keyUsage
    cbv
  have hspelled : Octets.SpelledBy [3] [0x30, 0x33] := .cons (by decide) (by decide) .nil
  have hfits : ∀ extension ∈ plainInfo.extensions.getD [],
      extension.Fits (RsaPublicKey.modulusLen ⟨.ofUnsigned [5], .ofUnsigned [3]⟩) := by
    intro extension hext
    obtain rfl := List.mem_singleton.1 hext
    exact .inr ⟨[3], hspelled, by decide⟩
  obtain ⟨⟨reported, hverify, hreported⟩, hdecoded⟩ := @verify_of_signed plainVerifier _ _ _ _ _ _ _ ofRsa_plain
    (by decide) (by decide) hid hextensions hid hcertificate hsigned hdata (by decide) (by cbv) hfits
  obtain ⟨entry, _, hentry, hnil, rfl⟩ := List.forall₂_cons_left_iff.1 hreported
  obtain rfl := List.forall₂_nil_left_iff.1 hnil
  obtain rfl := (Extension.reported_of_spelledBy (by decide) hspelled (by decide)).unique hentry
  exact ⟨_, _, hcertificate, hdata, hverify, hdecoded⟩

end Verifier

/-! ## Modes -/

/-- An entity is taken from the same value in both modes. -/
theorem Entity.decode_restricts {α : Type} [Entity α] (data : Octets) :
    Restricts DecodeError.IsContent (decode .der data : Except DecodeError α) (decode .ber data) :=
  (Schema.decode_restricts _ data).bind fun _ => .rfl

theorem SubjectPublicKeyInfo.rsaPublicKey_restricts (info : SubjectPublicKeyInfo) :
    Restricts DecodeError.IsContent (info.rsaPublicKey .der) (info.rsaPublicKey .ber) :=
  .ite (Entity.decode_restricts _) .rfl

/-- The certificate or the key in it is refused for a fault in the encoding of a single value. -/
inductive VerifyError.IsMalformed : VerifyError → Prop
  | certificate {source : DecodeError} : source.IsContent → IsMalformed (.malformedCertificate source)
  | publicKey {source : DecodeError} : source.IsContent → IsMalformed (.malformedPublicKey source)

namespace Verifier

/-- The mode is asked for twice, to decode the certificate and to decode the key. The signature is checked
    over the octets captured, and the extensions are reported as they were decoded. -/
theorem verify_restricts (digest : Digest) (recovery : SignatureRecovery) (hex : HexReader) (data : Octets) :
    Restricts VerifyError.IsMalformed (verify ⟨.der, digest, recovery, hex⟩ data)
      (verify ⟨.ber, digest, recovery, hex⟩ data) := by
  unfold verify run
  simp only [Trail.result_bind, Trail.result_ofExcept, Trail.result_note, Trail.result_pure]
  have hcertificate : Restricts VerifyError.IsMalformed
      ((Entity.decode .der data : Except DecodeError Certificate).mapError .malformedCertificate)
      ((Entity.decode .ber data).mapError .malformedCertificate) :=
    (Entity.decode_restricts data).mapError fun _ => .certificate
  refine hcertificate.bind fun certificate => .bind .rfl fun _ => ?_
  exact (certificate.info.publicKey.rsaPublicKey_restricts.mapError fun _ => .publicKey).bind fun key => .rfl

/-- **DER only restricts BER.** What is decoded in DER is decoded in BER to the very same value, captured
    encodings included. Verifying in DER reports what verifying in BER does, unless it refuses the encoding
    of the certificate or of the key in it. -/
theorem der_restricts_ber :
    (∀ (schema : Schema) (data : Octets) (value : Value),
      schema.decode .der data = .ok value → schema.decode .ber data = .ok value) ∧
    ∀ (digest : Digest) (recovery : SignatureRecovery) (hex : HexReader) (data : Octets),
      (∃ source, verify ⟨.der, digest, recovery, hex⟩ data = .error (.malformedCertificate source)) ∨
      (∃ source, verify ⟨.der, digest, recovery, hex⟩ data = .error (.malformedPublicKey source)) ∨
      verify ⟨.der, digest, recovery, hex⟩ data = verify ⟨.ber, digest, recovery, hex⟩ data := by
  refine ⟨fun schema data value => (schema.decode_restricts data).ok, fun digest recovery hex data => ?_⟩
  obtain hsame | ⟨_, @⟨source, -⟩ | @⟨source, -⟩, hrefused⟩ := verify_restricts digest recovery hex data
  · exact .inr (.inr hsame)
  · exact .inl ⟨source, hrefused⟩
  · exact .inr (.inl ⟨source, hrefused⟩)

/-- A key is decoded, and a certificate verified, in BER as it is in DER. -/
theorem der_restricts_ber_plain :
    (∃ value, Schema.rsaPublicKey.decode .der [0x30, 0x06, 0x02, 0x01, 0x05, 0x02, 0x01, 0x03] = .ok value ∧
      Schema.rsaPublicKey.decode .ber [0x30, 0x06, 0x02, 0x01, 0x05, 0x02, 0x01, 0x03] = .ok value) ∧
    plainVerifier.verify plainCertificate = .ok ⟨some 7, [5], [3], []⟩ ∧
      verify ⟨.ber, plainVerifier.digest, plainVerifier.recovery, .plain⟩ plainCertificate =
        .ok ⟨some 7, [5], [3], []⟩ := by
  have hkey : Schema.rsaPublicKey.decode .der [0x30, 0x06, 0x02, 0x01, 0x05, 0x02, 0x01, 0x03] =
      .ok (.sequence ⟨[("modulus", .integer (.ofUnsigned [5])), ("publicExponent", .integer (.ofUnsigned [3]))],
        some ⟨[0x30, 0x06, 0x02, 0x01, 0x05, 0x02, 0x01, 0x03]⟩⟩) := by
    cbv
  have hverify := verify_plainCertificate
  obtain ⟨hdecode, hmodes⟩ := der_restricts_ber
  refine ⟨⟨_, hkey, hdecode _ _ _ hkey⟩, hverify, ?_⟩
  obtain ⟨source, h⟩ | ⟨source, h⟩ | h := hmodes plainVerifier.digest plainVerifier.recovery .plain plainCertificate
  · cases hverify.symm.trans h
  · cases hverify.symm.trans h
  · exact h.symm.trans hverify

end Verifier

end Asn1
