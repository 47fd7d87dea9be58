import Asn1.Certificate.Extension
import Asn1.Certificate.PublicKey

/-!
# `Asn1.Certificate` — certificates

## Contents
- **Signed part.** `CertificateInfo` is what the signature covers.
- **Certificate.** The signed part, the signature, and the exact octets that are signed: those captured
  when the certificate was decoded, or the DER encoding of the signed part.
-/

namespace Asn1

/-! ## Signed part -/

/-- The signed part of a certificate. -/
structure CertificateInfo where
  serialNumber : Integer
  signatureAlgorithm : AlgorithmIdentifier
  publicKey : SubjectPublicKeyInfo
  /-- The extensions, if the field is there. -/
  extensions : Option (List Extension)
deriving BEq

namespace CertificateInfo

/-- The fields of the signed part. -/
def toValue (info : CertificateInfo) : Value :=
  .sequence
    { fields :=
        [("serialNumber", .integer info.serialNumber),
          ("signatureAlgorithm", info.signatureAlgorithm.toValue),
          ("subjectPublicKeyInfo", info.publicKey.toValue)] ++
            info.extensions.toList.map fun extensions =>
              ("extensions", .sequenceOf (extensions.map Extension.toValue)) }

/-- The signed part with the fields of a value. -/
def ofValue? (value : Value) : Option CertificateInfo := do
  let fields ← value.asSequence?
  let extensions ←
    match fields.get? "extensions" with
    | some extensions => do
      let items ← extensions.asItems?
      (items.mapM Extension.ofValue?).map some
    | none => some none
  let serialNumber ← (← fields.get? "serialNumber").asInteger?
  let signatureAlgorithm ← AlgorithmIdentifier.ofValue? (← fields.get? "signatureAlgorithm")
  let publicKey ← SubjectPublicKeyInfo.ofValue? (← fields.get? "subjectPublicKeyInfo")
  return ⟨serialNumber, signatureAlgorithm, publicKey, extensions⟩

instance : Entity CertificateInfo := ⟨.certificateInfo, toValue, ofValue?⟩

end CertificateInfo

/-! ## Certificate -/

/-- A certificate. -/
structure Certificate where
  info : CertificateInfo
  /-- The algorithm of the signature. -/
  signatureAlgorithm : AlgorithmIdentifier
  signature : BitString
  /-- The encoding of the signed part, header included. -/
  signedOctets : Captured
deriving BEq

namespace Certificate

/-- A certificate for the given signed part, which is encoded to have something to verify. -/
def ofInfo (info : CertificateInfo) (signatureAlgorithm : AlgorithmIdentifier)
    (signature : BitString) : Except EncodeError Certificate := do
  let encoded ← Entity.encode info
  return ⟨info, signatureAlgorithm, signature, ⟨encoded⟩⟩

/-- All extensions. Without the field there are none. -/
def extensions (certificate : Certificate) : List Extension := certificate.info.extensions.getD []

/-- The fields of the certificate. The signed part is encoded anew from its fields. -/
def toValue (certificate : Certificate) : Value :=
  .sequence
    { fields :=
        [("tbs", certificate.info.toValue),
          ("signatureAlgorithm", certificate.signatureAlgorithm.toValue),
          ("signature", .bitString certificate.signature)] }

/-- The certificate with the fields of a value. If the encoding of the signed part was not captured, it
    is encoded to get its octets. -/
def ofValue? (value : Value) : Option Certificate := do
  let fields ← value.asSequence?
  let signedPart ← fields.get? "tbs"
  let info ← CertificateInfo.ofValue? signedPart
  let signedOctets ←
    match (← signedPart.asSequence?).raw with
    | some captured => some captured
    | none => (Entity.encode info).toOption.map Captured.mk
  let signatureAlgorithm ← AlgorithmIdentifier.ofValue? (← fields.get? "signatureAlgorithm")
  let signature ← (← fields.get? "signature").asBitString?
  return ⟨info, signatureAlgorithm, signature, signedOctets⟩

instance : Entity Certificate := ⟨.certificate, toValue, ofValue?⟩

end Certificate

end Asn1
