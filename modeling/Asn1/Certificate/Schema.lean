import Asn1.Schema

/-!
# `Asn1.Certificate.Schema` — the schemas of a certificate

The schema is a reduced form of an X.509 certificate. The signed part holds the serial number, the
signature algorithm, the public key and the extensions.

```text
Certificate ::= SEQUENCE {
    tbs                   CertificateInfo,
    signatureAlgorithm    AlgorithmIdentifier,
    signature             BIT STRING }

CertificateInfo ::= SEQUENCE {
    serialNumber          INTEGER,
    signatureAlgorithm    AlgorithmIdentifier,
    subjectPublicKeyInfo  SubjectPublicKeyInfo,
    extensions            [3] EXPLICIT SEQUENCE OF Extension OPTIONAL }

AlgorithmIdentifier ::= SEQUENCE {
    algorithm             OBJECT IDENTIFIER,
    parameters            ANY DEFINED BY algorithm OPTIONAL }

SubjectPublicKeyInfo ::= SEQUENCE {
    algorithm             AlgorithmIdentifier,
    subjectPublicKey      BIT STRING }

Extension ::= SEQUENCE {
    id                    OBJECT IDENTIFIER,
    critical              BOOLEAN OPTIONAL,
    value                 OCTET STRING }

RSAPublicKey ::= SEQUENCE {
    modulus               INTEGER,
    publicExponent        INTEGER }
```
-/

namespace Asn1

/-- A required field of a fixed type under its natural tag. -/
def Field.plain (name : String) (type : Schema) : Field Schema := { name, type := .fixed type }

namespace Schema

/-- The algorithms whose parameters are NULL. -/
def rsaAlgorithms : List Oid :=
  [.rsaEncryption, .sha1WithRsaEncryption, .sha256WithRsaEncryption, .sha384WithRsaEncryption,
   .sha512WithRsaEncryption]

/-- The type of algorithm parameters: NULL for RSA algorithms, and any value for all others. -/
def parameterSelector : Selector Schema where
  field := "algorithm"
  choices := rsaAlgorithms.map (·, .primitive .null)
  default := some .any

/-- An algorithm and its parameters. -/
def algorithmIdentifier : Schema :=
  .sequence "AlgorithmIdentifier"
    [.plain "algorithm" (.primitive .objectIdentifier),
     { name := "parameters", type := .selected parameterSelector, optional := true }]

/-- An extension of a certificate. -/
def certificateExtension : Schema :=
  .sequence "Extension"
    [.plain "id" (.primitive .objectIdentifier),
     { name := "critical", type := .fixed (.primitive .boolean), optional := true },
     .plain "value" (.primitive .octetString)]

/-- A public key together with its algorithm. -/
def subjectPublicKeyInfo : Schema :=
  .sequence "SubjectPublicKeyInfo"
    [.plain "algorithm" algorithmIdentifier,
     .plain "subjectPublicKey" (.primitive .bitString)]

/-- The key inside the bit string of an RSA public key. -/
def rsaPublicKey : Schema :=
  .sequence "RSAPublicKey"
    [.plain "modulus" (.primitive .integer),
     .plain "publicExponent" (.primitive .integer)]

/-- The signed part of a certificate. -/
def certificateInfo : Schema :=
  .sequence "CertificateInfo"
    [.plain "serialNumber" (.primitive .integer),
     .plain "signatureAlgorithm" algorithmIdentifier,
     .plain "subjectPublicKeyInfo" subjectPublicKeyInfo,
     { name := "extensions", type := .fixed certificateExtension,
       tagging := some ⟨.explicit, .contextSpecific 3⟩, optional := true,
       repetition := .sequenceOf }]

/-- A certificate. -/
def certificate : Schema :=
  .sequence "Certificate"
    [.plain "tbs" certificateInfo,
     .plain "signatureAlgorithm" algorithmIdentifier,
     .plain "signature" (.primitive .bitString)]

/-- All schemas of this module. -/
def certificateSchemas : List Schema :=
  [algorithmIdentifier, certificateExtension, subjectPublicKeyInfo, rsaPublicKey, certificateInfo,
   certificate]

end Schema

end Asn1
