import Asn1.Oid.Dotted

/-!
# `Asn1.Oid.Known` — object identifiers with a name

## Contents
- **Identifiers.** Those of the RSA algorithms, of SHA-256, and of the common certificate extensions.
- **Names.** `Oid.name?` looks up the name, `Oid.describe` is the dotted text with it.
-/

namespace Asn1

namespace Oid

/-! ## Identifiers -/

/-- 1.2.840.113549.1.1.1 -/
def rsaEncryption : Oid := ⟨[42, 134, 72, 134, 247, 13, 1, 1, 1]⟩

/-- 1.2.840.113549.1.1.5 -/
def sha1WithRsaEncryption : Oid := ⟨[42, 134, 72, 134, 247, 13, 1, 1, 5]⟩

/-- 1.2.840.113549.1.1.11 -/
def sha256WithRsaEncryption : Oid := ⟨[42, 134, 72, 134, 247, 13, 1, 1, 11]⟩

/-- 1.2.840.113549.1.1.12 -/
def sha384WithRsaEncryption : Oid := ⟨[42, 134, 72, 134, 247, 13, 1, 1, 12]⟩

/-- 1.2.840.113549.1.1.13 -/
def sha512WithRsaEncryption : Oid := ⟨[42, 134, 72, 134, 247, 13, 1, 1, 13]⟩

/-- 2.16.840.1.101.3.4.2.1 -/
def sha256 : Oid := ⟨[96, 134, 72, 1, 101, 3, 4, 2, 1]⟩

/-- 2.5.29.14 -/
def subjectKeyIdentifier : Oid := ⟨[85, 29, 14]⟩

/-- 2.5.29.15 -/
def keyUsage : Oid := ⟨[85, 29, 15]⟩

/-- 2.5.29.17 -/
def subjectAltName : Oid := ⟨[85, 29, 17]⟩

/-- 2.5.29.19 -/
def basicConstraints : Oid := ⟨[85, 29, 19]⟩

/-- 2.5.29.35 -/
def authorityKeyIdentifier : Oid := ⟨[85, 29, 35]⟩

/-- 2.5.29.37 -/
def extendedKeyUsage : Oid := ⟨[85, 29, 37]⟩

/-! ## Names -/

/-- The known identifiers and their names. -/
def names : List (Oid × String) :=
  [(rsaEncryption, "rsaEncryption"), (sha1WithRsaEncryption, "sha1WithRSAEncryption"),
   (sha256WithRsaEncryption, "sha256WithRSAEncryption"),
   (sha384WithRsaEncryption, "sha384WithRSAEncryption"),
   (sha512WithRsaEncryption, "sha512WithRSAEncryption"), (sha256, "sha256"),
   (subjectKeyIdentifier, "subjectKeyIdentifier"), (keyUsage, "keyUsage"),
   (subjectAltName, "subjectAltName"), (basicConstraints, "basicConstraints"),
   (authorityKeyIdentifier, "authorityKeyIdentifier"), (extendedKeyUsage, "extendedKeyUsage")]

/-- The name of the identifier, if it is a known one. -/
def name? (oid : Oid) : Option String := names.lookup oid

/-- The dotted text, followed by the name of a known identifier. -/
def describe (oid : Oid) : String :=
  match oid.name? with
  | some name => "Oid(" ++ oid.text ++ " " ++ name ++ ")"
  | none => "Oid(" ++ oid.text ++ ")"

end Oid

end Asn1
