import Asn1.Certificate.Algorithm

/-!
# `Asn1.Certificate.PublicKey` — public keys

## Contents
- **RSA keys.** `RsaPublicKey`, a modulus and an exponent.
- **Key info.** `SubjectPublicKeyInfo` holds the encoded key in a bit string, along with its algorithm.
-/

namespace Asn1

/-! ## RSA keys -/

/-- An RSA public key. -/
structure RsaPublicKey where
  modulus : Integer
  exponent : Integer
deriving BEq

namespace RsaPublicKey

/-- The number of octets of the modulus. -/
def modulusLen (key : RsaPublicKey) : Nat := key.modulus.magnitude.length

/-- The fields of the key. -/
def toValue (key : RsaPublicKey) : Value :=
  .sequence
    { fields := [("modulus", .integer key.modulus), ("publicExponent", .integer key.exponent)] }

/-- The key with the fields of a value. -/
def ofValue? (value : Value) : Option RsaPublicKey := do
  let fields ← value.asSequence?
  let modulus ← (← fields.get? "modulus").asInteger?
  let exponent ← (← fields.get? "publicExponent").asInteger?
  return ⟨modulus, exponent⟩

instance : Entity RsaPublicKey := ⟨.rsaPublicKey, toValue, ofValue?⟩

end RsaPublicKey

/-! ## Key info -/

/-- A public key in encoded form, and its algorithm. -/
structure SubjectPublicKeyInfo where
  algorithm : AlgorithmIdentifier
  publicKey : BitString
deriving BEq

namespace SubjectPublicKeyInfo

/-- The key info of an RSA public key. -/
def ofRsa (key : RsaPublicKey) : Except EncodeError SubjectPublicKeyInfo := do
  let encoded ← Entity.encode key
  return ⟨.withNull .rsaEncryption, .ofOctets encoded⟩

/-- Reads the RSA public key in the bit string. The algorithm is not looked at. -/
def rsaPublicKey (info : SubjectPublicKeyInfo) (mode : Mode) : Except DecodeError RsaPublicKey :=
  if info.publicKey.unused.val = 0 then Entity.decode mode info.publicKey.octets
  else .error (.content .publicKeyUnusedBits 0)

/-- The fields of the key info. -/
def toValue (info : SubjectPublicKeyInfo) : Value :=
  .sequence
    { fields :=
        [("algorithm", info.algorithm.toValue), ("subjectPublicKey", .bitString info.publicKey)] }

/-- The key info with the fields of a value. -/
def ofValue? (value : Value) : Option SubjectPublicKeyInfo := do
  let fields ← value.asSequence?
  let algorithm ← AlgorithmIdentifier.ofValue? (← fields.get? "algorithm")
  let publicKey ← (← fields.get? "subjectPublicKey").asBitString?
  return ⟨algorithm, publicKey⟩

instance : Entity SubjectPublicKeyInfo := ⟨.subjectPublicKeyInfo, toValue, ofValue?⟩

end SubjectPublicKeyInfo

end Asn1
