import Asn1.Octets

/-!
# `Asn1.Signature.Recovery` — recovering a digest from a signature

An RSA signature is undone by raising it to the public exponent modulo the modulus. The digest is at the
end of the resulting block; what comes before it is not looked at.

## Contents
- **SignatureRecovery.** A function from key, signature and digest length to the digest, if there is one.
- **Modular powers.** `modularPower` squares its way through the exponent.
- **RSA.** `SignatureRecovery.rsa` takes the end of the block.
-/

namespace Asn1

/-- A way to recover a digest from a signature. -/
structure SignatureRecovery where
  /-- The last `digestLen` octets of the block that a signature hides, or nothing if the signature cannot be
      processed with the key. All numbers are unsigned and big-endian. -/
  recover : (modulus exponent signature : Octets) → (digestLen : Nat) → Option Octets

/-! ## Modular powers -/

/-- The remainder of `acc * base ^ exponent`. Each step uses up the lowest bit of the exponent. -/
def modularPowerFrom (acc base exponent modulus : Nat) : Nat :=
  if exponent = 0 then acc % modulus
  else
    let acc := if exponent % 2 = 1 then acc * base % modulus else acc
    modularPowerFrom acc (base * base % modulus) (exponent / 2) modulus
termination_by exponent
decreasing_by omega

/-- The remainder of `base ^ exponent`. -/
def modularPower (base exponent modulus : Nat) : Nat := modularPowerFrom 1 base exponent modulus

/-! ## RSA -/

namespace SignatureRecovery

/-- The octets of a block. A block of zero is a single zero octet. -/
def blockOctets (block : Nat) : Octets := if block = 0 then [0x00] else Octets.ofNat block

/-- The end of the block that an RSA signature hides. A signature must be below the modulus, and a digest
    must not be longer than it. Leading zeros that the block lost are put back. -/
def recoverRsa (modulus exponent signature : Octets) (digestLen : Nat) : Option Octets :=
  if modulus.toNat ≤ signature.toNat ∨ modulus.length < digestLen then none
  else
    let block := modularPower signature.toNat exponent.toNat modulus.toNat
    some (Octets.rightmost digestLen (blockOctets block))

/-- Recovery by plain modular exponentiation. -/
def rsa : SignatureRecovery := ⟨recoverRsa⟩

end SignatureRecovery

end Asn1
