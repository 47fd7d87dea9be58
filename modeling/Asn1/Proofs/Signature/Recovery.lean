import Asn1.Proofs.Octets
import Asn1.Signature.Recovery
import Mathlib.Data.Nat.ModEq

/-!
# `Asn1.Proofs.Signature.Recovery` — recovering a digest is arithmetic

An RSA signature hides a number below the modulus. The digest recovered from it spells the end of this number
in as many octets as it should have, also where the number is so small that it has fewer. How many zeros the key
and the signature are written with makes no difference.

## Contents
- **Powers.** `modularPower_eq`: squaring and multiplying computes the remainder of the power.
- **Digests.** `SignatureRecovery.recoverRsa_eq_none_iff` and `SignatureRecovery.recoverRsa_eq_some_iff`.
- **Other arithmetic.** `BigArithmetic` may compute powers and octets in another way, as long as they are right
  for a positive modulus. No recovery asks it for a remainder by zero.
- **Result.** `SignatureRecovery.rsa_recovers_end`.
-/

namespace Asn1

/-! ## Powers -/

/-- Each step keeps the product of the accumulator and the power that is left. -/
theorem modularPowerFrom_eq (acc base exponent modulus : Nat) :
    modularPowerFrom acc base exponent modulus = acc * base ^ exponent % modulus := by
  fun_induction modularPowerFrom acc base exponent modulus with
  | case1 acc base => rw [pow_zero, Nat.mul_one]
  | case2 acc base exponent hexponent next ih =>
      have hsquare : (base * base % modulus) ^ (exponent / 2) ≡ base ^ (2 * (exponent / 2)) [MOD modulus] := by
        rw [pow_mul, pow_two]
        exact (Nat.mod_modEq _ _).pow _
      have hnext : next ≡ acc * base ^ (exponent % 2) [MOD modulus] := by
        show (if exponent % 2 = 1 then acc * base % modulus else acc) ≡ _ [MOD modulus]
        rcases Nat.mod_two_eq_zero_or_one exponent with heven | hodd
        · rw [heven, if_neg (by decide), pow_zero, Nat.mul_one]
        · rw [hodd, if_pos rfl, pow_one]
          exact Nat.mod_modEq _ _
      have hpower : acc * base ^ (exponent % 2) * base ^ (2 * (exponent / 2)) = acc * base ^ exponent := by
        rw [Nat.mul_assoc, ← pow_add, Nat.mod_add_div]
      rw [ih, ← hpower]
      exact hnext.mul hsquare

/-- **Squaring and multiplying computes the remainder of the power.** -/
theorem modularPower_eq (base exponent modulus : Nat) :
    modularPower base exponent modulus = base ^ exponent % modulus := by
  rw [modularPower, modularPowerFrom_eq, Nat.one_mul]

namespace SignatureRecovery

variable {modulus exponent signature digest : Octets} {digestLen : Nat}

/-! ## Digests -/

theorem toNat_blockOctets (block : Nat) : (blockOctets block).toNat = block := by
  unfold blockOctets
  split
  · rename_i hzero
    rw [hzero]
    rfl
  · exact Octets.toNat_ofNat block

/-- Nothing is recovered from a signature that is not below the modulus, or if the digest is longer than it. -/
theorem recoverRsa_eq_none_iff :
    recoverRsa modulus exponent signature digestLen = none ↔
      modulus.toNat ≤ signature.toNat ∨ modulus.length < digestLen := by
  unfold recoverRsa
  by_cases h : modulus.toNat ≤ signature.toNat ∨ modulus.length < digestLen
  · rw [if_pos h]
    exact iff_of_true rfl h
  · rw [if_neg h]
    exact iff_of_false nofun h

/-- **The digest recovered spells the end of the block**, in as many octets as it should have. -/
theorem recoverRsa_eq_some_iff :
    recoverRsa modulus exponent signature digestLen = some digest ↔
      signature.toNat < modulus.toNat ∧ digestLen ≤ modulus.length ∧ digest.length = digestLen ∧
        digest.toNat = signature.toNat ^ exponent.toNat % modulus.toNat % 256 ^ digestLen := by
  unfold recoverRsa
  by_cases h : modulus.toNat ≤ signature.toNat ∨ modulus.length < digestLen
  · rw [if_pos h]
    constructor
    · nofun
    · rintro ⟨hlt, hle, -⟩
      omega
  · rw [if_neg h, Option.some.injEq, modularPower_eq]
    have hlength := Octets.length_rightmost digestLen
      (blockOctets (signature.toNat ^ exponent.toNat % modulus.toNat))
    have hnumber := Octets.toNat_rightmost digestLen
      (blockOctets (signature.toNat ^ exponent.toNat % modulus.toNat))
    rw [toNat_blockOctets] at hnumber
    constructor
    · rintro rfl
      exact ⟨by omega, by omega, hlength, hnumber⟩
    · rintro ⟨-, -, hdigestLength, hdigest⟩
      exact Octets.eq_of_toNat_eq (hlength.trans hdigestLength.symm) (hnumber.trans hdigest.symm)

/-- Zeros in front of the modulus, the exponent or the signature do not change the digest. -/
theorem recoverRsa_zeros (h : recoverRsa modulus exponent signature digestLen = some digest)
    (before beforeExponent beforeSignature : Nat) :
    recoverRsa (List.replicate before 0 ++ modulus) (List.replicate beforeExponent 0 ++ exponent)
      (List.replicate beforeSignature 0 ++ signature) digestLen = some digest := by
  obtain ⟨hlt, hle, hlength, hdigest⟩ := recoverRsa_eq_some_iff.1 h
  rw [recoverRsa_eq_some_iff, Octets.toNat_replicate_append, Octets.toNat_replicate_append,
    Octets.toNat_replicate_append, List.length_append]
  exact ⟨hlt, by omega, hlength, hdigest⟩

end SignatureRecovery

/-! ## Other arithmetic -/

/-- Arithmetic for unsigned numbers of any size: powers modulo a number, and the octets of a number. The powers
    are right for a positive exponent and a positive modulus; for others they may be anything. -/
structure BigArithmetic where
  power : (base exponent modulus : Nat) → Nat
  octets : Nat → Octets
  power_eq : ∀ {base exponent modulus : Nat}, 0 < exponent → 0 < modulus →
    power base exponent modulus = base ^ exponent % modulus
  toNat_octets : ∀ number, (octets number).toNat = number

/-- The end of a block: a slice of its octets if there are enough of them, otherwise all of them with zeros in
    front. -/
def BigArithmetic.recover (arithmetic : BigArithmetic) (modulus exponent signature : Octets) (digestLen : Nat) :
    Option Octets :=
  if modulus.toNat ≤ signature.toNat ∨ modulus.length < digestLen then none
  else
    let block := arithmetic.octets (arithmetic.power signature.toNat exponent.toNat modulus.toNat)
    if digestLen ≤ block.length then some (block.drop (block.length - digestLen))
    else some (List.replicate (digestLen - block.length) 0 ++ block)

/-- Slicing and filling up are two cases of one cut. -/
theorem SignatureRecovery.slice_eq_rightmost (digestLen : Nat) (block : Octets) :
    (if digestLen ≤ block.length then some (block.drop (block.length - digestLen))
      else some (List.replicate (digestLen - block.length) 0 ++ block)) =
        some (Octets.rightmost digestLen block) := by
  rw [Octets.rightmost]
  by_cases h : digestLen ≤ block.length
  · rw [if_pos h, Nat.sub_eq_zero_of_le h, List.replicate_zero, List.nil_append]
  · rw [if_neg h, Nat.sub_eq_zero_of_le (Nat.le_of_not_le h), List.drop_zero]

/-- **All arithmetic that is right where it has to be recovers the same digest.** The modulus is above the
    signature where a power is asked for, so it is not zero. -/
theorem BigArithmetic.recover_eq (arithmetic : BigArithmetic) {modulus exponent signature : Octets} {digestLen : Nat}
    (h : 0 < exponent.toNat) :
    arithmetic.recover modulus exponent signature digestLen =
      SignatureRecovery.recoverRsa modulus exponent signature digestLen := by
  unfold recover SignatureRecovery.recoverRsa
  by_cases hrefused : modulus.toNat ≤ signature.toNat ∨ modulus.length < digestLen
  · rw [if_pos hrefused, if_pos hrefused]
  · have hmodulus : 0 < modulus.toNat := by omega
    rw [if_neg hrefused, if_neg hrefused, modularPower_eq, arithmetic.power_eq h hmodulus]
    simp only [SignatureRecovery.slice_eq_rightmost, Option.some.injEq]
    apply Octets.rightmost_congr
    rw [arithmetic.toNat_octets, SignatureRecovery.toNat_blockOctets]

/-! ## Result -/

namespace SignatureRecovery

/-- **Recovery takes the end of the RSA block.** Nothing is recovered exactly if the signature is not below the
    modulus or the digest is longer than the modulus; with a modulus of zero that is always so. Otherwise the
    digest is as long as it should be and spells the last octets of the power. Zeros in front of a number change
    no digest, and other arithmetic recovers the same, whatever it makes of a modulus of zero. -/
theorem rsa_recovers_end (modulus exponent signature : Octets) (digestLen : Nat) :
    (rsa.recover modulus exponent signature digestLen = none ↔
      modulus.toNat ≤ signature.toNat ∨ modulus.length < digestLen) ∧
    (modulus.toNat = 0 → rsa.recover modulus exponent signature digestLen = none) ∧
    (∀ digest, rsa.recover modulus exponent signature digestLen = some digest ↔
      signature.toNat < modulus.toNat ∧ digestLen ≤ modulus.length ∧ digest.length = digestLen ∧
        digest.toNat = signature.toNat ^ exponent.toNat % modulus.toNat % 256 ^ digestLen) ∧
    (∀ digest before beforeExponent beforeSignature,
      rsa.recover modulus exponent signature digestLen = some digest →
      rsa.recover (List.replicate before 0 ++ modulus) (List.replicate beforeExponent 0 ++ exponent)
        (List.replicate beforeSignature 0 ++ signature) digestLen = some digest) ∧
    (0 < exponent.toNat → ∀ arithmetic : BigArithmetic,
      arithmetic.recover modulus exponent signature digestLen =
        rsa.recover modulus exponent signature digestLen) := by
  refine ⟨recoverRsa_eq_none_iff, ?_, fun digest => recoverRsa_eq_some_iff, ?_, ?_⟩
  · intro hzero
    exact recoverRsa_eq_none_iff.2 (.inl (hzero ▸ Nat.zero_le _))
  · intro digest before beforeExponent beforeSignature h
    exact recoverRsa_zeros h before beforeExponent beforeSignature
  · intro hexponent arithmetic
    exact arithmetic.recover_eq hexponent

/-- Arithmetic with the powers and the octets of natural numbers. -/
def naturalArithmetic : BigArithmetic where
  power base exponent modulus := base ^ exponent % modulus
  octets := blockOctets
  power_eq _ _ := rfl
  toNat_octets := toNat_blockOctets

/-- The textbook key with the modulus 61 * 53 and the exponent 2753: the block is 65, which takes one octet, and
    the digest of two octets gets a zero in front. A signature that is the modulus hides nothing. -/
theorem rsa_recovers_end_shortBlock :
    rsa.recover [0x0C, 0xA1] [0x0A, 0xC1] [0x0A, 0xE6] 2 = some [0x00, 0x41] ∧
      rsa.recover [0x00, 0x0C, 0xA1] [0x0A, 0xC1] [0x00, 0x00, 0x0A, 0xE6] 2 = some [0x00, 0x41] ∧
      naturalArithmetic.recover [0x0C, 0xA1] [0x0A, 0xC1] [0x0A, 0xE6] 2 = some [0x00, 0x41] ∧
      rsa.recover [0x0C, 0xA1] [0x0A, 0xC1] [0x0C, 0xA1] 2 = none ∧
      rsa.recover [0x00, 0x00] [0x0A, 0xC1] [0x00] 1 = none := by
  obtain ⟨-, -, hsome, hzeros, harithmetic⟩ := rsa_recovers_end [0x0C, 0xA1] [0x0A, 0xC1] [0x0A, 0xE6] 2
  obtain ⟨hnone, -, -, -, -⟩ := rsa_recovers_end [0x0C, 0xA1] [0x0A, 0xC1] [0x0C, 0xA1] 2
  obtain ⟨-, hzero, -, -, -⟩ := rsa_recovers_end [0x00, 0x00] [0x0A, 0xC1] [0x00] 1
  have h := (hsome [0x00, 0x41]).2 ⟨by decide, by decide, rfl, by decide +kernel⟩
  exact ⟨h, hzeros _ 1 0 2 h, (harithmetic (by decide) naturalArithmetic).trans h, hnone.2 (.inl (by decide)),
    hzero (by decide)⟩

end SignatureRecovery

end Asn1
