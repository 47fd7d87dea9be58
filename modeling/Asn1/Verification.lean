import Asn1.Certificate
import Asn1.Octets.Hex
import Asn1.Signature.Digest
import Asn1.Signature.Recovery

/-!
# `Asn1.Verification` — verifying the signature of a certificate

A verifier decodes a certificate, checks its RSA signature over the exact octets of the signed part, and
reports what a consumer needs. Nothing is reported unless the signature is correct.

## Contents
- **Outcome.** `VerifiedInfo`, `VerifyError`.
- **Trail.** Verification leaves a trail of events: `Event` says what is logged, and what digest and
  recovery were asked. `Trail` carries events and result along.
- **Steps.** The key, the signature, and the extensions are checked one after the other.
- **Verifier.** `Verifier.run` puts the steps together, `Verifier.verify` is the result alone.
-/

namespace Asn1

/-! ## Outcome -/

/-- What can be wrong with a certificate. -/
inductive VerifyError where
  /-- The certificate cannot be decoded. -/
  | malformedCertificate (source : DecodeError)
  /-- The public key cannot be decoded, or is of no use. -/
  | malformedPublicKey (source : DecodeError)
  /-- The signature does not match the signed part. -/
  | signatureInvalid
  /-- The value of an extension is too long. -/
  | extensionTooLong
deriving DecidableEq

namespace VerifyError

/-- The decoding error behind the error, if there is one. -/
def source? : VerifyError → Option DecodeError
  | malformedCertificate source => some source
  | malformedPublicKey source => some source
  | signatureInvalid => none
  | extensionTooLong => none

/-- The wording of a verification error. -/
def message : VerifyError → String
  | malformedCertificate source => "malformed certificate: " ++ source.message
  | malformedPublicKey source => "malformed public key: " ++ source.message
  | signatureInvalid => "invalid signature"
  | extensionTooLong => "extension value too long"

end VerifyError

/-- An extension as it is reported. -/
structure ReportedExtension where
  id : Oid
  value : Octets
deriving DecidableEq

/-- What is reported of a certificate with a valid signature. -/
structure VerifiedInfo where
  /-- The serial number, if it fits a native signed integer. -/
  serialNumber : Option Int64
  /-- The modulus as an unsigned big-endian number without leading zeros. -/
  modulus : Octets
  /-- The exponent as an unsigned big-endian number without leading zeros. -/
  exponent : Octets
  extensions : List ReportedExtension
deriving DecidableEq

/-! ## Trail -/

/-- How much attention a log message deserves. -/
inductive LogLevel where
  | warn
  | debug
  | trace
deriving DecidableEq

/-- The name of a log level. -/
def LogLevel.name : LogLevel → String
  | warn => "WARN"
  | debug => "DEBUG"
  | trace => "TRACE"

/-- Something that happens during verification. -/
inductive Event where
  /-- The certificate was decoded. -/
  | certificateDecoded (serialNumber : Integer) (algorithm : Oid)
  /-- The key was decoded and found usable. -/
  | keyDecoded (modulusLen : Nat)
  /-- The signature does not fill its octets. -/
  | signatureUnusedBits
  /-- The digest of the data was asked for. -/
  | digestAsked (data : Octets)
  /-- The digest in a signature was asked for. -/
  | recoveryAsked (modulus exponent signature : Octets) (digestLen : Nat)
  /-- The signature gave no digest. -/
  | recoveryFailed
  /-- The digest in the signature is another one than that of the data. -/
  | digestMismatch
  /-- The signature is valid. -/
  | signatureVerified
  /-- An extension is looked at. -/
  | extensionFound (ext : Extension)
  /-- The value of an extension was taken as hexadecimal text. -/
  | hexUnpacked (id : Oid)

/-- The log message for an event. Asking for a digest is not logged. -/
def Event.log? : Event → Option (LogLevel × String)
  | certificateDecoded serialNumber algorithm =>
    some (.debug, "decoded certificate with serial number " ++ serialNumber.text ++
      " signed with " ++ algorithm.text)
  | keyDecoded modulusLen =>
    some (.debug, "RSA public key with " ++ toString modulusLen ++ " octet modulus")
  | signatureUnusedBits => some (.warn, "signature with unused bits")
  | digestAsked _ => none
  | recoveryAsked _ _ _ _ => none
  | recoveryFailed => some (.warn, "failed to recover digest from signature")
  | digestMismatch => some (.warn, "signature digest mismatch")
  | signatureVerified => some (.debug, "signature verified")
  | extensionFound ext =>
    some (.trace, "extension " ++ ext.id.describe ++ ", " ++ toString ext.value.length ++
      " octets, critical: " ++ toString ext.isCritical)
  | hexUnpacked id => some (.trace, "packed hex value of extension " ++ id.text)

/-- A result, or an error, and the events that led to it. -/
structure Trail (α : Type) where
  events : List Event
  result : Except VerifyError α

namespace Trail

/-- A trail without events. -/
def ofExcept {α : Type} (result : Except VerifyError α) : Trail α := ⟨[], result⟩

/-- Records an event. -/
def note (event : Event) : Trail Unit := ⟨[event], .ok ()⟩

/-- Goes on with the result of a trail, if there is one. -/
def bind {α β : Type} (trail : Trail α) (next : α → Trail β) : Trail β :=
  match trail.result with
  | .ok value => ⟨trail.events ++ (next value).events, (next value).result⟩
  | .error error => ⟨trail.events, .error error⟩

instance : Monad Trail where
  pure value := ofExcept (.ok value)
  bind := bind

@[simp] theorem result_pure {α : Type} (value : α) : (pure value : Trail α).result = .ok value := rfl

@[simp] theorem result_note (event : Event) : (note event).result = .ok () := rfl

@[simp] theorem result_ofExcept {α : Type} (result : Except VerifyError α) :
    (ofExcept result).result = result := rfl

/-- The result of steps in a row does not depend on the events. -/
@[simp] theorem result_bind {α β : Type} (trail : Trail α) (next : α → Trail β) :
    (trail >>= next).result = trail.result >>= fun value => (next value).result := by
  obtain ⟨events, result⟩ := trail
  cases result <;> rfl

/-- The messages logged, in order. -/
def log {α : Type} (trail : Trail α) : List (LogLevel × String) := trail.events.filterMap Event.log?

end Trail

/-! ## Steps -/

/-- Whether an integer is above zero. -/
def Integer.isPositive (integer : Integer) : Bool := !integer.negative && !integer.isZero

/-- Refuses keys with a component that is zero or negative. -/
def RsaPublicKey.check (key : RsaPublicKey) : Except VerifyError Unit :=
  if key.modulus.isPositive && key.exponent.isPositive then .ok ()
  else .error (.malformedPublicKey (.content .keyComponentNotPositive 0))

/-- What is reported of an extension: the value, if it is at most `limit` octets long. A longer one is
    taken as hexadecimal text of a value that is. -/
def Extension.report (hex : HexReader) (limit : Nat) (ext : Extension) : Trail ReportedExtension :=
  if ext.value.length ≤ limit then pure ⟨ext.id, ext.value⟩
  else
    match hex.read? ext.value with
    | some value =>
      if value.length ≤ limit then do
        Trail.note (.hexUnpacked ext.id)
        return ⟨ext.id, value⟩
      else .ofExcept (.error .extensionTooLong)
    | none => .ofExcept (.error .extensionTooLong)

/-- Reports all extensions in order. The first one that cannot be reported ends it. -/
def reportExtensions (hex : HexReader) (limit : Nat) : List Extension → Trail (List ReportedExtension)
  | [] => pure []
  | ext :: rest => do
    Trail.note (.extensionFound ext)
    let first ← ext.report hex limit
    let others ← reportExtensions hex limit rest
    return first :: others

/-! ## Verifier -/

/-- A choice of decoding mode, digest, signature recovery, and reader of hexadecimal text. -/
structure Verifier where
  mode : Mode := .ber
  digest : Digest := .sha256
  recovery : SignatureRecovery := .rsa
  hex : HexReader := .plain

namespace Verifier

/-- Checks the signature over the signed part of a certificate. -/
def checkSignature (verifier : Verifier) (certificate : Certificate) (key : RsaPublicKey) :
    Trail Unit :=
  if certificate.signature.unused.val = 0 then do
    let signed := certificate.signedOctets.octets
    let modulus := key.modulus.magnitude
    let exponent := key.exponent.magnitude
    let signature := certificate.signature.octets
    let digestLen := verifier.digest.outputLen
    Trail.note (.digestAsked signed)
    Trail.note (.recoveryAsked modulus exponent signature digestLen)
    match verifier.recovery.recover modulus exponent signature digestLen with
    | none => do
      Trail.note .recoveryFailed
      .ofExcept (.error .signatureInvalid)
    | some recovered =>
      if recovered = verifier.digest.digest signed then pure ()
      else do
        Trail.note .digestMismatch
        .ofExcept (.error .signatureInvalid)
  else do
    Trail.note .signatureUnusedBits
    .ofExcept (.error .signatureInvalid)

/-- Verifies an encoded certificate and records what happens. -/
def run (verifier : Verifier) (data : Octets) : Trail VerifiedInfo := do
  let certificate : Certificate ←
    .ofExcept ((Entity.decode verifier.mode data).mapError .malformedCertificate)
  Trail.note (.certificateDecoded certificate.info.serialNumber
    certificate.signatureAlgorithm.algorithm)
  let key ← .ofExcept
    ((certificate.info.publicKey.rsaPublicKey verifier.mode).mapError .malformedPublicKey)
  Trail.ofExcept key.check
  Trail.note (.keyDecoded key.modulusLen)
  verifier.checkSignature certificate key
  Trail.note .signatureVerified
  let extensions ← reportExtensions verifier.hex key.modulusLen certificate.extensions
  return {
    serialNumber := certificate.info.serialNumber.toInt64?
    modulus := key.modulus.magnitude
    exponent := key.exponent.magnitude
    extensions := extensions }

/-- Verifies an encoded certificate. -/
def verify (verifier : Verifier) (data : Octets) : Except VerifyError VerifiedInfo :=
  (verifier.run data).result

end Verifier

end Asn1
