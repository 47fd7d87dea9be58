import Asn1.Proofs.Verification

/-!
# `Asn1.Proofs.Verification.Extensions` — extensions are reported exactly

Once the signature of a certificate is checked, nothing but its extensions can keep it from being verified. A
value of at most as many octets as the modulus is reported as it is, a longer one is taken as hexadecimal text.
One extension that cannot be reported either way refuses the certificate.

## Contents
- **One extension.** `Extension.TooLong` says which extensions are refused, `Extension.fits_iff` that the others
  can be reported.
- **All extensions.** `reportExtensions_of_tooLong`: wherever an extension is too long, all are refused.
- **Result.** `Verifier.extensions_reported`, for certificates with a `Verifier.Checked` signature.
-/

namespace Asn1

/-! ## One extension -/

namespace Extension

variable {limit : Nat} {extension : Extension}

/-- The value is longer than `limit` octets, and it is not hexadecimal text of a value that is not. -/
def TooLong (limit : Nat) (extension : Extension) : Prop :=
  limit < extension.value.length ∧
    ¬ (Octets.IsHexText extension.value ∧ extension.value.length ≤ 2 * limit)

/-- Text of at most two digits for each octet that is allowed describes a value that is short enough. -/
theorem fits_iff : extension.Fits limit ↔ ¬ extension.TooLong limit := by
  unfold Fits TooLong
  constructor
  · rintro (hshort | ⟨value, hspelled, hle⟩) ⟨hlong, htext⟩
    · omega
    · have hlength := hspelled.length_eq
      exact htext ⟨Octets.exists_spelledBy_iff.1 ⟨value, hspelled⟩, by omega⟩
  · intro h
    by_cases hshort : extension.value.length ≤ limit
    · exact .inl hshort
    · have htext : Octets.IsHexText extension.value ∧ extension.value.length ≤ 2 * limit :=
        Classical.not_not.1 fun hno => h ⟨Nat.not_le.1 hshort, hno⟩
      obtain ⟨value, hspelled⟩ := Octets.exists_spelledBy_iff.2 htext.1
      have hlength := hspelled.length_eq
      exact .inr ⟨value, hspelled, by omega⟩

theorem report_of_tooLong (hex : HexReader) (h : extension.TooLong limit) :
    (extension.report hex limit).result = .error .extensionTooLong := by
  have hunfit := mt fits_iff.1 (not_not_intro h)
  unfold report
  rw [if_neg (Nat.not_le.2 h.1)]
  cases hvalue : hex.read? extension.value with
  | none => rfl
  | some value =>
      have hspelled := hex.read?_eq_some_iff.1 hvalue
      have hlong : ¬ value.length ≤ limit := fun hle => hunfit (.inr ⟨value, hspelled, hle⟩)
      simp only [if_neg hlong]
      rfl

/-- An extension that holds a text of octets that are short enough is not refused. -/
theorem not_tooLong_of_spelledBy {value : Octets} (h : Octets.SpelledBy value extension.value)
    (hle : value.length ≤ limit) : ¬ extension.TooLong limit :=
  fits_iff.1 (.inr ⟨value, h, hle⟩)

end Extension

/-! ## All extensions -/

/-- One extension that is too long refuses all of them, whatever is before and after it. -/
theorem reportExtensions_of_tooLong (hex : HexReader) {limit : Nat} {extensions : List Extension}
    (h : ∃ extension ∈ extensions, extension.TooLong limit) :
    (reportExtensions hex limit extensions).result = .error .extensionTooLong := by
  induction extensions with
  | nil => simp at h
  | cons extension rest ih =>
      rw [reportExtensions]
      simp only [Trail.result_bind, Trail.result_note, Trail.result_pure]
      by_cases hfirst : extension.TooLong limit
      · rw [Extension.report_of_tooLong hex hfirst]
        rfl
      · have hrest : ∃ other ∈ rest, other.TooLong limit := by
          obtain ⟨other, hmem, hlong⟩ := h
          obtain rfl | hmem := List.mem_cons.1 hmem
          · exact absurd hlong hfirst
          · exact ⟨other, hmem, hlong⟩
        obtain ⟨entry, hentry, -⟩ := Extension.report_of_fits hex (Extension.fits_iff.2 hfirst)
        rw [hentry, ih hrest]
        rfl

/-! ## Result -/

namespace Verifier

/-- The data are a certificate with a key that can be used, and its signature is the right one. -/
structure Checked (verifier : Verifier) (data : Octets) (certificate : Certificate) (key : RsaPublicKey) : Prop where
  decoded : Entity.decode verifier.mode data = .ok certificate
  keyDecoded : certificate.info.publicKey.rsaPublicKey verifier.mode = .ok key
  usable : key.check = .ok ()
  signed : (verifier.checkSignature certificate key).result = .ok ()

/-- What is left to do after the signature is checked is to report the extensions. -/
theorem verify_of_checked {verifier : Verifier} {data : Octets} {certificate : Certificate} {key : RsaPublicKey}
    (h : verifier.Checked data certificate key) :
    verifier.verify data =
      (reportExtensions verifier.hex key.modulusLen certificate.extensions).result.map fun extensions =>
        ⟨certificate.info.serialNumber.toInt64?, key.modulus.magnitude, key.exponent.magnitude, extensions⟩ := by
  unfold verify run
  simp only [Trail.result_bind, Trail.result_ofExcept, Trail.result_note, Trail.result_pure]
  rw [h.decoded]
  show (((certificate.info.publicKey.rsaPublicKey verifier.mode).mapError VerifyError.malformedPublicKey) >>= _) = _
  rw [h.keyDecoded]
  show (key.check >>= _) = _
  rw [h.usable]
  show ((verifier.checkSignature certificate key).result >>= _) = _
  rw [h.signed]
  show ((reportExtensions verifier.hex key.modulusLen certificate.extensions).result >>= _) = _
  cases (reportExtensions verifier.hex key.modulusLen certificate.extensions).result <;> rfl

section Checked

variable {verifier : Verifier} {data : Octets} {certificate : Certificate} {key : RsaPublicKey}

/-- An extension that is too long refuses the certificate. -/
theorem Checked.verify_eq_error (h : verifier.Checked data certificate key)
    (hsome : ∃ extension ∈ certificate.extensions, extension.TooLong key.modulusLen) :
    verifier.verify data = .error .extensionTooLong := by
  rw [verify_of_checked h, reportExtensions_of_tooLong verifier.hex hsome]
  rfl

/-- Without one, all extensions are reported. -/
theorem Checked.exists_verify (h : verifier.Checked data certificate key)
    (hnone : ∀ extension ∈ certificate.extensions, ¬ extension.TooLong key.modulusLen) :
    ∃ result, verifier.verify data = .ok result ∧
      List.Forall₂ (Extension.Reported key.modulusLen) certificate.extensions result.extensions := by
  have hfits : ∀ extension ∈ certificate.extensions, extension.Fits key.modulusLen :=
    fun extension hmem => Extension.fits_iff.2 (hnone extension hmem)
  obtain ⟨entries, hentries, hreported⟩ := reportExtensions_of_fits verifier.hex hfits
  have hverify := verify_of_checked h
  rw [hentries] at hverify
  exact ⟨_, hverify, hreported⟩

/-- What is reported in any place is what the extension in this place says. -/
theorem Checked.reported_of_verify (h : verifier.Checked data certificate key) {result : VerifiedInfo}
    (hresult : verifier.verify data = .ok result) {place : Nat} {extension : Extension}
    (hplace : certificate.extensions[place]? = some extension) :
    ∃ entry, result.extensions[place]? = some entry ∧ extension.Reported key.modulusLen entry := by
  have hnone : ∀ other ∈ certificate.extensions, ¬ other.TooLong key.modulusLen := by
    intro other hmem hlong
    cases (h.verify_eq_error ⟨other, hmem, hlong⟩).symm.trans hresult
  obtain ⟨found, hfound, hall⟩ := h.exists_verify hnone
  obtain rfl := Except.ok.inj (hfound.symm.trans hresult)
  obtain ⟨hin, rfl⟩ := List.getElem?_eq_some_iff.1 hplace
  have hentry : place < found.extensions.length := hall.length_eq ▸ hin
  exact ⟨_, List.getElem?_eq_getElem hentry, hall.get hin hentry⟩

end Checked

/-- **Extensions are reported exactly.** A certificate whose signature is checked is refused for an extension
    that is too long for its modulus, and for nothing else. Otherwise the extensions are reported one by one and
    in order. So octets that are not longer than the modulus are reported where an extension holds a text of
    them that is. -/
theorem extensions_reported {verifier : Verifier} {data : Octets} {certificate : Certificate} {key : RsaPublicKey}
    (h : verifier.Checked data certificate key) :
    (verifier.verify data = .error .extensionTooLong ↔
      ∃ extension ∈ certificate.extensions, extension.TooLong key.modulusLen) ∧
    ((∀ extension ∈ certificate.extensions, ¬ extension.TooLong key.modulusLen) →
      ∃ result, verifier.verify data = .ok result ∧
        List.Forall₂ (Extension.Reported key.modulusLen) certificate.extensions result.extensions) ∧
    ∀ (place : Nat) (extension : Extension) (value : Octets), certificate.extensions[place]? = some extension →
      Octets.SpelledBy value extension.value → value.length ≤ key.modulusLen →
      key.modulusLen < 2 * value.length →
      ¬ extension.TooLong key.modulusLen ∧ ∀ result, verifier.verify data = .ok result →
        result.extensions[place]? = some ⟨extension.id, value⟩ := by
  refine ⟨⟨?_, h.verify_eq_error⟩, h.exists_verify, ?_⟩
  · intro herror
    by_contra hsome
    obtain ⟨result, hresult, -⟩ := h.exists_verify fun extension hmem hlong => hsome ⟨extension, hmem, hlong⟩
    cases herror.symm.trans hresult
  · intro place extension value hplace hspelled hle hlong
    refine ⟨Extension.not_tooLong_of_spelledBy hspelled hle, fun result hresult => ?_⟩
    obtain ⟨entry, hentry, hreported⟩ := h.reported_of_verify hresult hplace
    have hlength := hspelled.length_eq
    rw [hentry, (Extension.reported_of_spelledBy (by omega) hspelled hle).unique hreported]

/-- A certificate with a modulus of two octets, an extension that has two octets, and one for a value of four. -/
def textCertificate (value : Octets) : Octets :=
  [0x30, 0x48, 0x30, 0x3B, 0x02, 0x01, 0x07, 0x30, 0x05, 0x06, 0x03, 0x55, 0x1D, 0x0E, 0x30, 0x13, 0x30, 0x05,
   0x06, 0x03, 0x55, 0x1D, 0x0E, 0x03, 0x0A, 0x00, 0x30, 0x07, 0x02, 0x02, 0x01, 0x05, 0x02, 0x01, 0x03, 0xA3,
   0x1A, 0x30, 0x18, 0x30, 0x09, 0x06, 0x03, 0x55, 0x1D, 0x0E, 0x04, 0x02, 0x30, 0x31, 0x30, 0x0B, 0x06, 0x03,
   0x55, 0x1D, 0x0F, 0x04, 0x04] ++ value ++ [0x30, 0x05, 0x06, 0x03, 0x55, 0x1D, 0x0E, 0x03, 0x02, 0x00, 0x30]

/-- What the octets of `textCertificate` say. -/
def textCertificateParts (value : Octets) : Certificate where
  info :=
    { serialNumber := .ofUnsigned [7]
      signatureAlgorithm := ⟨.subjectKeyIdentifier, none⟩
      publicKey :=
        ⟨⟨.subjectKeyIdentifier, none⟩, .ofOctets [0x30, 0x07, 0x02, 0x02, 0x01, 0x05, 0x02, 0x01, 0x03]⟩
      extensions := some [⟨.subjectKeyIdentifier, none, [0x30, 0x31]⟩, ⟨.keyUsage, none, value⟩] }
  signatureAlgorithm := ⟨.subjectKeyIdentifier, none⟩
  signature := .ofOctets [0x30]
  signedOctets := ⟨(textCertificate value).drop 2 |>.take 61⟩

theorem checked_textCertificate (a b c d : UInt8) :
    plainVerifier.Checked (textCertificate [a, b, c, d]) (textCertificateParts [a, b, c, d])
      ⟨.ofUnsigned [1, 5], .ofUnsigned [3]⟩ where
  decoded := Entity.decode_eq_ok_iff.2 ⟨_, by cbv, rfl⟩
  keyDecoded := by
    have hkey : Entity.decode .der [0x30, 0x07, 0x02, 0x02, 0x01, 0x05, 0x02, 0x01, 0x03] =
        .ok (⟨.ofUnsigned [1, 5], .ofUnsigned [3]⟩ : RsaPublicKey) :=
      Entity.decode_eq_ok_iff.2 ⟨_, by cbv, rfl⟩
    exact hkey
  usable := by cbv
  signed := by cbv

/-- The octets FF and 0A in four digits of either case take up twice as many octets as the modulus has. With
    another letter in the place of a digit the certificate is refused. -/
theorem extensions_reported_text :
    (∃ result, plainVerifier.verify (textCertificate [0x66, 0x46, 0x30, 0x61]) = .ok result ∧
      result.extensions[0]? = some ⟨.subjectKeyIdentifier, [0x30, 0x31]⟩ ∧
      result.extensions[1]? = some ⟨.keyUsage, [0xFF, 0x0A]⟩) ∧
    plainVerifier.verify (textCertificate [0x66, 0x46, 0x30, 0x67]) = .error .extensionTooLong := by
  have hspelled : Octets.SpelledBy [0xFF, 0x0A] [0x66, 0x46, 0x30, 0x61] :=
    .cons (by decide) (by decide) (.cons (by decide) (by decide) .nil)
  obtain ⟨-, hreported, hplaces⟩ := extensions_reported (checked_textCertificate 0x66 0x46 0x30 0x61)
  obtain ⟨hrefused, -, -⟩ := extensions_reported (checked_textCertificate 0x66 0x46 0x30 0x67)
  constructor
  · obtain ⟨hfits, hsecond⟩ := hplaces 1 _ _ rfl hspelled (by decide) (by decide)
    have hnone : ∀ extension ∈ (textCertificateParts [0x66, 0x46, 0x30, 0x61]).extensions,
        ¬ extension.TooLong 2 := by
      intro extension hmem
      obtain rfl | hmem := List.mem_cons.1 hmem
      · exact fun hlong => absurd hlong.1 (by decide)
      · obtain rfl := List.mem_singleton.1 hmem
        exact hfits
    obtain ⟨result, hresult, hall⟩ := hreported hnone
    obtain ⟨first, _, hfirst, -, hextensions⟩ := List.forall₂_cons_left_iff.1 hall
    refine ⟨result, hresult, ?_, hsecond result hresult⟩
    rw [hextensions, (Extension.reported_of_short (by decide)).unique hfirst]
    rfl
  · refine hrefused.2 ⟨_, List.mem_cons_of_mem _ List.mem_cons_self, by decide, fun htext => ?_⟩
    obtain ⟨octets, hspelled⟩ := Octets.exists_spelledBy_iff.2 htext.1
    cases Octets.ofHex?_eq_some_iff.2 hspelled

end Verifier

end Asn1
