import Asn1.Proofs.Certificate.Lossless

/-!
# `Asn1.Proofs.Certificate.Coverage` — what the signed octets say

A certificate that is made from a value takes its info from the fields of the signed part, and its signed
octets from what was captured when the signed part was decoded. Fields pushed in between are not captured.
They make a difference in one case only: extensions pushed to a signed part that had none are in the info,
but the signed octets do not say so.

## Contents
- **Pushing fields.** `Sequence.pushAll`: fields that are there hide those pushed, and the capture stays.
- **Signed parts.** What pushed fields change in the info: the extensions or nothing.
- **Result.** `Certificate.decode_signedOctets_iff`.
-/

namespace Asn1

/-! ## Pushing fields -/

/-- Appends fields one after the other. -/
def Sequence.pushAll {ν : Type} (sequence : Sequence ν) (pushed : List (String × ν)) : Sequence ν :=
  pushed.foldl (fun given entry => given.push entry.1 entry.2) sequence

namespace Sequence

variable {ν : Type}

@[simp] theorem pushAll_nil (sequence : Sequence ν) : sequence.pushAll [] = sequence := rfl

@[simp] theorem pushAll_cons (sequence : Sequence ν) (name : String) (value : ν) (rest : List (String × ν)) :
    sequence.pushAll ((name, value) :: rest) = (sequence.push name value).pushAll rest := rfl

/-- A capture stays as it is, whatever is pushed. -/
@[simp] theorem raw_pushAll (sequence : Sequence ν) (pushed : List (String × ν)) :
    (sequence.pushAll pushed).raw = sequence.raw := by
  induction pushed generalizing sequence with
  | nil => rfl
  | cons entry rest ih => exact ih (sequence.push entry.1 entry.2)

/-- A field is the one that was there, or else the first one pushed. -/
@[simp] theorem get?_pushAll (sequence : Sequence ν) (pushed : List (String × ν)) (name : String) :
    (sequence.pushAll pushed).get? name = (sequence.get? name).or (pushed.lookup name) := by
  induction pushed generalizing sequence with
  | nil => rw [pushAll_nil, List.lookup_nil, Option.or_none]
  | cons entry rest ih =>
      obtain ⟨pushedName, value⟩ := entry
      rw [pushAll_cons, ih, get?_push, Option.or_assoc, List.lookup_cons]
      by_cases hname : name = pushedName
      · simp [hname]
      · simp [hname, beq_false_of_ne hname]

/-- What is made of a field that is there is not changed by fields that are pushed. -/
theorem bind_get?_pushAll {α : Type} {sequence : Sequence ν} (pushed : List (String × ν)) {name : String}
    {f : ν → Option α} {found : α} (h : (sequence.get? name).bind f = some found) :
    ((sequence.pushAll pushed).get? name).bind f = some found := by
  obtain ⟨value, hvalue, hfound⟩ := Option.bind_eq_some_iff.1 h
  rw [get?_pushAll, hvalue, Option.some_or]
  exact hfound

end Sequence

/-! ## Signed parts -/

namespace CertificateInfo

variable {decoded : Sequence Value} {pushed : List (String × Value)} {signed info : CertificateInfo}

/-- Whatever is pushed to a signed part, its info changes in the extensions only. -/
theorem eq_of_pushAll (hsigned : ofValue? (.sequence decoded) = some signed)
    (hinfo : ofValue? (.sequence (decoded.pushAll pushed)) = some info) :
    info = { signed with extensions := info.extensions } := by
  obtain ⟨hserialNumber, halgorithm, hkey, -⟩ := ofValue?_eq_some_iff.1 hsigned
  obtain ⟨hserialNumber', halgorithm', hkey', -⟩ := ofValue?_eq_some_iff.1 hinfo
  rw [Sequence.bind_get?_pushAll pushed hserialNumber] at hserialNumber'
  rw [Sequence.bind_get?_pushAll pushed halgorithm] at halgorithm'
  rw [Sequence.bind_get?_pushAll pushed hkey] at hkey'
  obtain ⟨serialNumber, algorithm, publicKey, extensions⟩ := info
  obtain rfl := Option.some.inj hserialNumber'
  obtain rfl := Option.some.inj halgorithm'
  obtain rfl := Option.some.inj hkey'
  rfl

/-- There are no extensions exactly if the field is not there. -/
theorem extensions_eq_none_iff {given : Sequence Value} (h : ofValue? (.sequence given) = some info) :
    info.extensions = none ↔ given.get? "extensions" = none := by
  obtain ⟨-, -, -, hextensions⟩ := ofValue?_eq_some_iff.1 h
  cases hthere : given.get? "extensions" with
  | none =>
      rw [hthere] at hextensions
      exact iff_of_true (Option.some.inj hextensions).symm rfl
  | some value =>
      rw [hthere] at hextensions
      obtain ⟨found, -, hfound⟩ := Option.map_eq_some_iff.1 hextensions
      rw [← hfound]
      exact iff_of_false nofun nofun

/-- The extensions change exactly if there were none and some are pushed. -/
theorem extensions_eq_iff (hsigned : ofValue? (.sequence decoded) = some signed)
    (hinfo : ofValue? (.sequence (decoded.pushAll pushed)) = some info) :
    info.extensions = signed.extensions ↔
      decoded.contains "extensions" = true ∨ ∀ entry ∈ pushed, entry.1 ≠ "extensions" := by
  cases hthere : decoded.get? "extensions" with
  | some value =>
      obtain ⟨-, -, -, hextensions⟩ := ofValue?_eq_some_iff.1 hsigned
      obtain ⟨-, -, -, hextensions'⟩ := ofValue?_eq_some_iff.1 hinfo
      rw [Sequence.get?_pushAll, hthere, Option.some_or, ← hthere, hextensions] at hextensions'
      refine iff_of_true (Option.some.inj hextensions').symm (.inl ?_)
      rw [Sequence.contains, hthere]
      rfl
  | none =>
      rw [(extensions_eq_none_iff hsigned).2 hthere, extensions_eq_none_iff hinfo, Sequence.get?_pushAll,
        Sequence.contains, hthere, Option.none_or, List.lookup_eq_none_iff]
      simp only [Option.isSome_none, Bool.false_eq_true, false_or, bne_iff_ne]
      exact forall₂_congr fun entry _ => ne_comm

end CertificateInfo

/-! ## Result -/

namespace Certificate

section Pushed

variable {mode : Mode} {data : Octets} {decoded given : Sequence Value} {pushed : List (String × Value)}
  {certificate : Certificate}

/-- The signed octets always decode, and say all that the info says but for the extensions. -/
theorem exists_decode_signedOctets
    (hdecode : Schema.certificateInfo.decode mode data = .ok (.sequence decoded))
    (htbs : given.get? "tbs" = some (.sequence (decoded.pushAll pushed)))
    (hcertificate : ofValue? (.sequence given) = some certificate) :
    ∃ signed : CertificateInfo, Entity.decode mode certificate.signedOctets.octets = .ok signed ∧
      certificate.info = { signed with extensions := certificate.info.extensions } ∧
      (certificate.info.extensions = signed.extensions ↔
        decoded.contains "extensions" = true ∨ ∀ entry ∈ pushed, entry.1 ≠ "extensions") := by
  have hderives := Schema.decode_eq_ok_iff.1 hdecode
  obtain ⟨_, ⟨⟩, hraw⟩ := Schema.raw_of_derives hderives
  -- What was decoded converts to an info, and no push touches what was captured with it.
  obtain ⟨signed, hsigned, -⟩ := CertificateInfo.represents hderives
  have hpushedRaw : (decoded.pushAll pushed).raw = some ⟨data⟩ :=
    (Sequence.raw_pushAll decoded pushed).trans hraw
  obtain ⟨hinfo, -, -, hoctets⟩ := (ofValue?_eq_some_iff_of_captured htbs hpushedRaw).1 hcertificate
  rw [hoctets]
  refine ⟨signed, Entity.decode_eq_ok_iff.2 ⟨_, hdecode, hsigned⟩, ?_, ?_⟩
  · exact CertificateInfo.eq_of_pushAll hsigned hinfo
  · exact CertificateInfo.extensions_eq_iff hsigned hinfo

/-- **The signed octets say what the info says, unless extensions were pushed.** A certificate whose signed
    part was decoded, with fields pushed to it since, has signed octets that decode to its info exactly if
    there were extensions before, or if none were pushed. -/
theorem decode_signedOctets_iff
    (hdecode : Schema.certificateInfo.decode mode data = .ok (.sequence decoded))
    (htbs : given.get? "tbs" = some (.sequence (decoded.pushAll pushed)))
    (hcertificate : ofValue? (.sequence given) = some certificate) :
    Entity.decode mode certificate.signedOctets.octets = .ok certificate.info ↔
      decoded.contains "extensions" = true ∨ ∀ entry ∈ pushed, entry.1 ≠ "extensions" := by
  obtain ⟨signed, hsigned, hinfo, hextensions⟩ := exists_decode_signedOctets hdecode htbs hcertificate
  rw [hsigned, Except.ok.injEq, ← hextensions]
  constructor
  · intro heq
    rw [heq]
  · intro heq
    rw [hinfo, heq]

end Pushed

/-- The encoding of a signed part without extensions. -/
def octetsWithoutExtensions : Octets :=
  [0x30, 0x1E, 0x02, 0x01, 0x07, 0x30, 0x05, 0x06, 0x03, 0x55, 0x1D, 0x0E, 0x30, 0x12, 0x30, 0x05, 0x06,
    0x03, 0x55, 0x1D, 0x0E, 0x03, 0x09, 0x00, 0x30, 0x06, 0x02, 0x01, 0x05, 0x02, 0x01, 0x03]

/-- What the signed part without extensions is decoded to. -/
def signedPartWithoutExtensions : Sequence Value :=
  ⟨[("serialNumber", .integer (.ofUnsigned [0x07])),
      ("signatureAlgorithm", .sequence ⟨[("algorithm", .objectIdentifier .subjectKeyIdentifier)],
        some ⟨[0x30, 0x05, 0x06, 0x03, 0x55, 0x1D, 0x0E]⟩⟩),
      ("subjectPublicKeyInfo", .sequence ⟨[("algorithm", .sequence
          ⟨[("algorithm", .objectIdentifier .subjectKeyIdentifier)],
            some ⟨[0x30, 0x05, 0x06, 0x03, 0x55, 0x1D, 0x0E]⟩⟩),
          ("subjectPublicKey", .bitString (.ofOctets [0x30, 0x06, 0x02, 0x01, 0x05, 0x02, 0x01, 0x03]))],
        some ⟨[0x30, 0x12, 0x30, 0x05, 0x06, 0x03, 0x55, 0x1D, 0x0E, 0x03, 0x09, 0x00, 0x30, 0x06,
          0x02, 0x01, 0x05, 0x02, 0x01, 0x03]⟩⟩)],
    some ⟨octetsWithoutExtensions⟩⟩

theorem decode_octetsWithoutExtensions :
    Schema.certificateInfo.decode .der octetsWithoutExtensions =
      .ok (.sequence signedPartWithoutExtensions) := by
  cbv

/-- A certificate value with the given signed part. -/
def valueOfSignedPart (signedPart : Sequence Value) : Sequence Value :=
  ⟨[("tbs", .sequence signedPart),
    ("signatureAlgorithm", .sequence ⟨[("algorithm", .objectIdentifier .subjectKeyIdentifier)], none⟩),
    ("signature", .bitString (.ofOctets [0x00]))], none⟩

/-- A second serial number is hidden by the first one: the signed octets say what the info says. -/
theorem decode_signedOctets_iff_serialNumber :
    ∃ certificate, ofValue? (.sequence (valueOfSignedPart (signedPartWithoutExtensions.pushAll
        [("serialNumber", .integer (.ofUnsigned [0x08]))]))) = some certificate ∧
      Entity.decode .der certificate.signedOctets.octets = .ok certificate.info := by
  obtain ⟨certificate, hcertificate⟩ : ∃ certificate, ofValue? (.sequence (valueOfSignedPart
      (signedPartWithoutExtensions.pushAll
        [("serialNumber", .integer (.ofUnsigned [0x08]))]))) = some certificate :=
    ⟨_, rfl⟩
  refine ⟨certificate, hcertificate, ?_⟩
  apply (decode_signedOctets_iff decode_octetsWithoutExtensions (by rfl) hcertificate).2
  exact .inr (by simp)

/-- Extensions pushed to a signed part that has none are in the info, but the signed octets are still those
    of a signed part without them. -/
theorem decode_signedOctets_ne_info :
    Schema.certificateInfo.decode .der octetsWithoutExtensions = .ok (.sequence signedPartWithoutExtensions) ∧
      ∃ certificate, ofValue? (.sequence (valueOfSignedPart (signedPartWithoutExtensions.push
          "extensions" (.sequenceOf [Extension.toValue ⟨.subjectKeyIdentifier, none, [0x2A]⟩])))) =
            some certificate ∧
        certificate.info.extensions = some [⟨.subjectKeyIdentifier, none, [0x2A]⟩] ∧
        Entity.decode .der certificate.signedOctets.octets =
          .ok { certificate.info with extensions := none } := by
  refine ⟨decode_octetsWithoutExtensions, _, rfl, rfl, ?_⟩
  exact Entity.decode_eq_ok_iff.2 ⟨_, decode_octetsWithoutExtensions, rfl⟩

end Certificate

end Asn1
