import Asn1.Certificate.Schema
import Asn1.Proofs.Header.Truncated
import Asn1.Proofs.Schema.Decode

/-!
# `Asn1.Proofs.Schema.PrefixFree` — neither less nor more decodes

The data that a value is decoded from are refused when they are cut anywhere, and when anything follows them.
The outer header alone decides: it is read before everything else, and it says where the value ends. So no
error from inside the value is ever reported in place of the outer one.

## Contents
- **Cut.** `Schema.decode_of_takeOctets_eq_error`: what is wrong with the outer header is what is reported.
- **Result.** `Schema.decode_prefix_free`.
-/

namespace Asn1.Schema

/-- Decoding fails with the error of the outer header, at the start of the data. -/
theorem decode_of_takeOctets_eq_error {schema : Schema} {mode : Mode} {data : Octets} {kind : ErrorKind}
    (h : Header.takeOctets mode data = .error kind) : schema.decode mode data = .error ⟨kind, 0⟩ := by
  have hheader : Header.take mode (.whole data) = .error ⟨kind, 0⟩ := by
    rw [Header.take, Window.whole, h]
  rw [decode, read, Element.take, hheader]
  rfl

/-- Decoding fails at the end of a value that is followed by something. -/
theorem decode_append {schema : Schema} {mode : Mode} {data more : Octets} {value : Value}
    (h : schema.decode mode data = .ok value) (hmore : more ≠ []) :
    schema.decode mode (data ++ more) = .error ⟨.trailingData, data.length⟩ := by
  have hread : schema.read mode schema.name none (.whole (data ++ more)) =
      .ok (value, ⟨data.length, more⟩) := by
    apply (schema.read_recognizes mode schema.name none _ _ _).2
    exact ⟨data, decode_eq_ok_iff.1 h, rfl, (Nat.zero_add _).symm⟩
  have hleft : ¬ (⟨data.length, more⟩ : Window).isEmpty = true := mt Window.isEmpty_iff.1 hmore
  rw [decode, hread]
  show (if _ then _ else _) = _
  rw [if_neg hleft]

/-- **Data that decode are prefix-free, with exact errors.** Cut anywhere, they are refused at the start: for
    a truncated header where the cut is inside the outer header, for its length where it is after it. Followed
    by anything, they are refused at their end. -/
theorem decode_prefix_free {schema : Schema} {mode : Mode} {data : Octets} {value : Value}
    (h : schema.decode mode data = .ok value) :
    ∃ header headerLen, Header.read mode data 0 data.length = .ok (header, headerLen) ∧
      (∀ short rest, data = short ++ rest → rest ≠ [] →
        schema.decode mode short =
          .error ⟨if short.length < headerLen then .headerTruncated else .lengthOverflow, 0⟩) ∧
      ∀ more, more ≠ [] →
        schema.decode mode (data ++ more) = .error ⟨.trailingData, data.length⟩ := by
  obtain ⟨identifier, content, hframe, -⟩ := (decode_eq_ok_iff.1 h).startsWith
  obtain ⟨head, hdata, hread⟩ := Framed.iff_read.1 hframe
  refine ⟨_, head.length, hread, ?_, fun more => decode_append h⟩
  intro short rest hcut hrest
  have hlength : data.length - content.length = head.length := by
    rw [hdata, List.length_append, Nat.add_sub_cancel]
  apply decode_of_takeOctets_eq_error
  rw [hframe.takeOctets_of_truncated hcut hrest, hlength]

/-- A key whose length takes an octet more than it needs: cut inside its header, cut right after that, and
    followed by an octet. -/
theorem decode_prefix_free_longLength :
    rsaPublicKey.decode .ber [0x30, 0x81, 0x06, 0x02, 0x01, 0x05, 0x02, 0x01, 0x03] =
        .ok (.sequence ⟨[("modulus", .integer ⟨false, [0x05], by decide, by decide⟩),
            ("publicExponent", .integer ⟨false, [0x03], by decide, by decide⟩)],
          some ⟨[0x30, 0x81, 0x06, 0x02, 0x01, 0x05, 0x02, 0x01, 0x03]⟩⟩) ∧
      rsaPublicKey.decode .ber [0x30, 0x81] = .error ⟨.headerTruncated, 0⟩ ∧
      rsaPublicKey.decode .ber [0x30, 0x81, 0x06] = .error ⟨.lengthOverflow, 0⟩ ∧
      rsaPublicKey.decode .ber [0x30, 0x81, 0x06, 0x02, 0x01, 0x05, 0x02, 0x01, 0x03, 0x00] =
        .error ⟨.trailingData, 9⟩ := by
  have hdecode : rsaPublicKey.decode .ber [0x30, 0x81, 0x06, 0x02, 0x01, 0x05, 0x02, 0x01, 0x03] =
      .ok (.sequence ⟨[("modulus", .integer ⟨false, [0x05], by decide, by decide⟩),
          ("publicExponent", .integer ⟨false, [0x03], by decide, by decide⟩)],
        some ⟨[0x30, 0x81, 0x06, 0x02, 0x01, 0x05, 0x02, 0x01, 0x03]⟩⟩) := by
    cbv
  obtain ⟨header, headerLen, hread, hcut, hmore⟩ := decode_prefix_free hdecode
  have hheader : Header.read .ber [0x30, 0x81, 0x06, 0x02, 0x01, 0x05, 0x02, 0x01, 0x03] 0 9 =
      .ok (.ofConstructed .sequence 6, 3) := by
    cbv
  obtain ⟨rfl, rfl⟩ := Prod.mk.inj (Except.ok.inj (hheader.symm.trans hread))
  exact ⟨hdecode, hcut [0x30, 0x81] [0x06, 0x02, 0x01, 0x05, 0x02, 0x01, 0x03] rfl (List.cons_ne_nil _ _),
    hcut [0x30, 0x81, 0x06] [0x02, 0x01, 0x05, 0x02, 0x01, 0x03] rfl (List.cons_ne_nil _ _),
    hmore [0x00] (List.cons_ne_nil _ _)⟩

end Asn1.Schema
