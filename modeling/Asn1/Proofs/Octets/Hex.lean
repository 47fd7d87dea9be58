import Asn1.Octets.Hex
import Mathlib.Algebra.Group.Nat.Even

/-!
# `Asn1.Proofs.Octets.Hex` — which text is hexadecimal

Hexadecimal text has two digits for each octet it describes, and a digit may be written in either case. So an
octet string has many texts, while a text describes at most one octet string.

## Contents
- **Text.** `Octets.IsHexText`, and `Octets.exists_spelledBy_iff`: text that describes octets is text of even length
  with digits only.
-/

namespace Asn1

/-! ## Text -/

namespace Octets

/-- Text of even length that has digits only, in either case. -/
def IsHexText (text : Octets) : Prop := Even text.length ∧ ∀ octet ∈ text, ∃ number, IsHexDigit number octet

/-- A text describes one octet string only. -/
theorem SpelledBy.unique {octets other text : Octets} (h : SpelledBy octets text) (hother : SpelledBy other text) :
    other = octets :=
  Option.some.inj ((ofHex?_eq_some_iff.2 hother).symm.trans (ofHex?_eq_some_iff.2 h))

/-- A text is twice as long as the octets it describes. -/
theorem SpelledBy.length_eq {octets text : Octets} (h : SpelledBy octets text) :
    text.length = 2 * octets.length := by
  induction h with
  | nil => rfl
  | cons _ _ _ ih =>
      simp only [List.length_cons, ih]
      omega

/-- **Text can be read exactly if it has digits only, and an even number of them.** -/
theorem exists_spelledBy_iff {text : Octets} : (∃ octets, SpelledBy octets text) ↔ IsHexText text := by
  constructor
  · rintro ⟨octets, h⟩
    refine ⟨⟨octets.length, by rw [h.length_eq, Nat.two_mul]⟩, ?_⟩
    induction h with
    | nil => nofun
    | cons hhigh hlow _ ih =>
        intro octet hmem
        obtain rfl | hmem := List.mem_cons.1 hmem
        · exact ⟨_, hhigh⟩
        obtain rfl | hmem := List.mem_cons.1 hmem
        · exact ⟨_, hlow⟩
        · exact ih octet hmem
  · rintro ⟨heven, hdigits⟩
    fun_induction ofHex? text with
    | case1 => exact ⟨[], .nil⟩
    | case2 => exact absurd heven (by decide : ¬ Even 1)
    | case3 high low rest highNumber lowNumber hlow hhigh ih =>
        obtain ⟨octets, hoctets⟩ := ih (by simpa [Nat.even_add_one] using heven)
          fun octet hmem => hdigits octet (List.mem_cons_of_mem _ (List.mem_cons_of_mem _ hmem))
        have hread := ofHex?_eq_some_iff.2 hoctets
        refine ⟨UInt8.ofNat (highNumber * 16 + lowNumber) :: octets, ofHex?_eq_some_iff.1 ?_⟩
        simp only [ofHex?, hhigh, hlow, hread, Option.map_some]
    | case4 high low rest hnone =>
        obtain ⟨highNumber, hhigh⟩ := hdigits high List.mem_cons_self
        obtain ⟨lowNumber, hlow⟩ := hdigits low (List.mem_cons_of_mem _ List.mem_cons_self)
        exact absurd (hexDigit?_eq_some_iff.2 hlow) (hnone _ _ (hexDigit?_eq_some_iff.2 hhigh))

end Octets

end Asn1
