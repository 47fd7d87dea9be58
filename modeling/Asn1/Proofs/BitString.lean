import Asn1.Proofs.PrimitiveType
import Mathlib.Data.Nat.Bitwise

/-!
# `Asn1.Proofs.BitString` — bit strings keep their bits

The bits of a bit string are those of the number that its octets spell, counted from the top. However a bit
string is made, looking a bit up stays inside the octets, unused bits are never seen, and the content octets are
those that it was read from.

## Contents
- **Sources.** `BitString.Source`: what bit strings are made from.
- **Bits.** `Octets.bitAt` counts bits from the top of a number; `BitString.bit_eq_bitAt` is for a single look-up,
  and `BitString.bitMasked?_eq` for one with an index that has to be in range and a mask.
- **Unused bits.** `BitString.hasClearUnused_iff`: what the strict mode asks for, in terms of all bits.
- **Result.** `BitString.bits_kept`.
-/

namespace Asn1

/-! ## Sources -/

namespace BitString

/-- What a bit string is made from. -/
inductive Source where
  /-- Octets, and how many bits of the last one are unused. -/
  | counted (unused : UInt8) (octets : Octets)
  /-- Octets of which all bits are used. -/
  | whole (octets : Octets)
  /-- Content octets to be read. -/
  | content (mode : Mode) (octets : Octets)

namespace Source

/-- The bit string made from a source. It may be refused. -/
def bitString : Source → Except ContentError BitString
  | counted unused octets => ofUnused unused.toNat octets
  | whole octets => .ok (ofOctets octets)
  | content mode octets => ofContent mode octets

/-- How many bits a source says are unused. -/
def unused : Source → Nat
  | counted unused _ => unused.toNat
  | whole _ => 0
  | content _ octets => (octets.headD 0).toNat

/-- The octets with the bits of a source. -/
def octets : Source → Octets
  | counted _ octets => octets
  | whole octets => octets
  | content _ octets => octets.tail

/-- **A bit string is made from all that its source has**, and only if the source leaves at most seven bits
    unused. Without octets for them, unused bits are kept in the lenient mode only. -/
theorem eq_of_bitString {source : Source} {made : BitString} (h : source.bitString = .ok made) :
    source.unused ≤ 7 ∧ made.unused.val = source.unused ∧ made.octets = source.octets ∧
      (source.octets = [] → source.unused ≠ 0 → ∃ octets, source = content .ber octets) := by
  cases source with
  | counted count octets =>
      simp only [bitString, ofUnused] at h
      split at h
      · rename_i hcount
        split at h
        · cases h
        · rename_i hthere
          obtain rfl := Except.ok.inj h
          exact ⟨Nat.le_of_lt_succ hcount, rfl, rfl, fun hnil hne => absurd ⟨hne, hnil⟩ hthere⟩
      · cases h
  | whole octets =>
      obtain rfl := Except.ok.inj h
      exact ⟨Nat.zero_le _, rfl, rfl, fun _ hne => absurd rfl hne⟩
  | content mode octets =>
      obtain ⟨rfl, hclear⟩ := ofContent_eq_ok_iff.1 h
      have hcount : (UInt8.ofNat made.unused).toNat = made.unused := by
        have := made.unused.isLt
        rw [UInt8.toNat_ofNat']
        omega
      refine ⟨?_, hcount.symm, rfl, fun hnil hne => ?_⟩
      · show (UInt8.ofNat made.unused).toNat ≤ 7
        omega
      · cases mode with
        | ber => exact ⟨_, rfl⟩
        | der => exact absurd (hcount.trans ((hclear rfl).2 hnil)) hne

/-- All bits of the octets are used but those that the source says are not, unless there are no octets for
    these. -/
theorem bitLen_of_bitString {source : Source} {made : BitString} (h : source.bitString = .ok made) :
    made.bitLen + source.unused = 8 * made.octets.length ∨
      made.octets = [] ∧ source.unused ≠ 0 ∧ made.bitLen = 0 ∧ ∃ octets, source = content .ber octets := by
  obtain ⟨hmost, hunused, hoctets, hkept⟩ := eq_of_bitString h
  rw [bitLen, hunused, hoctets]
  by_cases hnone : source.octets = [] ∧ source.unused ≠ 0
  · obtain ⟨hnil, hne⟩ := hnone
    rw [hnil]
    exact .inr ⟨rfl, hne, Nat.zero_sub _, hkept hnil hne⟩
  · -- an octet has room for all bits that may be unused
    have hroom : source.unused ≤ source.octets.length * 8 := by
      by_cases hnil : source.octets = []
      · have hzero : source.unused = 0 := Classical.not_not.1 fun hne => hnone ⟨hnil, hne⟩
        omega
      · have := List.length_pos_iff.2 hnil
        omega
    exact .inl (by omega)

end Source

end BitString

/-! ## Bits -/

namespace Octets

/-- The bit at an index that is counted from the top bit of the first octet: the number that the octets spell
    has eight bits for each octet, and the last index is that of the least one. -/
def bitAt (octets : Octets) (index : Nat) : Bool :=
  octets.toNat.testBit (8 * octets.length - 1 - index)

/-- Each octet has eight of the bits. -/
theorem bitAt_eq {octets : Octets} {octet : UInt8} {index : Nat} (h : octets[index / 8]? = some octet) :
    octets.bitAt index = BitString.octetBit octet (index % 8) := by
  unfold bitAt BitString.octetBit
  induction octets generalizing index with
  | nil => cases h
  | cons first rest ih =>
      have hwidth : 256 ^ rest.length = 2 ^ (8 * rest.length) := by
        rw [pow_mul]
        rfl
      have hrest : toNat rest < 2 ^ (8 * rest.length) := hwidth ▸ toNat_lt rest
      rw [toNat_cons, hwidth, Nat.mul_comm, Nat.testBit_two_pow_mul_add _ hrest, List.length_cons]
      by_cases hfirst : index < 8
      · -- the index is in the first octet, above all bits of the others
        rw [Nat.div_eq_of_lt hfirst, List.getElem?_cons_zero, Option.some.injEq] at h
        rw [if_neg (by omega), h, Nat.mod_eq_of_lt hfirst]
        congr 1
        omega
      · obtain ⟨later, rfl⟩ := Nat.exists_eq_add_of_le' (Nat.not_lt.1 hfirst)
        rw [Nat.add_div_right _ (by decide), List.getElem?_cons_succ] at h
        have hlater : later / 8 < rest.length := (List.getElem?_eq_some_iff.1 h).1
        rw [if_pos (by omega), Nat.add_mod_right, ← ih h]
        congr 1
        omega

end Octets

namespace BitString

variable {bits : BitString} {index : Nat}

/-- A bit of the string is in one of the octets. -/
theorem div_lt_length (h : index < bits.bitLen) : index / 8 < bits.octets.length := by
  rw [bitLen] at h
  omega

/-- **A bit that is looked up is that of the octets.** -/
theorem bit_eq_bitAt (h : index < bits.bitLen) : bits.bit index = bits.octets.bitAt index := by
  have hoctet := List.getElem?_eq_getElem (div_lt_length h)
  rw [bit, if_pos h, hoctet]
  exact (Octets.bitAt_eq hoctet).symm

/-- Past the end all bits are clear. -/
theorem bit_eq_false (h : bits.bitLen ≤ index) : bits.bit index = false :=
  if_neg (Nat.not_lt.2 h)

/-- Looks a bit up by the index of its octet, which has to be there, and a mask for its place in it. -/
def bitMasked? (bits : BitString) (index : Nat) : Option Bool :=
  if bits.bitLen ≤ index then some false
  else bits.octets[index >>> 3]?.map fun octet => octet &&& (0x80 >>> UInt8.ofNat (index &&& 7)) != 0

/-- A mask of one bit leaves that bit. -/
theorem and_mask_ne_zero (octet : UInt8) {place : Nat} (h : place < 8) :
    (octet &&& (0x80 >>> UInt8.ofNat place) != 0) = octetBit octet place := by
  have hmask : ((0x80 : UInt8) >>> UInt8.ofNat place).toNat = 2 ^ (7 - place) := by
    revert place
    decide
  have hleft : (octet &&& (0x80 >>> UInt8.ofNat place)).toNat =
      (octet.toNat.testBit (7 - place)).toNat * 2 ^ (7 - place) := by
    rw [UInt8.toNat_and, hmask, Nat.and_two_pow]
  rw [octetBit]
  cases hbit : octet.toNat.testBit (7 - place) with
  | false =>
      rw [hbit, Bool.toNat_false, Nat.zero_mul] at hleft
      exact bne_eq_false_iff_eq.2 (UInt8.toNat_inj.1 hleft)
  | true =>
      rw [hbit, Bool.toNat_true, Nat.one_mul] at hleft
      refine bne_iff_ne.2 fun hzero => ?_
      rw [hzero] at hleft
      exact absurd hleft.symm (Nat.ne_of_gt (Nat.two_pow_pos _))

theorem bitMasked?_eq (bits : BitString) (index : Nat) : bits.bitMasked? index = some (bits.bit index) := by
  have hshift : index >>> 3 = index / 8 := Nat.shiftRight_eq_div_pow index 3
  have hplace : index &&& 7 = index % 8 := Nat.and_two_pow_sub_one_eq_mod index 3
  rw [bitMasked?, hshift, hplace]
  by_cases h : bits.bitLen ≤ index
  · rw [if_pos h, bit_eq_false h]
  · have hindex := Nat.not_le.1 h
    rw [if_neg h, bit, if_pos hindex, List.getElem?_eq_getElem (div_lt_length hindex), Option.map_some]
    exact congrArg some (and_mask_ne_zero _ (Nat.mod_lt _ (by decide)))

/-! ## Unused bits -/

/-- The last bits of a number are those of the last octet. -/
theorem testBit_toNat_concat (front : Octets) (last : UInt8) {place : Nat} (h : place < 8) :
    (Octets.toNat (front ++ [last])).testBit place = last.toNat.testBit place := by
  rw [Octets.toNat_concat, Nat.mul_comm]
  show (2 ^ 8 * front.toNat + last.toNat).testBit place = _
  rw [Nat.testBit_two_pow_mul_add _ last.toNat_lt, if_pos h]

/-- **Unused bits are clear exactly if all bits of the octets from the end of the string on are**, and there are
    octets for them. -/
theorem hasClearUnused_iff :
    bits.HasClearUnused ↔
      (∀ index, bits.bitLen ≤ index → index < 8 * bits.octets.length → bits.octets.bitAt index = false) ∧
        (bits.octets = [] → bits.unused.val = 0) := by
  obtain ⟨unused, octets⟩ := bits
  refine and_congr_left fun _ => ?_
  simp only [bitLen, Octets.bitAt]
  induction octets using List.reverseRecOn with
  | nil => exact iff_of_true nofun nofun
  | append_singleton front last _ =>
      have hunused := unused.isLt
      rw [List.getLast?_concat, List.length_append, List.length_singleton]
      constructor
      · intro hclear index hend hlast
        rw [testBit_toNat_concat front last (by omega)]
        exact hclear last rfl _ (by omega)
      · rintro hclear _ ⟨⟩ place hplace
        have hbit := hclear (8 * (front.length + 1) - 1 - place) (by omega) (by omega)
        rwa [show 8 * (front.length + 1) - 1 - (8 * (front.length + 1) - 1 - place) = place by omega,
          testBit_toNat_concat front last (by omega)] at hbit

/-- **The strict mode reads what the lenient one does if unused bits are clear** and there are octets for them. -/
theorem ofContent_der_iff {content : Octets} :
    ofContent .der content = .ok bits ↔
      ofContent .ber content = .ok bits ∧
        (∀ index, bits.bitLen ≤ index → index < 8 * bits.octets.length → bits.octets.bitAt index = false) ∧
        (bits.octets = [] → bits.unused.val = 0) := by
  rw [ofContent_eq_ok_iff, ofContent_eq_ok_iff, ← hasClearUnused_iff]
  constructor
  · rintro ⟨rfl, hclear⟩
    exact ⟨⟨rfl, nofun⟩, hclear rfl⟩
  · rintro ⟨⟨rfl, -⟩, hclear⟩
    exact ⟨rfl, fun _ => hclear⟩

/-! ## Result -/

/-- **Bit strings keep their bits.** Whatever a bit string is made from, it has at most seven unused bits, those
    that its source says, and its other bits are those of the octets, counted from the top. No look-up goes past
    the octets, and past the end of the string all bits are clear. There are eight bits for each octet, less the
    unused ones; where there are unused bits and no octets, which the lenient mode reads, there are none. The
    content octets are those that were read, in both modes, and the strict mode reads what the lenient one does
    if the bits past the end are clear and there are octets for unused ones. -/
theorem bits_kept :
    (∀ (source : Source) (made : BitString), source.bitString = .ok made →
      source.unused ≤ 7 ∧ made.unused.val = source.unused ∧ made.octets = source.octets ∧
      (∀ index, made.bitMasked? index = some (made.bit index)) ∧
      (∀ index, made.bitLen ≤ index → made.bit index = false) ∧
      (∀ index, index < made.bitLen → made.bit index = made.octets.bitAt index) ∧
      (made.bitLen + source.unused = 8 * made.octets.length ∨
        made.octets = [] ∧ source.unused ≠ 0 ∧ made.bitLen = 0 ∧ ∃ octets, source = .content .ber octets) ∧
      made.content.length = made.contentLen) ∧
    (∀ mode content bits, ofContent mode content = .ok bits → bits.content = content) ∧
    ∀ content bits, ofContent .der content = .ok bits ↔
      ofContent .ber content = .ok bits ∧
        (∀ index, bits.bitLen ≤ index → index < 8 * bits.octets.length → bits.octets.bitAt index = false) ∧
        (bits.octets = [] → bits.unused.val = 0) := by
  refine ⟨?_, ?_, ?_⟩
  · intro source made h
    obtain ⟨hmost, hunused, hoctets, -⟩ := Source.eq_of_bitString h
    exact ⟨hmost, hunused, hoctets, bitMasked?_eq made, fun _ => bit_eq_false, fun _ => bit_eq_bitAt,
      Source.bitLen_of_bitString h, length_content made⟩
  · intro mode content bits h
    exact (ofContent_eq_ok_iff.1 h).1.symm
  · intro content bits
    exact ofContent_der_iff

/-- Four bits of an octet of which the last unused one is set: the string does not have it, the content keeps it,
    and the strict mode does not read it. Three unused bits without an octet make an empty string. -/
theorem bits_kept_unused :
    (Source.content .ber [0x04, 0xF1]).bitString = .ok ⟨4, [0xF1]⟩ ∧
      bitMasked? ⟨4, [0xF1]⟩ 3 = some true ∧ bit ⟨4, [0xF1]⟩ 7 = false ∧ Octets.bitAt [0xF1] 7 = true ∧
      content ⟨4, [0xF1]⟩ = [0x04, 0xF1] ∧ ofContent .der [0x04, 0xF1] ≠ .ok ⟨4, [0xF1]⟩ ∧
      (Source.content .ber [0x03]).bitString = .ok ⟨3, []⟩ ∧ bitLen ⟨3, []⟩ = 0 := by
  obtain ⟨hsource, hcontent, hder⟩ := bits_kept
  have hread : (Source.content .ber [0x04, 0xF1]).bitString = .ok ⟨4, [0xF1]⟩ := rfl
  have hempty : (Source.content .ber [0x03]).bitString = .ok ⟨3, []⟩ := rfl
  have hset : Octets.bitAt [0xF1] 7 = true := by decide
  obtain ⟨-, -, -, hmasked, hpast, -, -, -⟩ := hsource _ _ hread
  obtain ⟨-, -, -, -, -, -, hlength, -⟩ := hsource _ _ hempty
  refine ⟨hread, hmasked 3, hpast 7 (by decide), hset, hcontent .ber [0x04, 0xF1] _ hread, ?_, hempty, ?_⟩
  · intro h
    have hclear := ((hder _ _).1 h).2.1 7 (by decide) (by decide)
    cases hset.symm.trans hclear
  · obtain h | ⟨-, -, h, -⟩ := hlength
    · exact absurd h (by decide)
    · exact h

end BitString

end Asn1
