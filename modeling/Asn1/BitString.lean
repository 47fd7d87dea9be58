import Asn1.Error
import Asn1.Mode
import Asn1.Octets

/-!
# `Asn1.BitString` — strings of bits

The bits fill octets from the top bit of the first one on; up to seven bits of the last octet may be
unused. The content octets start with one that counts the unused bits.

## Contents
- **BitString.** Octets and a count of unused bits, at most seven by type.
- **Bits.** `bitLen` counts the bits, `bit` looks one up.
- **Content octets.** `ofContent` and `content`. BER keeps a count of unused bits even where there is no
  octet that could hold them, and keeps unused bits that are set.
-/

namespace Asn1

/-- A string of bits, kept as octets. -/
structure BitString where
  /-- How many bits of the last octet are unused. -/
  unused : Fin 8
  /-- The octets, with the first bit in the top bit of the first one. -/
  octets : Octets
deriving DecidableEq

namespace BitString

/-! ## Making bit strings -/

/-- The bit string with the given number of unused bits. It needs octets to keep them in. -/
def ofUnused (unused : Nat) (octets : Octets) : Except ContentError BitString :=
  if h : unused < 8 then
    if unused ≠ 0 ∧ octets = [] then .error .unusedBitsWithoutOctets else .ok ⟨⟨unused, h⟩, octets⟩
  else .error .unusedBitsCount

/-- The bit string that uses all bits of the octets. -/
def ofOctets (octets : Octets) : BitString := ⟨0, octets⟩

/-! ## Bits -/

/-- The number of bits. -/
def bitLen (bits : BitString) : Nat := bits.octets.length * 8 - bits.unused

/-- The bit of an octet at the given index, counted from the top bit. -/
def octetBit (octet : UInt8) (index : Nat) : Bool := octet.toNat.testBit (7 - index)

/-- The bit at the given index. All bits past the end are clear. -/
def bit (bits : BitString) (index : Nat) : Bool :=
  if index < bits.bitLen then
    match bits.octets[index / 8]? with
    | some octet => octetBit octet (index % 8)
    | none => false
  else false

/-- Whether the unused bits of the last octet are all clear. -/
def unusedClear (bits : BitString) : Bool :=
  match bits.octets.getLast? with
  | some last => last.toNat % (1 <<< bits.unused.val) = 0
  | none => true

/-! ## Content octets -/

/-- Reads the content octets of a primitive BIT STRING. DER requires unused bits to be clear, and to be
    in an octet. -/
def ofContent (mode : Mode) : Octets → Except ContentError BitString
  | [] => .error .emptyBitString
  | unused :: octets =>
    if h : unused.toNat < 8 then
      let bits : BitString := ⟨⟨unused.toNat, h⟩, octets⟩
      if mode.isDer ∧ octets = [] ∧ unused ≠ 0 then .error .unusedBitsWithoutOctets
      else if mode.isDer ∧ ¬ bits.unusedClear then .error .unusedBitsSet
      else .ok bits
    else .error .unusedBitsCount

/-- How many content octets the bit string takes. -/
def contentLen (bits : BitString) : Nat := bits.octets.length + 1

/-- The content octets: the number of unused bits, then the octets. -/
def content (bits : BitString) : Octets := UInt8.ofNat bits.unused :: bits.octets

@[simp] theorem length_content (bits : BitString) : bits.content.length = bits.contentLen := rfl

end BitString

end Asn1
