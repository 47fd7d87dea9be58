import Asn1.Octets

/-!
# `Asn1.Signature.Digest` — digest algorithms and SHA-256

## Contents
- **Digest.** A function on octets and the length of its results.
- **Padding.** A message is filled up to blocks of 64 octets, the last of which ends in its bit length.
- **Compression.** Each block is expanded into 64 words, which are mixed into the state one by one.
- **SHA-256.** `Digest.sha256` is the big-endian state after all blocks.
-/

namespace Asn1

/-- A digest algorithm. -/
structure Digest where
  /-- The length of the digest in octets. -/
  outputLen : Nat
  /-- The digest of a message. -/
  digest : Octets → Octets

namespace Sha256

/-! ## Words -/

/-- Rotates a word to the right. -/
def rotateRight (word : UInt32) (count : UInt32) : UInt32 :=
  (word >>> count) ||| (word <<< (32 - count))

/-- The word that four octets spell. -/
def wordOf (octets : Octets) : UInt32 := UInt32.ofNat octets.toNat

/-- The four octets of a word. -/
def octetsOf (word : UInt32) : Octets := Octets.rightmost 4 (Octets.ofNat word.toNat)

/-! ## Padding -/

/-- The number of octets in a block. -/
def blockLen : Nat := 64

/-- The message with a marker, as few zeros as possible, and its length in bits, which together fill whole
    blocks. -/
def pad (message : Octets) : Octets :=
  message ++ 0x80 :: List.replicate ((119 - message.length % blockLen) % blockLen) 0 ++
    Octets.rightmost 8 (Octets.ofNat (message.length * 8))

/-- The sixteen words of the block with the given index. -/
def blockWords (padded : Octets) (index : Nat) : List UInt32 :=
  (List.range 16).map fun word => wordOf ((padded.drop (index * blockLen + word * 4)).take 4)

/-! ## Compression -/

/-- The state: eight words. -/
structure State where
  a : UInt32
  b : UInt32
  c : UInt32
  d : UInt32
  e : UInt32
  f : UInt32
  g : UInt32
  h : UInt32

/-- The state before the first block. -/
def initial : State :=
  ⟨0x6a09e667, 0xbb67ae85, 0x3c6ef372, 0xa54ff53a, 0x510e527f, 0x9b05688c, 0x1f83d9ab, 0x5be0cd19⟩

/-- The constants added in the rounds. -/
def roundConstants : List UInt32 :=
  [0x428a2f98, 0x71374491, 0xb5c0fbcf, 0xe9b5dba5, 0x3956c25b, 0x59f111f1, 0x923f82a4, 0xab1c5ed5,
   0xd807aa98, 0x12835b01, 0x243185be, 0x550c7dc3, 0x72be5d74, 0x80deb1fe, 0x9bdc06a7, 0xc19bf174,
   0xe49b69c1, 0xefbe4786, 0x0fc19dc6, 0x240ca1cc, 0x2de92c6f, 0x4a7484aa, 0x5cb0a9dc, 0x76f988da,
   0x983e5152, 0xa831c66d, 0xb00327c8, 0xbf597fc7, 0xc6e00bf3, 0xd5a79147, 0x06ca6351, 0x14292967,
   0x27b70a85, 0x2e1b2138, 0x4d2c6dfc, 0x53380d13, 0x650a7354, 0x766a0abb, 0x81c2c92e, 0x92722c85,
   0xa2bfe8a1, 0xa81a664b, 0xc24b8b70, 0xc76c51a3, 0xd192e819, 0xd6990624, 0xf40e3585, 0x106aa070,
   0x19a4c116, 0x1e376c08, 0x2748774c, 0x34b0bcb5, 0x391c0cb3, 0x4ed8aa4a, 0x5b9cca4f, 0x682e6ff3,
   0x748f82ee, 0x78a5636f, 0x84c87814, 0x8cc70208, 0x90befffa, 0xa4506ceb, 0xbef9a3f7, 0xc67178f2]

/-- The word that follows the last sixteen words of the schedule. -/
def nextWord (last : List UInt32) : UInt32 :=
  let early := last.getD 1 0
  let late := last.getD 14 0
  let early := rotateRight early 7 ^^^ rotateRight early 18 ^^^ (early >>> 3)
  let late := rotateRight late 17 ^^^ rotateRight late 19 ^^^ (late >>> 10)
  last.getD 0 0 + early + last.getD 9 0 + late

/-- The first `count` words of the schedule that goes on from sixteen words. -/
def schedule : (count : Nat) → List UInt32 → List UInt32
  | 0, _ => []
  | count + 1, last => last.getD 0 0 :: schedule count (last.drop 1 ++ [nextWord last])

/-- Mixes a word of the schedule into the state. -/
def round (state : State) (constant word : UInt32) : State :=
  let { a, b, c, d, e, f, g, h } := state
  let high := rotateRight e 6 ^^^ rotateRight e 11 ^^^ rotateRight e 25
  let choice := (e &&& f) ^^^ (~~~e &&& g)
  let first := h + high + choice + constant + word
  let low := rotateRight a 2 ^^^ rotateRight a 13 ^^^ rotateRight a 22
  let majority := (a &&& b) ^^^ (a &&& c) ^^^ (b &&& c)
  ⟨first + low + majority, a, b, c, d + first, e, f, g⟩

/-- Adds two states word by word. -/
def State.add (s t : State) : State :=
  ⟨s.a + t.a, s.b + t.b, s.c + t.c, s.d + t.d, s.e + t.e, s.f + t.f, s.g + t.g, s.h + t.h⟩

/-- Mixes a block of sixteen words into the state. -/
def compress (state : State) (words : List UInt32) : State :=
  state.add <|
    (roundConstants.zip (schedule 64 words)).foldl (fun state (constant, word) =>
      round state constant word) state

/-- The words of a state in order. -/
def State.words (s : State) : List UInt32 := [s.a, s.b, s.c, s.d, s.e, s.f, s.g, s.h]

/-! ## The digest -/

/-- The SHA-256 digest of a message. -/
def digest (message : Octets) : Octets :=
  let padded := pad message
  let final := (List.range (padded.length / blockLen)).foldl (fun state index =>
    compress state (blockWords padded index)) initial
  final.words.flatMap octetsOf

end Sha256

/-- The SHA-256 digest algorithm. -/
def Digest.sha256 : Digest := ⟨32, Sha256.digest⟩

end Asn1
