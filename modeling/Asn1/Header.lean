import Asn1.Header.Identifier
import Asn1.Header.Length
import Asn1.Window

/-!
# `Asn1.Header` — identifier and length octets together

Every encoded value starts with a header, which is followed by the content octets.

## Contents
- **Header.** An identifier and a length; `Header.octets` writes it, `Header.encodedLen` counts.
- **Reading.** `Header.take` reads a header from the front of a window. A definite length has to fit
  into what is left of the window. `Header.read` does this for a stretch of a buffer.
- **Elements.** `Element.take` splits a window into a value of definite length and what follows it.
-/

namespace Asn1

/-- The identifier and length octets of a value. -/
structure Header extends Identifier where
  length : Length
deriving DecidableEq

namespace Header

/-! ## Writing -/

/-- The header of a constructed value with the given number of content octets. -/
def ofConstructed (tag : Tag) (length : Nat) : Header := ⟨⟨tag, true⟩, .definite length⟩

/-- The octets of the header. -/
def octets (header : Header) : Octets := header.toIdentifier.octets ++ header.length.octets

/-- How many octets the header takes. -/
def encodedLen (header : Header) : Nat := header.tag.encodedLen + header.length.encodedLen

@[simp] theorem length_octets (header : Header) : header.octets.length = header.encodedLen := by
  simp [octets, encodedLen]

/-! ## Reading -/

/-- Checks that a length fits the octets left after the header. Only a constructed value may have an
    indefinite length. -/
def checkLength (header : Header) (available : Nat) : Except ErrorKind Unit :=
  match header.length with
  | .definite length => if available < length then .error .lengthOverflow else .ok ()
  | .indefinite =>
    if header.constructed then .ok () else .error (.content .indefinitePrimitive)

/-- Reads the header at the front of octets and returns the octets after it. -/
def takeOctets (mode : Mode) (octets : Octets) : Except ErrorKind (Header × Octets) := do
  let (identifier, rest) ← Identifier.take mode octets
  let (length, rest) ← Length.take mode rest
  let header : Header := ⟨identifier, length⟩
  header.checkLength rest.length
  return (header, rest)

/-- Reads the header at the front of a window and returns the window after it. All errors are reported
    at the start of the window. -/
def take (mode : Mode) (window : Window) : Except DecodeError (Header × Window) :=
  match takeOctets mode window.octets with
  | .ok (header, rest) => .ok (header, window.remaining rest)
  | .error kind => .error ⟨kind, window.pos⟩

/-- Reads the header at `offset` of a buffer and returns it with the number of octets it takes. At most
    `maxLen` octets from `offset` on count as part of the value. -/
def read (mode : Mode) (buffer : Octets) (offset maxLen : Nat) :
    Except DecodeError (Header × Nat) :=
  if buffer.length < offset then .error ⟨.headerTruncated, offset⟩
  else do
    let (header, rest) ← take mode ⟨offset, (buffer.drop offset).take maxLen⟩
    return (header, rest.pos - offset)

end Header

/-! ## Elements -/

/-- A complete value at the front of a window: its header, its content, and what follows it. -/
structure Element where
  header : Header
  content : Window
  rest : Window

namespace Element

/-- Splits off the value at the front of a window. Indefinite lengths are recognised, but not
    supported. -/
def take (mode : Mode) (window : Window) : Except DecodeError Element := do
  let (header, after) ← Header.take mode window
  match header.length with
  | .definite length => .ok ⟨header, after.take length, after.drop length⟩
  | .indefinite => .error (.content .indefiniteUnsupported window.pos)

end Element

end Asn1
