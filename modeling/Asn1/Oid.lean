import Asn1.Error
import Asn1.Octets.Base128

/-!
# `Asn1.Oid` — object identifiers

An identifier keeps its content octets, a row of sub-identifiers in base 128. Its components are the
numbers of the dotted notation; the first sub-identifier holds the first two of them.

## Contents
- **Oid.** Any octets can be held; `Oid.ofContent` only accepts shortest sub-identifiers.
- **Components.** `Oid.components` cuts the octets; `Component.value` is the number and
  `Component.toUInt64?` its native form, limited by the number of octets it is spelled with.
-/

namespace Asn1

/-- An object identifier in its encoded form. -/
structure Oid where
  octets : Octets
deriving DecidableEq

namespace Oid

instance : Inhabited Oid := ⟨⟨[]⟩⟩

/-! ## Content octets -/

/-- Whether some sub-identifier starts with a zero digit. The flag tells whether the next octet starts a
    sub-identifier. -/
def hasLeadingZero : (atStart : Bool) → Octets → Bool
  | _, [] => false
  | atStart, octet :: rest =>
    (atStart && octet == 0x80) || hasLeadingZero (!Base128.continues octet) rest

/-- Reads the content octets of an OBJECT IDENTIFIER. The last sub-identifier has to end, and none may
    start with a zero digit. -/
def ofContent (content : Octets) : Except ContentError Oid :=
  match content.getLast? with
  | none => .error .emptyOid
  | some last =>
    if Base128.continues last then .error .truncatedOid
    else if hasLeadingZero true content then .error .subidentifierLeadingZero
    else .ok ⟨content⟩

/-! ## Components -/

/-- Cuts octets into sub-identifiers. Octets at the end that do not complete one are left out. -/
def subidentifiers : Octets → List Octets
  | [] => []
  | octet :: rest =>
    if Base128.continues octet then
      match subidentifiers rest with
      | [] => []
      | next :: others => (octet :: next) :: others
    else [octet] :: subidentifiers rest

/-- Where in the identifier a component stands. -/
inductive Place where
  | first
  | second
  | later
deriving DecidableEq

/-- A component: a place, and the octets of the sub-identifier it is taken from. -/
structure Component where
  place : Place
  octets : Octets
deriving DecidableEq

/-- The components in order. The first sub-identifier is visited twice. -/
def components (oid : Oid) : List Component :=
  match subidentifiers oid.octets with
  | [] => []
  | head :: tail => ⟨.first, head⟩ :: ⟨.second, head⟩ :: tail.map (⟨.later, ·⟩)

/-- The first component that the first sub-identifier holds: 0 below 40, 1 below 80, else 2. -/
def firstOf (number : Nat) : Nat :=
  if number < 40 then 0 else if number < 80 then 1 else 2

namespace Component

/-- The number that a sub-identifier gives in the given place. -/
def partOf (place : Place) (number : Nat) : Nat :=
  match place with
  | .first => firstOf number
  | .second => number - firstOf number * 40
  | .later => number

/-- The number that the component stands for. -/
def value (component : Component) : Nat := partOf component.place (Base128.value component.octets)

/-- The most octets of a sub-identifier that is converted to a native integer. -/
def maxOctets : Nat := 9

/-- The component as a native integer. A sub-identifier of more than nine octets is not converted. -/
def toUInt64? (component : Component) : Option UInt64 :=
  if maxOctets < component.octets.length then none else some (UInt64.ofNat component.value)

end Component

end Oid

end Asn1
