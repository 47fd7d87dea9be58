import Asn1.Value

/-!
# `Asn1.PrimitiveType` — the types with primitive content

Every primitive type has a universal tag, which decides how content octets are read.

## Contents
- **PrimitiveType.** The types, their tags and names; `ofTag?` finds the type of a tag.
- **Content.** `decode` reads content octets; `content?` writes those of a value of the right kind, and
  `contentLen?` counts them.
- **Natural tags.** `Value.primitiveTag?` is the tag of the type a value belongs to.
-/

namespace Asn1

/-- A type whose values are encoded in primitive form. -/
inductive PrimitiveType where
  | boolean
  | integer
  | bitString
  | octetString
  | null
  | objectIdentifier
  | enumerated
  | charString (charType : CharType)
deriving DecidableEq

namespace PrimitiveType

/-! ## Tags and names -/

/-- All primitive types. -/
def all : List PrimitiveType :=
  [boolean, integer, bitString, octetString, null, objectIdentifier, enumerated] ++
    CharType.all.map charString

/-- The universal tag of the type. -/
def tag : PrimitiveType → Tag
  | boolean => .boolean
  | integer => .integer
  | bitString => .bitString
  | octetString => .octetString
  | null => .null
  | objectIdentifier => .objectIdentifier
  | enumerated => .enumerated
  | charString charType => charType.tag

/-- The type with the given tag. -/
def ofTag? (tag : Tag) : Option PrimitiveType := all.find? (·.tag = tag)

/-- A tag gives the type that has it. -/
theorem ofTag?_eq_some_iff {tag : Tag} {type : PrimitiveType} :
    ofTag? tag = some type ↔ type.tag = tag := by
  constructor
  · intro h
    simpa using List.find?_some h
  · rintro rfl
    cases type with
    | charString charType => cases charType <;> decide
    | _ => decide

/-- The name of the type. -/
def name : PrimitiveType → String
  | boolean => "BOOLEAN"
  | integer => "INTEGER"
  | bitString => "BIT STRING"
  | octetString => "OCTET STRING"
  | null => "NULL"
  | objectIdentifier => "OBJECT IDENTIFIER"
  | enumerated => "ENUMERATED"
  | charString _ => "character string"

/-! ## Content -/

/-- Reads the content octet of a BOOLEAN. BER takes every octet but zero for true. -/
def decodeBoolean (mode : Mode) : Octets → Except ContentError Bool
  | [octet] =>
    if octet = 0x00 then .ok false
    else if octet = 0xFF ∨ mode = .ber then .ok true
    else .error .derBoolean
  | _ => .error .booleanLength

/-- Reads content octets as a value of the type. -/
def decode (type : PrimitiveType) (mode : Mode) (content : Octets) : Except ContentError Value :=
  match type with
  | boolean => (decodeBoolean mode content).map .boolean
  | integer => (Integer.ofContent mode content).map .integer
  | bitString => (BitString.ofContent mode content).map .bitString
  | octetString => .ok (.octetString content)
  | null => if content = [] then .ok .null else .error .nullContent
  | objectIdentifier => (Oid.ofContent content).map .objectIdentifier
  | enumerated => (Integer.ofContent mode content).map .integer
  | charString charType => .ok (.charString ⟨charType, content⟩)

/-- How many content octets a value takes, if it is of the right kind for the type. -/
def contentLen? (type : PrimitiveType) (value : Value) : Option Nat :=
  match type, value with
  | boolean, .boolean _ => some 1
  | integer, .integer value => some value.contentLen
  | bitString, .bitString value => some value.contentLen
  | octetString, .octetString octets => some octets.length
  | null, .null => some 0
  | objectIdentifier, .objectIdentifier value => some value.octets.length
  | enumerated, .integer value => some value.contentLen
  | charString charType, .charString value =>
    if value.charType = charType then some value.content.length else none
  | _, _ => none

/-- The content octets of a value, if it is of the right kind for the type. -/
def content? (type : PrimitiveType) (value : Value) : Option Octets :=
  match type, value with
  | boolean, .boolean value => some [if value then 0xFF else 0x00]
  | integer, .integer value => some value.content
  | bitString, .bitString value => some value.content
  | octetString, .octetString octets => some octets
  | null, .null => some []
  | objectIdentifier, .objectIdentifier value => some value.octets
  | enumerated, .integer value => some value.content
  | charString charType, .charString value =>
    if value.charType = charType then some value.content else none
  | _, _ => none

/-- The count is that of the octets written. -/
theorem contentLen?_eq (type : PrimitiveType) (value : Value) :
    type.contentLen? value = (type.content? value).map List.length := by
  fun_cases content? type value <;> simp_all [contentLen?]

end PrimitiveType

/-- The tag of the primitive type that a value belongs to. -/
def Value.primitiveTag? : Value → Option Tag
  | boolean _ => some .boolean
  | null => some .null
  | integer _ => some .integer
  | objectIdentifier _ => some .objectIdentifier
  | bitString _ => some .bitString
  | octetString _ => some .octetString
  | charString value => some value.tag
  | _ => none

end Asn1
