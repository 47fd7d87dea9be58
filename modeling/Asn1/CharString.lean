import Asn1.Octets.Hex
import Asn1.Tag

/-!
# `Asn1.CharString` — character strings and times

A string keeps its type and its content octets. The character set of the type is not checked, so a
string can always be encoded again as it was.

## Contents
- **CharType.** The thirteen string and time types, and their tags.
- **CharString.** A type with content octets; the text is their UTF-8 reading where there is one.
-/

namespace Asn1

/-- The character string and time types. -/
inductive CharType where
  | utf8String
  | numericString
  | printableString
  | teletexString
  | videotexString
  | ia5String
  | utcTime
  | generalizedTime
  | graphicString
  | visibleString
  | generalString
  | universalString
  | bmpString
deriving DecidableEq

namespace CharType

/-- All string and time types. -/
def all : List CharType :=
  [utf8String, numericString, printableString, teletexString, videotexString, ia5String, utcTime,
   generalizedTime, graphicString, visibleString, generalString, universalString, bmpString]

/-- The universal tag of the type. -/
def tag : CharType → Tag
  | utf8String => .utf8String
  | numericString => .numericString
  | printableString => .printableString
  | teletexString => .teletexString
  | videotexString => .videotexString
  | ia5String => .ia5String
  | utcTime => .utcTime
  | generalizedTime => .generalizedTime
  | graphicString => .graphicString
  | visibleString => .visibleString
  | generalString => .generalString
  | universalString => .universalString
  | bmpString => .bmpString

/-- The type with the given tag. -/
def ofTag? (tag : Tag) : Option CharType := all.find? (·.tag = tag)

/-- A tag gives the type that has it. -/
theorem ofTag?_eq_some_iff {tag : Tag} {charType : CharType} :
    ofTag? tag = some charType ↔ charType.tag = tag := by
  constructor
  · intro h
    simpa using List.find?_some h
  · rintro rfl
    cases charType <;> decide

end CharType

/-- A value of a character string or time type. -/
structure CharString where
  charType : CharType
  content : Octets
deriving DecidableEq

namespace CharString

/-- The string with the given tag, if that is the tag of a string or time type. -/
def ofTag? (tag : Tag) (content : Octets) : Option CharString :=
  (CharType.ofTag? tag).map (⟨·, content⟩)

/-- The tag of the type. -/
def tag (string : CharString) : Tag := string.charType.tag

/-- The text that the content spells in UTF-8. -/
def utf8? (string : CharString) : Option String :=
  String.fromUTF8? ⟨string.content.toArray⟩

/-- The string as text. If it is not UTF-8, every octet is written as an escape. -/
def text (string : CharString) : String :=
  match string.utf8? with
  | some text => text
  | none => String.join (string.content.map fun octet => "\\x" ++ Octets.toHex [octet])

instance : ToString CharString := ⟨text⟩

end CharString

end Asn1
