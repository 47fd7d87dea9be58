import Asn1.Octets.Base128

/-!
# `Asn1.Tag` — the tags that identify types

A tag is a number within one of four classes. Numbers have 32 bits.

## Contents
- **Classes and tags.** `TagClass`, `Tag`, and the constants for the universal tags.
- **Size.** `Tag.encodedLen` counts the identifier octets a tag takes.
- **Order.** Tags are ordered by class, then by number.
- **Text.** Universal tags of known types are written by name, all others in brackets.
-/

namespace Asn1

/-- The class of a tag. -/
inductive TagClass where
  | universal
  | application
  | contextSpecific
  | privateUse
deriving DecidableEq

namespace TagClass

/-- The number that the two top bits of the first identifier octet hold. -/
def toBits : TagClass → Nat
  | universal => 0
  | application => 1
  | contextSpecific => 2
  | privateUse => 3

/-- The class for the two top bits of an identifier octet. -/
def ofBits : Nat → TagClass
  | 0 => universal
  | 1 => application
  | 2 => contextSpecific
  | _ => privateUse

@[simp] theorem ofBits_toBits (tagClass : TagClass) : ofBits tagClass.toBits = tagClass := by
  cases tagClass <;> rfl

end TagClass

/-- The tag of a value: a class and a number within it. -/
structure Tag where
  tagClass : TagClass
  number : UInt32
deriving DecidableEq

namespace Tag

/-! ## Making tags -/

/-- A tag of the universal class. -/
def universal (number : UInt32) : Tag := ⟨.universal, number⟩

/-- A tag of the context-specific class. -/
def contextSpecific (number : UInt32) : Tag := ⟨.contextSpecific, number⟩

/-- Whether the tag is of the universal class. -/
def isUniversal (tag : Tag) : Bool := tag.tagClass = .universal

/-- Whether the tag is of the context-specific class. -/
def isContextSpecific (tag : Tag) : Bool := tag.tagClass = .contextSpecific

/-! ## Universal tags -/

def boolean : Tag := universal 1
def integer : Tag := universal 2
def bitString : Tag := universal 3
def octetString : Tag := universal 4
def null : Tag := universal 5
def objectIdentifier : Tag := universal 6
def enumerated : Tag := universal 10
def utf8String : Tag := universal 12
/-- The tag of both SEQUENCE and SEQUENCE OF. -/
def sequence : Tag := universal 16
/-- The tag of both SET and SET OF. -/
def set : Tag := universal 17
def numericString : Tag := universal 18
def printableString : Tag := universal 19
def teletexString : Tag := universal 20
def videotexString : Tag := universal 21
def ia5String : Tag := universal 22
def utcTime : Tag := universal 23
def generalizedTime : Tag := universal 24
def graphicString : Tag := universal 25
def visibleString : Tag := universal 26
def generalString : Tag := universal 27
def universalString : Tag := universal 28
def bmpString : Tag := universal 30

/-! ## Size -/

/-- The largest number that fits into the first identifier octet. -/
def maxLowNumber : Nat := 30

/-- How many identifier octets the tag takes. -/
def encodedLen (tag : Tag) : Nat :=
  if tag.number.toNat ≤ maxLowNumber then 1 else 1 + Base128.encodedLen tag.number.toNat

/-! ## Order -/

/-- Class first, then number. -/
def compare (a b : Tag) : Ordering :=
  (Ord.compare a.tagClass.toBits b.tagClass.toBits).then
    (Ord.compare a.number.toNat b.number.toNat)

instance : Ord Tag := ⟨compare⟩

/-- The tags in ascending order. -/
def sort (tags : List Tag) : List Tag := tags.mergeSort fun a b => (compare a b).isLE

/-! ## Text -/

/-- The universal tags that are written by the name of their type. -/
def names : List (Tag × String) :=
  [(boolean, "BOOLEAN"), (integer, "INTEGER"), (bitString, "BIT STRING"),
   (octetString, "OCTET STRING"), (null, "NULL"), (objectIdentifier, "OBJECT IDENTIFIER"),
   (enumerated, "ENUMERATED"), (utf8String, "UTF8String"), (sequence, "SEQUENCE"), (set, "SET"),
   (numericString, "NumericString"), (printableString, "PrintableString"),
   (teletexString, "TeletexString"), (videotexString, "VideotexString"), (ia5String, "IA5String"),
   (utcTime, "UTCTime"), (generalizedTime, "GeneralizedTime"), (graphicString, "GraphicString"),
   (visibleString, "VisibleString"), (generalString, "GeneralString"),
   (universalString, "UniversalString"), (bmpString, "BMPString")]

/-- What stands in the brackets before the number. -/
def classLabel : TagClass → String
  | .universal => "UNIVERSAL "
  | .application => "APPLICATION "
  | .contextSpecific => ""
  | .privateUse => "PRIVATE "

/-- The tag as text: the name of its type, or class and number in brackets. -/
def text (tag : Tag) : String :=
  match names.lookup tag with
  | some name => name
  | none => "[" ++ classLabel tag.tagClass ++ toString tag.number.toNat ++ "]"

instance : ToString Tag := ⟨text⟩

/-- The text of the tag, marked as that of a tag. -/
def describe (tag : Tag) : String := "Tag(" ++ tag.text ++ ")"

end Tag

end Asn1
