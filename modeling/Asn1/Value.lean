import Asn1.BitString
import Asn1.Captured
import Asn1.CharString
import Asn1.Integer
import Asn1.Oid.Known

/-!
# `Asn1.Value` — decoded values

A value only says what kind of data it holds. How it is tagged, and which fields a sequence may have, is
up to the schema used with it.

## Contents
- **Sequence.** Named fields in order, and the encoding they were decoded from, if any.
- **Value.** One constructor per kind of data, with an accessor for each.
- **Equality.** `==` compares values and passes over the captured encodings of sequences.
- **Text.** `Value.describe` and `Sequence.describe`.
-/

namespace Asn1

/-! ## The types -/

/-- A value whose type was not known when it was decoded. -/
structure AnyValue where
  tag : Tag
  constructed : Bool
  content : Octets
deriving DecidableEq

/-- The fields of a SEQUENCE, each with its name. Absent optional fields are simply missing. -/
structure Sequence (ν : Type) where
  /-- The fields in the order of their encodings. -/
  fields : List (String × ν) := []
  /-- The complete encoding that the sequence was decoded from. -/
  raw : Option Captured := none

/-- A value of any supported kind. -/
inductive Value where
  | boolean (value : Bool)
  | null
  /-- An INTEGER or ENUMERATED. -/
  | integer (value : Integer)
  | objectIdentifier (value : Oid)
  | bitString (value : BitString)
  | octetString (octets : Octets)
  /-- A value of a character string or time type. -/
  | charString (value : CharString)
  /-- A value of a type not known when decoding. -/
  | any (value : AnyValue)
  | sequence (value : Sequence Value)
  | setOf (items : List Value)
  | sequenceOf (items : List Value)

instance : Inhabited Value := ⟨.null⟩

namespace Sequence

/-! ## Fields of a sequence -/

/-- The sequence without fields. -/
def empty {ν : Type} : Sequence ν := {}

/-- Appends a field. A captured encoding is left as it is. -/
def push {ν : Type} (sequence : Sequence ν) (name : String) (value : ν) : Sequence ν :=
  { sequence with fields := sequence.fields ++ [(name, value)] }

/-- The value of the first field with the given name. -/
def get? {ν : Type} (sequence : Sequence ν) (name : String) : Option ν :=
  sequence.fields.lookup name

@[simp] theorem get?_empty {ν : Type} (name : String) : (empty : Sequence ν).get? name = none := rfl

/-- A field that is pushed is found unless there was one of its name before. -/
@[simp] theorem get?_push {ν : Type} (sequence : Sequence ν) (name pushed : String) (value : ν) :
    (sequence.push pushed value).get? name =
      (sequence.get? name).or (if name = pushed then some value else none) := by
  simp only [get?, push, List.lookup_append, List.lookup_cons, List.lookup_nil]
  by_cases h : name = pushed
  · simp [h]
  · simp [h, beq_false_of_ne h]

/-- Whether there is a field with the given name. -/
def contains {ν : Type} (sequence : Sequence ν) (name : String) : Bool :=
  (sequence.get? name).isSome

/-- The names of the fields in order. -/
def names {ν : Type} (sequence : Sequence ν) : List String := sequence.fields.map (·.1)

@[simp] theorem names_push {ν : Type} (sequence : Sequence ν) (name : String) (value : ν) :
    (sequence.push name value).names = sequence.names ++ [name] := by
  simp [names, push]

/-- The number of fields. -/
def length {ν : Type} (sequence : Sequence ν) : Nat := sequence.fields.length

/-- Whether there are no fields. -/
def isEmpty {ν : Type} (sequence : Sequence ν) : Bool := sequence.fields.isEmpty

/-- Sets the encoding that the sequence was decoded from. -/
def capture {ν : Type} (sequence : Sequence ν) (octets : Octets) : Sequence ν :=
  { sequence with raw := some ⟨octets⟩ }

@[simp] theorem get?_capture {ν : Type} (sequence : Sequence ν) (octets : Octets) (name : String) :
    (sequence.capture octets).get? name = sequence.get? name := rfl

end Sequence

namespace Value

/-! ## Kinds of values -/

/-- The name of the kind of data. -/
def kind : Value → String
  | boolean _ => "BOOLEAN"
  | null => "NULL"
  | integer _ => "INTEGER"
  | objectIdentifier _ => "OBJECT IDENTIFIER"
  | bitString _ => "BIT STRING"
  | octetString _ => "OCTET STRING"
  | charString _ => "character string"
  | any _ => "ANY"
  | sequence _ => "SEQUENCE"
  | setOf _ => "SET OF"
  | sequenceOf _ => "SEQUENCE OF"

/-- The truth value of a BOOLEAN. -/
def asBoolean? : Value → Option Bool
  | boolean value => some value
  | _ => none

/-- The number of an INTEGER or ENUMERATED. -/
def asInteger? : Value → Option Integer
  | integer value => some value
  | _ => none

/-- The identifier of an OBJECT IDENTIFIER. -/
def asOid? : Value → Option Oid
  | objectIdentifier value => some value
  | _ => none

/-- The bits of a BIT STRING. -/
def asBitString? : Value → Option BitString
  | bitString value => some value
  | _ => none

/-- The octets of an OCTET STRING. -/
def asOctetString? : Value → Option Octets
  | octetString octets => some octets
  | _ => none

/-- The fields of a SEQUENCE. -/
def asSequence? : Value → Option (Sequence Value)
  | sequence value => some value
  | _ => none

/-- The items of a SET OF or SEQUENCE OF. -/
def asItems? : Value → Option (List Value)
  | setOf items => some items
  | sequenceOf items => some items
  | _ => none

/-! ## Equality -/

mutual

/-- Whether two values hold the same data, whatever encodings were captured. -/
def same : Value → Value → Bool
  | boolean a, boolean b => a == b
  | null, null => true
  | integer a, integer b => a == b
  | objectIdentifier a, objectIdentifier b => a == b
  | bitString a, bitString b => a == b
  | octetString a, octetString b => a == b
  | charString a, charString b => a == b
  | any a, any b => a == b
  | sequence ⟨a, _⟩, sequence ⟨b, _⟩ => sameFields a b
  | setOf a, setOf b => sameItems a b
  | sequenceOf a, sequenceOf b => sameItems a b
  | _, _ => false

/-- Whether two lists of fields agree in names and data. -/
def sameFields : List (String × Value) → List (String × Value) → Bool
  | [], [] => true
  | (m, a) :: as, (n, b) :: bs => m == n && same a b && sameFields as bs
  | _, _ => false

/-- Whether two lists of items agree in data. -/
def sameItems : List Value → List Value → Bool
  | [], [] => true
  | a :: as, b :: bs => same a b && sameItems as bs
  | _, _ => false

end

instance : BEq Value := ⟨same⟩

/-! ## Text -/

mutual

/-- The value as text, with the name of its kind. -/
def describe : Value → String
  | boolean value => "Boolean(" ++ toString value ++ ")"
  | null => "Null"
  | integer value => "Integer(" ++ value.describe ++ ")"
  | objectIdentifier value => "Oid(" ++ value.describe ++ ")"
  | bitString value =>
    "BitString(" ++ value.octets.toHex ++ ", " ++ toString value.unused.val ++ " unused)"
  | octetString octets => "OctetString(" ++ octets.toHex ++ ")"
  | charString value => "CharString(" ++ value.tag.text ++ " " ++ value.text ++ ")"
  | any value => "Any(" ++ value.tag.text ++ " " ++ value.content.toHex ++ ")"
  | sequence ⟨fields, _⟩ =>
    "Sequence(\x7b" ++ String.intercalate ", " (describeFields fields) ++ "\x7d)"
  | setOf items => "SetOf([" ++ String.intercalate ", " (describeItems items) ++ "])"
  | sequenceOf items => "SequenceOf([" ++ String.intercalate ", " (describeItems items) ++ "])"

/-- The fields as text, each with its name in quotes. -/
def describeFields : List (String × Value) → List String
  | [] => []
  | (name, value) :: rest => ("\"" ++ name ++ "\": " ++ describe value) :: describeFields rest

/-- The items as text. -/
def describeItems : List Value → List String
  | [] => []
  | value :: rest => describe value :: describeItems rest

end

end Value

namespace Sequence

/-- Whether two sequences hold the same fields, whatever encodings were captured. -/
instance : BEq (Sequence Value) := ⟨fun a b => Value.sameFields a.fields b.fields⟩

/-- The fields as text, in braces. -/
def describe (sequence : Sequence Value) : String :=
  "\x7b" ++ String.intercalate ", " (Value.describeFields sequence.fields) ++ "\x7d"

end Sequence

end Asn1
