import Asn1.Schema.Decode
import Asn1.Schema.Encode

/-!
# `Asn1.Entity` — types of their own for values of a schema

A structure of a certificate has a type of its own, which is converted to and from values of its schema.
Decoding and encoding go through the schema.
-/

namespace Asn1

/-- A type whose members are encoded as values of a schema. -/
class Entity (α : Type) where
  /-- The schema of the encoding. -/
  schema : Schema
  /-- The value that is encoded. -/
  toValue : α → Value
  /-- What a value stands for, if it has the required fields. -/
  ofValue? : Value → Option α

namespace Entity

/-- Reads an entity that makes up the whole input. -/
def decode {α : Type} [Entity α] (mode : Mode) (data : Octets) : Except DecodeError α := do
  let value ← (schema α).decode mode data
  match ofValue? value with
  | some entity => .ok entity
  | none => .error ⟨.missingRequiredField (schema α).name, 0⟩

/-- The DER encoding of an entity. -/
def encode {α : Type} [Entity α] (entity : α) : Except EncodeError Octets :=
  (schema α).encode (toValue entity)

end Entity

end Asn1
