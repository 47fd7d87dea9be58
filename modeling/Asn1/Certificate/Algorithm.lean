import Asn1.Certificate.Schema
import Asn1.Entity

/-!
# `Asn1.Certificate.Algorithm` — algorithms and their parameters
-/

namespace Asn1

/-- An algorithm and its parameters. -/
structure AlgorithmIdentifier where
  algorithm : Oid
  parameters : Option Value
deriving BEq

namespace AlgorithmIdentifier

/-- The identifier of an algorithm with NULL parameters, as RSA algorithms have them. -/
def withNull (algorithm : Oid) : AlgorithmIdentifier := ⟨algorithm, some .null⟩

/-- The fields of the identifier. -/
def toValue (identifier : AlgorithmIdentifier) : Value :=
  .sequence
    { fields :=
        ("algorithm", .objectIdentifier identifier.algorithm) ::
          identifier.parameters.toList.map fun parameters => ("parameters", parameters) }

/-- The identifier with the fields of a value. -/
def ofValue? (value : Value) : Option AlgorithmIdentifier := do
  let fields ← value.asSequence?
  let algorithm ← (← fields.get? "algorithm").asOid?
  return ⟨algorithm, fields.get? "parameters"⟩

instance : Entity AlgorithmIdentifier := ⟨.algorithmIdentifier, toValue, ofValue?⟩

end AlgorithmIdentifier

end Asn1
