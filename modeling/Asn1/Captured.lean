import Asn1.Octets.Hex

/-!
# `Asn1.Captured` — encoded data kept as it was

The exact octets of a value are kept where they are needed later, most notably for the signed part of a
certificate.
-/

namespace Asn1

/-- The complete encoding of one or more values. -/
structure Captured where
  octets : Octets
deriving DecidableEq

namespace Captured

instance : Inhabited Captured := ⟨⟨[]⟩⟩

/-- The number of octets captured. -/
def length (captured : Captured) : Nat := captured.octets.length

/-- Whether nothing was captured. -/
def isEmpty (captured : Captured) : Bool := captured.octets.isEmpty

/-- The captured octets as text. -/
def describe (captured : Captured) : String := "Captured(" ++ captured.octets.toHex ++ ")"

end Captured

end Asn1
