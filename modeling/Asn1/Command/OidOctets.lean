import Asn1.Command.Outcome
import Asn1.Oid.Known

/-!
# `Asn1.Command.OidOctets` — the octets of object identifiers

Each argument is an object identifier in dotted notation. Its octets are listed, along with its name if it
is a known one. A text that is no identifier is reported in place of its octets, which is no failure.
-/

namespace Asn1

namespace Command

namespace OidOctets

/-- The line for an identifier. -/
def describe (oid : Oid) : String :=
  let octets := "[" ++ String.intercalate ", " (oid.octets.map fun octet => toString octet.toNat) ++ "]"
  match oid.name? with
  | some name => octets ++ " // " ++ name
  | none => octets

/-- The line for an argument. -/
def line (argument : String) : String :=
  match Oid.ofDotted argument with
  | .ok oid => describe oid
  | .error error => argument ++ ": " ++ error.message ++ "."

/-- Lists the octets of all arguments. -/
def run (arguments : List String) : Outcome := .ofLines (arguments.map (.out <| line ·))

end OidOctets

end Command

end Asn1
