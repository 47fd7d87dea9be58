import Asn1.Certificate.Schema
import Asn1.Entity

/-!
# `Asn1.Certificate.Extension` — certificate extensions
-/

namespace Asn1

/-- An extension of a certificate. -/
structure Extension where
  id : Oid
  /-- The critical flag, if it is there. -/
  critical : Option Bool
  /-- The content of the value octet string. -/
  value : Octets
deriving BEq

namespace Extension

/-- Whether the extension is critical. It is not if there is no flag. -/
def isCritical (ext : Extension) : Bool := ext.critical.getD false

/-- The fields of the extension. -/
def toValue (ext : Extension) : Value :=
  .sequence
    { fields :=
        ("id", .objectIdentifier ext.id) ::
          (ext.critical.toList.map fun critical => ("critical", .boolean critical)) ++
            [("value", .octetString ext.value)] }

/-- The extension with the fields of a value. -/
def ofValue? (value : Value) : Option Extension := do
  let fields ← value.asSequence?
  let critical ←
    match fields.get? "critical" with
    | some critical => critical.asBoolean?.map some
    | none => some none
  let id ← (← fields.get? "id").asOid?
  let octets ← (← fields.get? "value").asOctetString?
  return ⟨id, critical, octets⟩

instance : Entity Extension := ⟨.certificateExtension, toValue, ofValue?⟩

end Extension

end Asn1
