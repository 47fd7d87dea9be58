import Asn1.Certificate.Schema
import Asn1.Proofs.Schema.Shape
import Asn1.Schema.Ambiguity

/-!
# `Asn1.Proofs.Certificate.Schema` — the schemas of a certificate are well behaved

All results about schemas in general apply to the schemas of a certificate: names are distinct, the
parameters of an algorithm are selected by the identifier before them, and no optional field is ambiguous.
-/

namespace Asn1

namespace Schema

theorem dispatched_algorithmIdentifier : algorithmIdentifier.Everywhere Field.Dispatched := by
  refine .sequence ⟨by decide, ?_, ?_⟩ ?_
  · simp [Field.SelectsIdentifiers, Field.plain, parameterSelector, Field.IsIdentifier]
  · simp [Field.SkipsResolve, Field.plain, parameterSelector]
  · simp [Field.plain, FieldType.types, Selector.types, parameterSelector, rsaAlgorithms,
      Everywhere.primitive, Everywhere.any]

theorem dispatched_certificateExtension : certificateExtension.Everywhere Field.Dispatched :=
  .sequence (Field.dispatched_of_fixed (by decide) (by simp [Field.plain]))
    (by simp [Field.plain, FieldType.types, Everywhere.primitive])

theorem dispatched_subjectPublicKeyInfo : subjectPublicKeyInfo.Everywhere Field.Dispatched :=
  .sequence (Field.dispatched_of_fixed (by decide) (by simp [Field.plain]))
    (by simp [Field.plain, FieldType.types, Everywhere.primitive, dispatched_algorithmIdentifier])

theorem dispatched_rsaPublicKey : rsaPublicKey.Everywhere Field.Dispatched :=
  .sequence (Field.dispatched_of_fixed (by decide) (by simp [Field.plain]))
    (by simp [Field.plain, FieldType.types, Everywhere.primitive])

theorem dispatched_certificateInfo : certificateInfo.Everywhere Field.Dispatched :=
  .sequence (Field.dispatched_of_fixed (by decide) (by simp [Field.plain]))
    (by simp [Field.plain, FieldType.types, Everywhere.primitive, dispatched_algorithmIdentifier,
      dispatched_subjectPublicKeyInfo, dispatched_certificateExtension])

theorem dispatched_certificate : certificate.Everywhere Field.Dispatched :=
  .sequence (Field.dispatched_of_fixed (by decide) (by simp [Field.plain]))
    (by simp [Field.plain, FieldType.types, Everywhere.primitive, dispatched_algorithmIdentifier,
      dispatched_certificateInfo])

/-- No schema of a certificate has optional fields that cannot be told apart. -/
theorem ambiguousField?_of_mem_certificateSchemas {schema : Schema} (h : schema ∈ certificateSchemas) :
    schema.ambiguousField? = none := by
  simp only [certificateSchemas, List.mem_cons, List.not_mem_nil, or_false] at h
  rcases h with rfl | rfl | rfl | rfl | rfl | rfl <;> decide +kernel

end Schema

end Asn1
