import Asn1.Proofs.Schema.Encode
import Asn1.Proofs.Schema.Shape

/-!
# `Asn1.Proofs.Schema.Congruence` — encoding looks at the data only

A sequence remembers what it was decoded from, but the encoder never asks. Values of the same data are
written as the same octets, so a value may be taken apart and put together again on the way.

## Contents
- **Data.** What the encoder reads off a value is the same for values of the same data: primitive content,
  names, and the type and value of a field.
- **Fields.** `Field.Derives.of_same` for a field whose items are exchanged.
- **Types.** `Schema.write_of_same` by induction over the types.
-/

namespace Asn1

/-! ## Data -/

theorem PrimitiveType.content?_of_same {value other : Value} (h : value.same other = true)
    (type : PrimitiveType) : type.content? value = type.content? other := by
  -- Values that differ have other values nested in them, which no primitive type has.
  rcases Value.same_cases h with rfl | ⟨_, _, rfl, rfl, -⟩ | ⟨_, _, rfl, rfl, -⟩ | ⟨_, _, rfl, rfl, -⟩
  · rfl
  all_goals cases type <;> rfl

theorem AnyValue.ofValue?_of_same {value other : Value} (h : value.same other = true)
    (override : Option Tag) : ofValue? override value = ofValue? override other := by
  rcases Value.same_cases h with rfl | ⟨_, _, rfl, rfl, -⟩ | ⟨_, _, rfl, rfl, -⟩ | ⟨_, _, rfl, rfl, -⟩
  all_goals rfl

namespace Sequence

variable {given other : Sequence Value}

theorem names_of_same (h : Value.sameFields given.fields other.fields = true) :
    given.names = other.names :=
  Value.map_fst_of_sameFields h

theorem agrees_of_same (h : Value.sameFields given.fields other.fields = true) : given.Agrees other := by
  intro name
  obtain ⟨hgiven, hother⟩ | ⟨x, y, hgiven, hother, hsame⟩ := Value.lookup_of_sameFields h name
  · rw [get?, get?, hgiven, hother]
  · rw [get?, get?, hgiven, hother, Option.map_some, Option.map_some, Value.asOid?_of_same hsame]

end Sequence

namespace Field

variable {σ : Type} {field : Field σ} {given others : Sequence Value}

theorem lookup_eq_none_of_same (hsame : Value.sameFields given.fields others.fields = true)
    (h : field.lookup given = .ok none) : field.lookup others = .ok none := by
  obtain ⟨habsent, hoptional⟩ := lookup_eq_none_iff.1 h
  obtain ⟨-, hother⟩ | ⟨_, _, hgiven, -, -⟩ := Value.lookup_of_sameFields hsame field.name
  · exact lookup_eq_none_iff.2 ⟨hother, hoptional⟩
  · exact absurd (habsent.symm.trans hgiven) nofun

/-- A field has the same type in both sequences, and values of the same data. -/
theorem lookup_eq_some_of_same (hsame : Value.sameFields given.fields others.fields = true) {value : Value}
    {type : σ} (h : field.lookup given = .ok (some (value, type))) :
    ∃ other, field.lookup others = .ok (some (other, type)) ∧ value.same other = true := by
  obtain ⟨hvalue, htype⟩ := lookup_eq_some_iff.1 h
  obtain ⟨hnone, -⟩ | ⟨found, other, hfound, hother, hdata⟩ := Value.lookup_of_sameFields hsame field.name
  · exact absurd (hnone.symm.trans hvalue) nofun
  · obtain rfl := Option.some.inj (hvalue.symm.trans hfound)
    refine ⟨other, lookup_eq_some_iff.2 ⟨hother, ?_⟩, hdata⟩
    rw [← (Sequence.agrees_of_same hsame).resolve?_eq field, htype]

/-! ## Fields -/

/-- Items related pairwise can be exchanged one by one for items of the same data. -/
private theorem forall₂_of_sameItems {related related' : Octets → Value → Prop}
    (hitem : ∀ part value other, value.same other = true → related part value → related' part other)
    {parts : List Octets} {values others : List Value} (hsame : Value.sameItems values others = true)
    (h : List.Forall₂ related parts values) : List.Forall₂ related' parts others := by
  induction h generalizing others with
  | nil =>
      cases others with
      | nil => exact .nil
      | cons _ _ => cases hsame
  | cons hfirst _ ih =>
      cases others with
      | nil => cases hsame
      | cons other others =>
          simp only [Value.sameItems, Bool.and_eq_true] at hsame
          exact .cons (hitem _ _ _ hsame.1 hfirst) (ih hsame.2)

variable {framed : Framing} {item item' : Encodes} {octets : Octets} {value other : Value}

theorem DerivesRepeated.of_same {override : Option Tag}
    (hitem : ∀ override part value other, value.same other = true → item override part value →
      item' override part other)
    (hsame : value.same other = true) (h : field.DerivesRepeated framed item override octets value) :
    field.DerivesRepeated framed item' override octets other := by
  have hitems {tag : Tag} {values others : List Value} (hsame : Value.sameItems values others = true)
      (h : DerivesItems framed item tag octets values) : DerivesItems framed item' tag octets others := by
    obtain ⟨parts, hparts, hframe⟩ := h
    exact ⟨parts, forall₂_of_sameItems (hitem none) hsame hparts, hframe⟩
  unfold DerivesRepeated at h ⊢
  split at h
  · exact hitem _ _ _ _ hsame h
  · obtain ⟨values, rfl, h⟩ := h
    cases other with
    | setOf others => exact ⟨others, rfl, hitems hsame h⟩
    | _ => cases hsame
  · obtain ⟨values, rfl, h⟩ := h
    cases other with
    | sequenceOf others => exact ⟨others, rfl, hitems hsame h⟩
    | _ => cases hsame

/-- A field derives a value of the same data, if its items do. -/
theorem Derives.of_same
    (hitem : ∀ override part value other, value.same other = true → item override part value →
      item' override part other)
    (hsame : value.same other = true) (h : field.Derives framed item octets value) :
    field.Derives framed item' octets other := by
  unfold Derives at h ⊢
  split at h
  · exact h.of_same hitem hsame
  · exact h.of_same hitem hsame
  · obtain ⟨content, hframe, h⟩ := h
    exact ⟨content, hframe, h.of_same hitem hsame⟩

end Field

/-! ## Types -/

namespace Schema

/-- The fields of sequences of the same data are written alike, if values of their types are. -/
theorem writeFields_of_same {fields : List (Field Schema)} {given others : Sequence Value} {octets : Octets}
    (htypes : ∀ field ∈ fields, ∀ type ∈ field.type.types, ∀ name override value other part,
      value.same other = true → type.write name override value = .ok part →
        type.write name override other = .ok part)
    (hsame : Value.sameFields given.fields others.fields = true)
    (h : writeFields fields given = .ok octets) : writeFields fields others = .ok octets := by
  induction fields generalizing octets with
  | nil => exact writeFields_nil.2 (writeFields_nil.1 h)
  | cons field rest ih =>
      have ih {octets : Octets} :=
        @ih octets fun other hother => htypes other (List.mem_cons_of_mem _ hother)
      rw [writeFields_cons]
      obtain ⟨hlookup, h⟩ | ⟨value, type, first, remaining, hlookup, rfl, hfield, h⟩ := writeFields_cons.1 h
      · exact .inl ⟨Field.lookup_eq_none_of_same hsame hlookup, ih h⟩
      · obtain ⟨other, hother, hdata⟩ := Field.lookup_eq_some_of_same hsame hlookup
        have htype := Field.resolve?_mem (Field.lookup_eq_some_iff.1 hlookup).2
        refine .inr ⟨other, type, first, remaining, hother, rfl, ?_, ih h⟩
        exact hfield.of_same (fun override part value other hsame =>
          htypes field List.mem_cons_self type htype _ override value other part hsame) hdata

/-- **What is written for a value is written for every value of the same data**, whatever encodings they
    captured. -/
theorem write_of_same {schema : Schema} (name : String) {override : Option Tag} {value other : Value}
    {octets : Octets} (hsame : value.same other = true)
    (h : schema.write name override value = .ok octets) :
    schema.write name override other = .ok octets := by
  induction schema using Schema.induction generalizing name override value other octets with
  | primitive tag =>
      obtain ⟨type, content, htype, hcontent, rfl⟩ := write_primitive.1 h
      rw [PrimitiveType.content?_of_same hsame] at hcontent
      exact write_primitive.2 ⟨type, content, htype, hcontent, rfl⟩
  | any =>
      obtain ⟨found, hfound, rfl⟩ := write_any.1 h
      rw [AnyValue.ofValue?_of_same hsame] at hfound
      exact write_any.2 ⟨found, hfound, rfl⟩
  | sequence typeName fields ih =>
      obtain ⟨given, content, rfl, hknown, hcontent, rfl⟩ := write_sequence.1 h
      obtain ⟨others, rfl, hfields⟩ := Value.exists_of_same_sequence hsame
      refine write_sequence.2 ⟨others, content, rfl, ?_, ?_, rfl⟩
      · rwa [knowsFields, ← Sequence.names_of_same hfields]
      · refine writeFields_of_same ?_ hfields hcontent
        intro field hfield type htype name override value other part hsame hwrite
        exact ih field hfield type htype name hsame hwrite

end Schema

end Asn1
