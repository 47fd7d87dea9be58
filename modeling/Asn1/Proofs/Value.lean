import Asn1.Value

/-!
# `Asn1.Proofs.Value` — equality of data, and the bit strings in a value

Values that hold the same data agree in everything but captured encodings. The bit strings in a value are
listed wherever they are, except in the content of values of unknown type, which is not looked into.

## Contents
- **Equality.** `Value.same_refl`, and what values that are the same have in common.
- **Bit strings.** `Value.bitStrings`; values that are the same have the same ones.
-/

namespace Asn1

namespace Value

/-! ## Equality -/

mutual

theorem same_refl : ∀ value : Value, same value value = true
  | boolean _ => beq_self_eq_true _
  | null => rfl
  | integer _ => beq_self_eq_true _
  | objectIdentifier _ => beq_self_eq_true _
  | bitString _ => beq_self_eq_true _
  | octetString _ => beq_self_eq_true _
  | charString _ => beq_self_eq_true _
  | any _ => beq_self_eq_true _
  | sequence ⟨fields, _⟩ => sameFields_refl fields
  | setOf items => sameItems_refl items
  | sequenceOf items => sameItems_refl items

theorem sameFields_refl : ∀ fields : List (String × Value), sameFields fields fields = true
  | [] => rfl
  | (name, value) :: rest => by
    rw [sameFields, beq_self_eq_true, same_refl value, sameFields_refl rest]
    rfl

theorem sameItems_refl : ∀ items : List Value, sameItems items items = true
  | [] => rfl
  | value :: rest => by
    rw [sameItems, same_refl value, sameItems_refl rest]
    rfl

end

/-- A value of the same data is an object identifier exactly if the other one is, and the same one. -/
theorem asOid?_of_same {a b : Value} (h : same a b = true) : a.asOid? = b.asOid? := by
  cases a <;> cases b <;> simp_all [same, asOid?]

/-- Values of the same data are equal, unless other values are nested in them. -/
theorem same_cases {a b : Value} (h : same a b = true) :
    a = b ∨
      (∃ given other, a = sequence given ∧ b = sequence other ∧
        sameFields given.fields other.fields = true) ∨
      (∃ items others, a = setOf items ∧ b = setOf others ∧ sameItems items others = true) ∨
      ∃ items others, a = sequenceOf items ∧ b = sequenceOf others ∧ sameItems items others = true := by
  cases a <;> cases b <;> simp_all [same]

/-- A sequence has the same data as another sequence only. -/
theorem exists_of_same_sequence {a : Sequence Value} {b : Value} (h : same (sequence a) b = true) :
    ∃ other, b = sequence other ∧ sameFields a.fields other.fields = true := by
  cases b with
  | sequence other => exact ⟨other, rfl, h⟩
  | _ => cases h

/-- Fields of the same data are the same in front of others that are. -/
theorem sameFields_cons {name : String} {a b : Value} {as bs : List (String × Value)}
    (h : same a b = true) (hrest : sameFields as bs = true) :
    sameFields ((name, a) :: as) ((name, b) :: bs) = true := by
  rw [sameFields, beq_self_eq_true, h, hrest]
  rfl

theorem map_fst_of_sameFields {a b : List (String × Value)} (h : sameFields a b = true) :
    a.map (·.1) = b.map (·.1) := by
  induction a generalizing b with
  | nil => cases b <;> simp_all [sameFields]
  | cons entry rest ih =>
      cases b with
      | nil => cases h
      | cons other others =>
          simp only [sameFields, Bool.and_eq_true, beq_iff_eq] at h
          rw [List.map_cons, List.map_cons, h.1.1, ih h.2]

/-- Under each name both have no field, or fields of the same data. -/
theorem lookup_of_sameFields {a b : List (String × Value)} (h : sameFields a b = true) (name : String) :
    (a.lookup name = none ∧ b.lookup name = none) ∨
      ∃ x y, a.lookup name = some x ∧ b.lookup name = some y ∧ same x y = true := by
  induction a generalizing b with
  | nil => cases b <;> simp_all [sameFields]
  | cons entry rest ih =>
      cases b with
      | nil => cases h
      | cons other others =>
          obtain ⟨found, x⟩ := entry
          obtain ⟨_, y⟩ := other
          simp only [sameFields, Bool.and_eq_true, beq_iff_eq] at h
          obtain ⟨⟨rfl, hsame⟩, hrest⟩ := h
          simp only [List.lookup_cons]
          cases name == found with
          | true => exact .inr ⟨x, y, rfl, rfl, hsame⟩
          | false => exact ih hrest

/-! ## Bit strings -/

mutual

/-- All bit strings in the value. -/
def bitStrings : Value → List BitString
  | bitString bits => [bits]
  | sequence ⟨fields, _⟩ => fieldsBitStrings fields
  | setOf items => itemsBitStrings items
  | sequenceOf items => itemsBitStrings items
  | _ => []

/-- All bit strings in the fields of a sequence. -/
def fieldsBitStrings : List (String × Value) → List BitString
  | [] => []
  | (_, value) :: rest => bitStrings value ++ fieldsBitStrings rest

/-- All bit strings in the items of a repetition. -/
def itemsBitStrings : List Value → List BitString
  | [] => []
  | value :: rest => bitStrings value ++ itemsBitStrings rest

end

variable {bits : BitString}

theorem mem_fieldsBitStrings {fields : List (String × Value)} :
    bits ∈ fieldsBitStrings fields ↔ ∃ field ∈ fields, bits ∈ field.2.bitStrings := by
  induction fields with
  | nil => simp [fieldsBitStrings]
  | cons field rest ih => simp [fieldsBitStrings, ih]

theorem mem_itemsBitStrings {items : List Value} :
    bits ∈ itemsBitStrings items ↔ ∃ item ∈ items, bits ∈ item.bitStrings := by
  induction items with
  | nil => simp [itemsBitStrings]
  | cons item rest ih => simp [itemsBitStrings, ih]

mutual

/-- Values of the same data have the same bit strings. -/
theorem bitStrings_of_same : ∀ {a b : Value}, same a b = true → a.bitStrings = b.bitStrings
  | sequence ⟨a, _⟩, b, h => by
    cases b with
    | sequence b => exact bitStrings_of_sameFields h
    | _ => cases h
  | setOf a, b, h => by
    cases b with
    | setOf b => exact bitStrings_of_sameItems h
    | _ => cases h
  | sequenceOf a, b, h => by
    cases b with
    | sequenceOf b => exact bitStrings_of_sameItems h
    | _ => cases h
  | bitString a, b, h => by
    cases b with
    | bitString b => exact congrArg (fun bits => [bits]) (beq_iff_eq.1 h)
    | _ => cases h
  | boolean a, b, h | null, b, h | integer a, b, h | objectIdentifier a, b, h | octetString a, b, h
  | charString a, b, h | any a, b, h => by
    cases b with
    | bitString b => cases h
    | sequence b => cases h
    | setOf b => cases h
    | sequenceOf b => cases h
    | _ => rfl

theorem bitStrings_of_sameFields : ∀ {a b : List (String × Value)}, sameFields a b = true →
    fieldsBitStrings a = fieldsBitStrings b
  | [], [], _ => rfl
  | [], _ :: _, h => by cases h
  | _ :: _, [], h => by cases h
  | (m, a) :: as, (n, b) :: bs, h => by
    simp only [sameFields, Bool.and_eq_true] at h
    rw [fieldsBitStrings, fieldsBitStrings, bitStrings_of_same h.1.2, bitStrings_of_sameFields h.2]

theorem bitStrings_of_sameItems : ∀ {a b : List Value}, sameItems a b = true →
    itemsBitStrings a = itemsBitStrings b
  | [], [], _ => rfl
  | [], _ :: _, h => by cases h
  | _ :: _, [], h => by cases h
  | a :: as, b :: bs, h => by
    simp only [sameItems, Bool.and_eq_true] at h
    rw [itemsBitStrings, itemsBitStrings, bitStrings_of_same h.1, bitStrings_of_sameItems h.2]

end

end Value

end Asn1
