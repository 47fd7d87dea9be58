import Asn1.Proofs.Schema.Grammar
import Asn1.Schema.Encode

/-!
# `Asn1.Proofs.Schema.Encode` — encoding follows the grammar

The two passes agree, so the length in every header written is that of what follows it. Without lengths,
what is written is a value in the sense of the grammar whose frames are the ones of DER.

## Contents
- **Passes.** The length pass counts what the writing pass writes, for items, fields and types.
- **Fields.** `Field.write_eq_ok_iff` takes a written field apart.
- **Types.** One lemma for each kind of type says what is written: `Schema.write_primitive`,
  `Schema.write_any` and `Schema.write_sequence`, with `Schema.writeFields_cons` for the fields.
-/

namespace Asn1

/-! ## Passes -/

/-- The length pass counts the octets that the writing pass writes, and fails where it does. -/
def Counts {α : Type} (count : α → Except EncodeError Nat) (write : α → Except EncodeError Octets) : Prop :=
  ∀ value, count value = (write value).map List.length

/-- What comes after another is counted as it is written, if both are. -/
theorem append_counts {count countOthers : Except EncodeError Nat}
    {write writeOthers : Except EncodeError Octets}
    (h : count = write.map List.length) (hothers : countOthers = writeOthers.map List.length) :
    (do
      let first ← count
      let others ← countOthers
      return first + others) =
      (do
        let first ← write
        let others ← writeOthers
        return first ++ others).map List.length := by
  subst h hothers
  cases write with
  | error error => rfl
  | ok first =>
      cases writeOthers with
      | error error => rfl
      | ok others => exact congrArg Except.ok (List.length_append).symm

theorem itemsLen_counts {count : Value → Except EncodeError Nat}
    {write : Value → Except EncodeError Octets} (h : Counts count write) :
    Counts (itemsLen count) (writeItems write) := by
  intro values
  induction values with
  | nil => rfl
  | cons value values ih =>
      rw [itemsLen, writeItems]
      exact append_counts (h value) ih

namespace Field

theorem lookup_eq_none_iff {σ : Type} {field : Field σ} {given : Sequence Value} :
    field.lookup given = .ok none ↔ given.get? field.name = none ∧ field.optional = true := by
  unfold lookup
  cases given.get? field.name with
  | none => cases field.optional <;> simp
  | some value => cases field.resolve? given <;> simp

theorem lookup_eq_some_iff {σ : Type} {field : Field σ} {given : Sequence Value} {value : Value}
    {type : σ} :
    field.lookup given = .ok (some (value, type)) ↔
      given.get? field.name = some value ∧ field.resolve? given = some type := by
  unfold lookup
  cases given.get? field.name with
  | none => cases field.optional <;> simp
  | some found => cases field.resolve? given <;> simp

variable {σ : Type} {count : Option Tag → Value → Except EncodeError Nat}
  {write : Option Tag → Value → Except EncodeError Octets}

/-- A frame is counted as it is written, if its content is. -/
theorem wrapped_counts {tag : Tag} {count : Except EncodeError Nat} {write : Except EncodeError Octets}
    (h : count = write.map List.length) :
    (do
      let length ← count
      return Header.wrappedLen tag length) =
      (do
        let length ← count
        let content ← write
        return (Header.ofConstructed tag length).octets ++ content).map List.length := by
  subst h
  cases write with
  | error error => rfl
  | ok content =>
      have hlength : Header.wrappedLen tag content.length =
          ((Header.ofConstructed tag content.length).octets ++ content).length := by
        rw [Header.wrappedLen, List.length_append, Header.length_octets]
      exact congrArg Except.ok hlength

theorem repeatedLen_counts (field : Field σ) (h : ∀ override, Counts (count override) (write override))
    (override : Option Tag) :
    Counts (field.repeatedLen count override) (field.writeRepeated count write override) := by
  intro value
  unfold repeatedLen writeRepeated
  rcases field.items value with error | _ | ⟨tag, items⟩
  · rfl
  · exact h override value
  · exact wrapped_counts (itemsLen_counts (h none) items)

theorem encodedLen_counts (field : Field σ)
    (h : ∀ override, Counts (count override) (write override)) :
    Counts (field.encodedLen count) (field.write count write) := by
  intro value
  unfold encodedLen Field.write
  rcases field.tagging with _ | ⟨_ | _, tag⟩
  · exact field.repeatedLen_counts h none value
  · exact field.repeatedLen_counts h (some tag) value
  · exact wrapped_counts (field.repeatedLen_counts h none value)

end Field

namespace Schema

theorem primitiveLen_counts (tag : Tag) (name : String) :
    Counts (primitiveLen tag name) (writePrimitive tag name) := by
  intro value
  unfold primitiveLen writePrimitive
  cases PrimitiveType.ofTag? tag with
  | none => rfl
  | some type =>
      simp only [Option.bind_some, PrimitiveType.contentLen?_eq]
      cases type.content? value <;> rfl

/-- The fields of a sequence are counted as they are written, if values of their types are. -/
theorem fieldsLen_counts {fields : List (Field Schema)}
    (htypes : ∀ field ∈ fields, ∀ type ∈ field.type.types, ∀ name override,
      Counts (type.encodedLen name override) (type.write name override)) :
    Counts (fieldsLen fields) (writeFields fields) := by
  intro given
  induction fields with
  | nil =>
      rw [fieldsLen, writeFields]
      rfl
  | cons field rest ih =>
      have ih := ih fun field hfield => htypes field (List.mem_cons_of_mem _ hfield)
      rw [fieldsLen, writeFields]
      split
      · rfl
      · exact ih
      · rename_i value type hlookup
        have htype := Field.resolve?_mem (Field.lookup_eq_some_iff.1 hlookup).2
        have hfield :=
          field.encodedLen_counts (htypes field List.mem_cons_self type htype field.name) value
        exact append_counts hfield ih

/-- What the length pass counts as content, the writing pass writes. -/
theorem writeContent_of_contentLen {schema : Schema} {name : String} {value : Value} {length : Nat}
    (hfields : ∀ typeName fields, schema = sequence typeName fields →
      Counts (fieldsLen fields) (writeFields fields))
    (h : schema.contentLen name value = .ok length) :
    ∃ content, schema.writeContent name value = .ok content ∧ content.length = length := by
  have hmap {write : Except EncodeError Octets} (h : write.map List.length = .ok length) :
      ∃ content, write = .ok content ∧ content.length = length := by
    cases write with
    | error error => simp [Except.map] at h
    | ok content => exact ⟨content, rfl, Except.ok.inj h⟩
  cases schema with
  | primitive tag =>
      rw [contentLen, primitiveLen_counts] at h
      rw [writeContent]
      exact hmap h
  | any =>
      unfold contentLen at h
      unfold writeContent
      split at h
      · exact ⟨_, rfl, Except.ok.inj h⟩
      · split at h
        · rw [primitiveLen_counts] at h
          exact hmap h
        · simp at h
  | sequence typeName fields =>
      rw [contentLen] at h
      rw [writeContent]
      split at h
      · simp at h
      · split at h
        · rw [hfields typeName fields rfl] at h
          exact hmap h
        · simp at h

/-- A value is counted as it is written, if the fields of a sequence are. -/
theorem encodedLen_counts_of_fields {schema : Schema}
    (hfields : ∀ typeName fields, schema = sequence typeName fields →
      Counts (fieldsLen fields) (writeFields fields)) (name : String) (override : Option Tag) :
    Counts (schema.encodedLen name override) (schema.write name override) := by
  intro value
  rw [encodedLen, write]
  cases schema.identifier name override value with
  | error error => rfl
  | ok identifier =>
      cases hlength : schema.contentLen name value with
      | error error => rfl
      | ok length =>
          obtain ⟨content, hcontent, rfl⟩ := writeContent_of_contentLen hfields hlength
          simp only [bind, Except.bind, hcontent, pure, Except.pure, Except.map,
            List.length_append, Header.length_octets]

/-- **The length pass counts exactly what the writing pass writes**, for every type and value. -/
theorem encodedLen_counts (schema : Schema) (name : String) (override : Option Tag) :
    Counts (schema.encodedLen name override) (schema.write name override) := by
  induction schema using Schema.induction generalizing name override with
  | primitive tag => exact encodedLen_counts_of_fields (by simp) name override
  | any => exact encodedLen_counts_of_fields (by simp) name override
  | sequence typeName fields ih =>
      refine encodedLen_counts_of_fields ?_ name override
      rintro _ _ ⟨⟩
      exact fieldsLen_counts ih

end Schema

/-! ## Fields -/

/-- The frames that are written. -/
def Framing.written : Framing := fun identifier content octets => octets = frame identifier content

namespace Framing

variable {identifier : Identifier} {content octets : Octets}

theorem encloses_written : Encloses written := by
  rintro identifier content _ rfl
  exact length_content_le_frame identifier content

/-- Every mode accepts the frames that are written. -/
theorem framed_of_written (mode : Mode) (h : written identifier content octets)
    (hlength : octets.length < Length.limit) : Framed mode identifier content octets := by
  have hle := encloses_written _ _ _ h
  rw [show octets = frame identifier content from h]
  exact framed_frame mode identifier (by omega)

end Framing

/-- What a writer makes of a value is its only encoding. -/
def Encodes.by (write : Option Tag → Value → Except EncodeError Octets) : Encodes :=
  fun override octets value => write override value = .ok octets

theorem writeItems_eq_ok_iff {write : Value → Except EncodeError Octets} {values : List Value}
    {octets : Octets} :
    writeItems write values = .ok octets ↔
      ∃ parts, List.Forall₂ (fun part value => write value = .ok part) parts values ∧
        octets = parts.flatten := by
  induction values generalizing octets with
  | nil => simp [writeItems, eq_comm]
  | cons value values ih =>
      rw [writeItems]
      constructor
      · intro h
        obtain ⟨first, hfirst, h⟩ := bind_eq_ok_iff.1 h
        obtain ⟨others, hothers, h⟩ := bind_eq_ok_iff.1 h
        obtain rfl := Except.ok.inj h
        obtain ⟨parts, hparts, rfl⟩ := ih.1 hothers
        exact ⟨first :: parts, .cons hfirst hparts, rfl⟩
      · rintro ⟨parts, hparts, rfl⟩
        cases hparts with
        | cons hfirst hparts =>
            exact bind_eq_ok_iff.2 ⟨_, hfirst, bind_eq_ok_iff.2 ⟨_, ih.2 ⟨_, hparts, rfl⟩, rfl⟩⟩

namespace Field

variable {σ : Type} {count : Option Tag → Value → Except EncodeError Nat}
  {write : Option Tag → Value → Except EncodeError Octets}

/-- What is wrapped is a frame around the content, if the length pass counts the content. -/
theorem wrapped_eq_ok_iff {tag : Tag} {count : Except EncodeError Nat} {write : Except EncodeError Octets}
    (h : count = write.map List.length) {octets : Octets} :
    (do
      let length ← count
      let content ← write
      return (Header.ofConstructed tag length).octets ++ content) = .ok octets ↔
    ∃ content, Framing.written ⟨tag, true⟩ content octets ∧ write = .ok content := by
  subst h
  constructor
  · intro h
    obtain ⟨length, hlength, h⟩ := bind_eq_ok_iff.1 h
    obtain ⟨content, rfl, h⟩ := bind_eq_ok_iff.1 h
    obtain rfl := Except.ok.inj hlength
    exact ⟨content, (Except.ok.inj h).symm, rfl⟩
  · rintro ⟨content, rfl, rfl⟩
    exact bind_eq_ok_iff.2 ⟨content.length, rfl, bind_eq_ok_iff.2 ⟨content, rfl, rfl⟩⟩

theorem writeRepeated_eq_ok_iff {field : Field σ}
    (h : ∀ override, Counts (count override) (write override)) {override : Option Tag}
    {octets : Octets} {value : Value} :
    field.writeRepeated count write override value = .ok octets ↔
      field.DerivesRepeated .written (.by write) override octets value := by
  have hitems (tag : Tag) (values : List Value) :
      (do
        let length ← itemsLen (count none) values
        let content ← writeItems (write none) values
        return (Header.ofConstructed tag length).octets ++ content) = .ok octets ↔
      DerivesItems .written (.by write) tag octets values := by
    rw [wrapped_eq_ok_iff (itemsLen_counts (h none) values)]
    constructor
    · rintro ⟨content, hframe, hcontent⟩
      obtain ⟨parts, hparts, rfl⟩ := writeItems_eq_ok_iff.1 hcontent
      exact ⟨parts, hparts, hframe⟩
    · rintro ⟨parts, hparts, hframe⟩
      exact ⟨parts.flatten, hframe, writeItems_eq_ok_iff.2 ⟨parts, hparts, rfl⟩⟩
  unfold writeRepeated DerivesRepeated items
  cases field.repetition with
  | single => exact Iff.rfl
  | setOf =>
      cases value with
      | setOf values => simpa [bind, Except.bind] using hitems (override.getD .set) values
      | _ => simp [bind, Except.bind]
  | sequenceOf =>
      cases value with
      | sequenceOf values => simpa [bind, Except.bind] using hitems (override.getD .sequence) values
      | _ => simp [bind, Except.bind]

/-- **A written field is a field in the sense of the grammar** whose frames and items are written. -/
theorem write_eq_ok_iff {field : Field σ} (h : ∀ override, Counts (count override) (write override))
    {octets : Octets} {value : Value} :
    field.write count write value = .ok octets ↔ field.Derives .written (.by write) octets value := by
  unfold Field.write Derives
  rcases field.tagging with _ | ⟨_ | _, tag⟩
  · exact writeRepeated_eq_ok_iff h
  · exact writeRepeated_eq_ok_iff h
  · refine (wrapped_eq_ok_iff (field.repeatedLen_counts h none value)).trans ?_
    simp only [writeRepeated_eq_ok_iff h]

end Field

/-! ## Types -/

/-- What is encoded where any value is allowed: a value of unknown type, or one of a primitive type. A tag
    that is given replaces the natural one. -/
def AnyValue.ofValue? (override : Option Tag) : Value → Option AnyValue
  | .any found => some { found with tag := override.getD found.tag }
  | value => do
    let tag ← value.primitiveTag?
    let type ← PrimitiveType.ofTag? tag
    let content ← type.content? value
    return ⟨override.getD tag, false, content⟩

/-- A value of unknown type is encoded as it is, if it has the tag that is given. -/
theorem AnyValue.ofValue?_any {override : Option Tag} {found : AnyValue}
    (h : override.all (· == found.tag) = true) : ofValue? override (.any found) = some found := by
  cases override with
  | none => rfl
  | some tag =>
      obtain rfl : tag = found.tag := by simpa using h
      rfl

namespace Schema

variable {name : String} {override : Option Tag} {value : Value} {octets : Octets}

/-- A value is written as a frame around its content, if the length pass succeeds. -/
theorem write_eq_ok_iff {schema : Schema} :
    schema.write name override value = .ok octets ↔
      ∃ identifier content, schema.identifier name override value = .ok identifier ∧
        schema.contentLen name value = .ok content.length ∧
        schema.writeContent name value = .ok content ∧ octets = frame identifier content := by
  rw [write]
  constructor
  · intro h
    obtain ⟨identifier, hidentifier, h⟩ := bind_eq_ok_iff.1 h
    obtain ⟨length, hlength, h⟩ := bind_eq_ok_iff.1 h
    obtain ⟨content, hcontent, h⟩ := bind_eq_ok_iff.1 h
    obtain ⟨found, hfound, rfl⟩ := writeContent_of_contentLen (fun _ fields _ =>
      fieldsLen_counts fun _ _ type _ name override => type.encodedLen_counts name override) hlength
    obtain rfl := Except.ok.inj (hcontent.symm.trans hfound)
    exact ⟨identifier, content, hidentifier, hlength, hcontent, (Except.ok.inj h).symm⟩
  · rintro ⟨identifier, content, hidentifier, hlength, hcontent, rfl⟩
    exact bind_eq_ok_iff.2 ⟨identifier, hidentifier, bind_eq_ok_iff.2 ⟨_, hlength,
      bind_eq_ok_iff.2 ⟨content, hcontent, rfl⟩⟩⟩

theorem writePrimitive_eq_ok_iff {tag : Tag} {content : Octets} :
    writePrimitive tag name value = .ok content ↔
      ∃ type, PrimitiveType.ofTag? tag = some type ∧ type.content? value = some content := by
  unfold writePrimitive
  cases PrimitiveType.ofTag? tag with
  | none => simp
  | some type => cases hcontent : type.content? value <;> simp [hcontent]

/-- The length pass succeeds for primitive content that is written. -/
theorem primitiveLen_of_writePrimitive {tag : Tag} {content : Octets}
    (h : writePrimitive tag name value = .ok content) :
    primitiveLen tag name value = .ok content.length := by
  rw [primitiveLen_counts, h]
  rfl

theorem write_primitive {tag : Tag} :
    (primitive tag).write name override value = .ok octets ↔
      ∃ type content, PrimitiveType.ofTag? tag = some type ∧ type.content? value = some content ∧
        octets = frame ⟨override.getD tag, false⟩ content := by
  rw [write_eq_ok_iff]
  simp only [identifier, contentLen, writeContent, Except.ok.injEq]
  constructor
  · rintro ⟨_, content, rfl, -, hcontent, rfl⟩
    obtain ⟨type, htype, hcontent⟩ := writePrimitive_eq_ok_iff.1 hcontent
    exact ⟨type, content, htype, hcontent, rfl⟩
  · rintro ⟨type, content, htype, hcontent, rfl⟩
    have hwrite : writePrimitive tag name value = .ok content :=
      writePrimitive_eq_ok_iff.2 ⟨type, htype, hcontent⟩
    exact ⟨_, content, rfl, primitiveLen_of_writePrimitive hwrite, hwrite, rfl⟩

theorem write_any :
    any.write name override value = .ok octets ↔
      ∃ found, AnyValue.ofValue? override value = some found ∧
        octets = frame ⟨found.tag, found.constructed⟩ found.content := by
  rw [write_eq_ok_iff]
  fun_cases AnyValue.ofValue? override value with
  | case1 found =>
      obtain ⟨tag, constructed, content⟩ := found
      simp only [identifier, contentLen, writeContent, Except.ok.injEq]
      constructor
      · rintro ⟨_, _, rfl, -, rfl, rfl⟩
        exact ⟨_, rfl, rfl⟩
      · rintro ⟨_, ⟨⟩, rfl⟩
        exact ⟨_, _, rfl, rfl, rfl, rfl⟩
  | case2 value hany =>
      have hany (tag : Tag) (constructed : Bool) (content : Octets)
          (h : value = .any ⟨tag, constructed, content⟩) : False := hany _ h
      rw [contentLen, writeContent] <;> try exact hany
      simp only [identifier]
      cases htag : value.primitiveTag? with
      | none => simp
      | some tag =>
          constructor
          · rintro ⟨_, content, ⟨⟩, -, hcontent, rfl⟩
            obtain ⟨type, htype, hcontent⟩ := writePrimitive_eq_ok_iff.1 hcontent
            refine ⟨⟨override.getD tag, false, content⟩, ?_, rfl⟩
            simp only [Option.bind_eq_bind, Option.bind_some, htype, hcontent]
            rfl
          · rintro ⟨found, hfound, rfl⟩
            simp only [Option.bind_eq_bind, Option.bind_eq_some_iff, Option.some.injEq] at hfound
            obtain ⟨_, rfl, type, htype, content, hcontent, hfound⟩ := hfound
            obtain rfl := Option.some.inj hfound
            have hwrite : writePrimitive tag name value = .ok content :=
              writePrimitive_eq_ok_iff.2 ⟨type, htype, hcontent⟩
            exact ⟨_, content, rfl, primitiveLen_of_writePrimitive hwrite, hwrite, rfl⟩

theorem write_sequence {typeName : String} {fields : List (Field Schema)} :
    (sequence typeName fields).write name override value = .ok octets ↔
      ∃ given content, value = .sequence given ∧ knowsFields fields given = true ∧
        writeFields fields given = .ok content ∧
        octets = frame ⟨override.getD .sequence, true⟩ content := by
  rw [write_eq_ok_iff]
  simp only [identifier, contentLen, writeContent, Except.ok.injEq]
  cases value with
  | sequence given =>
      simp only [Value.asSequence?]
      constructor
      · rintro ⟨_, content, rfl, hlength, hcontent, rfl⟩
        split at hlength
        · rename_i hknown
          exact ⟨given, content, rfl, hknown, hcontent, rfl⟩
        · simp at hlength
      · rintro ⟨_, content, ⟨⟩, hknown, hcontent, rfl⟩
        refine ⟨_, content, rfl, ?_, hcontent, rfl⟩
        rw [if_pos hknown, fieldsLen_counts fun _ _ type _ name override =>
          type.encodedLen_counts name override, hcontent]
        rfl
  | _ => simp [Value.asSequence?]

theorem writeFields_nil {given : Sequence Value} :
    writeFields [] given = .ok octets ↔ octets = [] := by
  simp [writeFields, eq_comm]

/-- The first field is left out, or it is written. -/
theorem writeFields_cons {field : Field Schema} {rest : List (Field Schema)} {given : Sequence Value} :
    writeFields (field :: rest) given = .ok octets ↔
      (field.lookup given = .ok none ∧ writeFields rest given = .ok octets) ∨
      ∃ value type first others, field.lookup given = .ok (some (value, type)) ∧
        octets = first ++ others ∧
        field.Derives .written (.by (type.write field.name)) first value ∧
        writeFields rest given = .ok others := by
  have hwrite {type : Schema} {first : Octets} {value : Value} :
      field.write (type.encodedLen field.name) (type.write field.name) value = .ok first ↔
        field.Derives .written (.by (type.write field.name)) first value :=
    Field.write_eq_ok_iff fun override => type.encodedLen_counts field.name override
  rw [writeFields]
  split
  · rename_i hlookup
    simp [hlookup]
  · rename_i hlookup
    simp [hlookup]
  · rename_i value type hlookup
    constructor
    · intro h
      obtain ⟨first, hfirst, h⟩ := bind_eq_ok_iff.1 h
      obtain ⟨others, hothers, h⟩ := bind_eq_ok_iff.1 h
      exact .inr ⟨value, type, first, others, hlookup, (Except.ok.inj h).symm, hwrite.1 hfirst, hothers⟩
    · rintro (⟨hnone, -⟩ | ⟨_, _, first, others, hfound, rfl, hfirst, hothers⟩)
      · simp [hlookup] at hnone
      · obtain ⟨rfl, rfl⟩ := Prod.mk.inj (Option.some.inj (Except.ok.inj (hlookup.symm.trans hfound)))
        exact bind_eq_ok_iff.2 ⟨first, hwrite.2 hfirst, bind_eq_ok_iff.2 ⟨others, hothers, rfl⟩⟩

/-- A field that is there is written somewhere. -/
theorem exists_of_writeFields {fields : List (Field Schema)} {given : Sequence Value}
    (h : writeFields fields given = .ok octets) {field : Field Schema} (hfield : field ∈ fields)
    {type : Schema} (hlookup : field.lookup given = .ok (some (value, type))) :
    ∃ first : Octets, field.Derives .written (.by (type.write field.name)) first value ∧
      first.length ≤ octets.length := by
  induction fields generalizing octets with
  | nil => simp at hfield
  | cons found rest ih =>
      obtain ⟨hnone, h⟩ | ⟨_, _, first, others, hfound, rfl, hfirst, h⟩ := writeFields_cons.1 h
      · obtain rfl | hmem := List.mem_cons.1 hfield
        · simp [hlookup] at hnone
        · exact ih h hmem
      · rw [List.length_append]
        obtain rfl | hmem := List.mem_cons.1 hfield
        · obtain ⟨rfl, rfl⟩ :=
            Prod.mk.inj (Option.some.inj (Except.ok.inj (hlookup.symm.trans hfound)))
          exact ⟨first, hfirst, by omega⟩
        · obtain ⟨other, hother, hle⟩ := ih h hmem
          exact ⟨other, hother, by omega⟩

theorem encode_eq_ok_iff {schema : Schema} :
    schema.encode value = .ok octets ↔ schema.write schema.name none value = .ok octets := by
  unfold encode
  rw [encodedLen_counts]
  cases schema.write schema.name none value with
  | error error => simp [bind, Except.bind, Except.map]
  | ok written => exact Iff.rfl

end Schema

end Asn1
