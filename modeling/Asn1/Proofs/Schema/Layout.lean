import Asn1.Schema.Ambiguity
import Asn1.Proofs.Schema.Encode

/-!
# `Asn1.Proofs.Schema.Layout` — every header written counts what follows it

A header is written before its content, with a length that the length pass found for it. The octets alone do
not show where the headers in them are. A layout keeps the parts apart: it is what the writing pass writes, as
a tree of headers around their content.

## Contents
- **Layouts.** `Layout.octets` puts the parts together, `Layout.Has` finds a header and its content in them.
- **Laying out.** `Schema.layout` and its counterparts make the steps of the writing pass, header for header.
- **Headers that are written.** `Schema.Emits` is what the writing pass itself writes as a header, and what it
  writes after it; `Schema.has_layout_iff`: these are the headers in the layout.
- **Result.** `Schema.layout_describes` by induction over the types: the layout is that of what is written,
  and its headers are right. `Schema.encode_passes_agree` is about values as a whole.
-/

namespace Asn1

/-! ## Layouts -/

/-- Encoded data as a tree: octets, or a header with the parts of its content. -/
inductive Layout where
  /-- Content octets of a value that holds no other values. -/
  | content (octets : Octets)
  /-- A header, and what is written after it as its content. -/
  | framed (header : Header) (parts : List Layout)

namespace Layout

mutual

/-- The octets of a layout. -/
def octets : Layout → Octets
  | content octets => octets
  | framed header parts => header.octets ++ octetsAll parts

/-- The octets of layouts, one after the other. -/
def octetsAll : List Layout → Octets
  | [] => []
  | part :: rest => part.octets ++ octetsAll rest

end

/-- There is a header with the given content somewhere in the layout. -/
inductive Has : Layout → Header → Octets → Prop where
  | here (header : Header) (parts : List Layout) : Has (.framed header parts) header (octetsAll parts)
  | inside {header outer : Header} {content : Octets} {part : Layout} {parts : List Layout} :
      part ∈ parts → Has part header content → Has (.framed outer parts) header content

/-- Every header has the length of what is written after it. -/
def Exact (layout : Layout) : Prop :=
  ∀ header content, layout.Has header content → header.length = .definite content.length

theorem octetsAll_of_mem {part : Layout} {parts : List Layout} (h : part ∈ parts) :
    ∃ before after, octetsAll parts = before ++ part.octets ++ after := by
  obtain ⟨before, after, rfl⟩ := List.append_of_mem h
  refine ⟨octetsAll before, octetsAll after, ?_⟩
  induction before with
  | nil => rw [List.nil_append, octetsAll, octetsAll, List.nil_append]
  | cons first before ih =>
      rw [List.cons_append, octetsAll, octetsAll, ih (List.mem_append_right _ List.mem_cons_self)]
      simp only [List.append_assoc]

/-- A header and its content stand next to each other in the octets. -/
theorem Has.exists_octets {layout : Layout} {header : Header} {content : Octets}
    (h : layout.Has header content) :
    ∃ before after, layout.octets = before ++ (header.octets ++ content) ++ after := by
  induction h with
  | here header parts => exact ⟨[], [], by rw [octets, List.nil_append, List.append_nil]⟩
  | @inside header outer content part parts hpart _ ih =>
      obtain ⟨before, after, hoctets⟩ := ih
      obtain ⟨front, back, hparts⟩ := octetsAll_of_mem hpart
      refine ⟨outer.octets ++ front ++ before, after ++ back, ?_⟩
      rw [octets, hparts, hoctets]
      simp only [List.append_assoc]

/-- A header in a tree is the outermost one, or in one of the parts. -/
theorem has_framed_iff {header outer : Header} {parts : List Layout} {content : Octets} :
    (framed outer parts).Has header content ↔
      (header = outer ∧ content = octetsAll parts) ∨ ∃ part ∈ parts, part.Has header content := by
  constructor
  · intro h
    cases h with
    | here => exact .inl ⟨rfl, rfl⟩
    | inside hmem hinner => exact .inr ⟨_, hmem, hinner⟩
  · rintro (⟨rfl, rfl⟩ | ⟨part, hmem, hinner⟩)
    · exact .here header parts
    · exact .inside hmem hinner

theorem exact_content (octets : Octets) : (content octets).Exact := nofun

/-- A header with the right length around parts whose headers are right. -/
theorem exact_framed {header : Header} {parts : List Layout}
    (hlength : header.length = .definite (octetsAll parts).length) (hparts : ∀ part ∈ parts, part.Exact) :
    (framed header parts).Exact := by
  intro found content h
  cases h with
  | here => exact hlength
  | inside hmem hinner => exact hparts _ hmem found content hinner

end Layout

/-! ## Laying out -/

/-- The layouts of items in order. -/
def layoutItems (item : Value → Except EncodeError Layout) : List Value → Except EncodeError (List Layout)
  | [] => .ok []
  | value :: rest => do
    let first ← item value
    let others ← layoutItems item rest
    return first :: others

namespace Field

variable {σ : Type}

/-- The layout of the value or repetition of a field. -/
def layoutRepeated (field : Field σ) (itemLen : Option Tag → Value → Except EncodeError Nat)
    (item : Option Tag → Value → Except EncodeError Layout) (override : Option Tag) (value : Value) :
    Except EncodeError Layout := do
  match ← field.items value with
  | none => item override value
  | some (outer, items) =>
    let length ← itemsLen (itemLen none) items
    let parts ← layoutItems (item none) items
    return .framed (.ofConstructed (override.getD outer) length) parts

/-- The layout of a field with the given value. -/
def layout (field : Field σ) (itemLen : Option Tag → Value → Except EncodeError Nat)
    (item : Option Tag → Value → Except EncodeError Layout) (value : Value) :
    Except EncodeError Layout :=
  match field.tagging with
  | none => field.layoutRepeated itemLen item none value
  | some ⟨.implicit, tag⟩ => field.layoutRepeated itemLen item (some tag) value
  | some ⟨.explicit, tag⟩ => do
    let length ← field.repeatedLen itemLen none value
    let content ← field.layoutRepeated itemLen item none value
    return .framed (.ofConstructed tag length) [content]

end Field

namespace Schema

mutual

/-- The layout of a value, header included. -/
def layout (schema : Schema) (name : String) (override : Option Tag) (value : Value) :
    Except EncodeError Layout := do
  let identifier ← schema.identifier name override value
  let length ← schema.contentLen name value
  let parts ← schema.layoutContent name value
  return .framed ⟨identifier, .definite length⟩ parts
termination_by 2 * sizeOf schema + 1

/-- The layout of the content of a value. Only a sequence has parts of its own. -/
def layoutContent (schema : Schema) (name : String) (value : Value) : Except EncodeError (List Layout) :=
  match schema with
  | sequence typeName fields =>
    match value.asSequence? with
    | none => .error (.typeMismatch typeName)
    | some given => layoutFields fields given
  | schema => do
    let content ← schema.writeContent name value
    return [.content content]
termination_by 2 * sizeOf schema

/-- The layouts of the fields of a sequence in the order of the type. -/
def layoutFields (fields : List (Field Schema)) (given : Sequence Value) :
    Except EncodeError (List Layout) :=
  match fields with
  | [] => .ok []
  | field :: rest =>
    match _h : field.lookup given with
    | .error error => .error error
    | .ok none => layoutFields rest given
    | .ok (some (value, type)) => do
      let first ← field.layout (type.encodedLen field.name) (type.layout field.name) value
      let others ← layoutFields rest given
      return first :: others
termination_by 2 * sizeOf fields
decreasing_by
  all_goals simp only [List.cons.sizeOf_spec]
  · omega
  · have := Field.sizeOf_lt_of_lookup _h
    omega
  · omega

end

end Schema

/-! ## What layouts are of -/

/-- The layout, if there is one, is that of what is written, and the headers in it are right. -/
def Describes (layout : Except EncodeError Layout) (write : Except EncodeError Octets) : Prop :=
  write = layout.map Layout.octets ∧ ∀ found, layout = .ok found → found.Exact

/-- The layouts, if there are any, are those of what is written, and the headers in them are right. -/
def DescribesAll (layouts : Except EncodeError (List Layout)) (write : Except EncodeError Octets) : Prop :=
  write = layouts.map Layout.octetsAll ∧ ∀ found, layouts = .ok found → ∀ part ∈ found, part.Exact

/-- What cannot be encoded has no layout. -/
theorem Describes.error (failure : EncodeError) : Describes (.error failure) (.error failure) :=
  ⟨rfl, fun _ h => by cases h⟩

namespace DescribesAll

variable {layout : Except EncodeError Layout} {layouts : Except EncodeError (List Layout)}
  {write writeOthers : Except EncodeError Octets}

theorem error (failure : EncodeError) : DescribesAll (.error failure) (.error failure) :=
  ⟨rfl, fun _ h => by cases h⟩

theorem nil : DescribesAll (.ok []) (.ok []) :=
  ⟨rfl, fun found hfound part hpart => by
    rw [← Except.ok.inj hfound] at hpart
    exact absurd hpart List.not_mem_nil⟩

/-- One part before the others. -/
theorem cons (h : Describes layout write) (hothers : DescribesAll layouts writeOthers) :
    DescribesAll
      (do
        let first ← layout
        let others ← layouts
        return first :: others)
      (do
        let first ← write
        let others ← writeOthers
        return first ++ others) := by
  obtain ⟨rfl, hfirst⟩ := h
  obtain ⟨rfl, hrest⟩ := hothers
  rcases layout with error | first
  · exact .error _
  · rcases layouts with error | others
    · exact .error _
    · refine ⟨rfl, fun found hfound part hpart => ?_⟩
      rw [← Except.ok.inj hfound] at hpart
      rcases List.mem_cons.1 hpart with rfl | hpart
      · exact hfirst part rfl
      · exact hrest others rfl part hpart

/-- One part by itself. -/
theorem singleton (h : Describes layout write) :
    DescribesAll
      (do
        let content ← layout
        return [content])
      write := by
  obtain ⟨rfl, hcontent⟩ := h
  rcases layout with error | content
  · exact .error _
  · refine ⟨congrArg Except.ok (List.append_nil _).symm, fun found hfound part hpart => ?_⟩
    rw [← Except.ok.inj hfound] at hpart
    rw [List.mem_singleton.1 hpart]
    exact hcontent content rfl

/-- **A header is right if its length was counted for what is written.** -/
theorem framed {count : Except EncodeError Nat} (identifier : Identifier)
    (hcount : count = write.map List.length) (h : DescribesAll layouts write) :
    Describes
      (do
        let length ← count
        let parts ← layouts
        return .framed ⟨identifier, .definite length⟩ parts)
      (do
        let length ← count
        let content ← write
        return Header.octets ⟨identifier, .definite length⟩ ++ content) := by
  obtain ⟨rfl, hparts⟩ := h
  subst hcount
  rcases layouts with error | parts
  · exact .error _
  · refine ⟨rfl, fun found hfound => ?_⟩
    rw [← Except.ok.inj hfound]
    exact Layout.exact_framed rfl (hparts parts rfl)

end DescribesAll

theorem layoutItems_describes {layout : Value → Except EncodeError Layout}
    {write : Value → Except EncodeError Octets} (h : ∀ value, Describes (layout value) (write value))
    (values : List Value) : DescribesAll (layoutItems layout values) (writeItems write values) := by
  induction values with
  | nil => exact .nil
  | cons value values ih => exact .cons (h value) ih

namespace Field

variable {σ : Type} {count : Option Tag → Value → Except EncodeError Nat}
  {layout : Option Tag → Value → Except EncodeError Layout}
  {write : Option Tag → Value → Except EncodeError Octets}

theorem layoutRepeated_describes (field : Field σ)
    (hcount : ∀ override, Counts (count override) (write override))
    (h : ∀ override value, Describes (layout override value) (write override value))
    (override : Option Tag) (value : Value) :
    Describes (field.layoutRepeated count layout override value)
      (field.writeRepeated count write override value) := by
  unfold layoutRepeated writeRepeated
  rcases field.items value with error | _ | ⟨tag, items⟩
  · exact .error _
  · exact h override value
  · exact (layoutItems_describes (h none) items).framed ⟨override.getD tag, true⟩
      (itemsLen_counts (hcount none) items)

/-- Tagging and repetition lay out what they write, if they do for items. -/
theorem layout_describes (field : Field σ) (hcount : ∀ override, Counts (count override) (write override))
    (h : ∀ override value, Describes (layout override value) (write override value)) (value : Value) :
    Describes (field.layout count layout value) (field.write count write value) := by
  have hrepeated (override : Option Tag) := field.layoutRepeated_describes hcount h override value
  unfold Field.layout Field.write
  rcases field.tagging with _ | ⟨_ | _, tag⟩
  · exact hrepeated none
  · exact hrepeated (some tag)
  · -- The wrapper of an explicit tag has a single part.
    have hwrapped := (DescribesAll.singleton (hrepeated none)).framed ⟨tag, true⟩
      (field.repeatedLen_counts hcount none value)
    simp only [bind_assoc, pure_bind] at hwrapped
    exact hwrapped

end Field

namespace Schema

/-- The fields of a sequence are laid out as they are written, if values of their types are. -/
theorem layoutFields_describes {fields : List (Field Schema)}
    (htypes : ∀ field ∈ fields, ∀ type ∈ field.type.types, ∀ name override value,
      Describes (type.layout name override value) (type.write name override value))
    (given : Sequence Value) : DescribesAll (layoutFields fields given) (writeFields fields given) := by
  induction fields with
  | nil =>
      rw [layoutFields, writeFields]
      exact .nil
  | cons field rest ih =>
      have ih := ih fun field hfield => htypes field (List.mem_cons_of_mem _ hfield)
      rw [layoutFields, writeFields]
      rcases hlookup : field.lookup given with error | _ | ⟨value, type⟩
      · exact .error _
      · exact ih
      · have htype := Field.resolve?_mem (Field.lookup_eq_some_iff.1 hlookup).2
        have hfield := field.layout_describes (fun override => type.encodedLen_counts field.name override)
          (htypes field List.mem_cons_self type htype field.name) value
        exact .cons hfield ih

/-- Content without parts is laid out as it is. -/
theorem content_describes (write : Except EncodeError Octets) :
    DescribesAll
      (do
        let content ← write
        return [.content content])
      write := by
  have h : Describes (write.map .content) write := by
    rcases write with error | content
    · exact .error _
    · refine ⟨congrArg Except.ok (by rw [Layout.octets]), fun found hfound => ?_⟩
      rw [← Except.ok.inj hfound]
      exact Layout.exact_content content
  rcases write with error | content
  · exact .singleton h
  · exact .singleton h

/-- A value is laid out as it is written, if its content is. -/
theorem layout_describes_of_content {schema : Schema} {name : String} {override : Option Tag}
    {value : Value} (h : DescribesAll (schema.layoutContent name value) (schema.writeContent name value)) :
    Describes (schema.layout name override value) (schema.write name override value) := by
  rw [layout, write]
  rcases schema.identifier name override value with error | identifier
  · exact .error _
  · rcases hlength : schema.contentLen name value with error | length
    · -- Unknown fields of a sequence are noticed by the length pass only.
      exact .error _
    · obtain ⟨content, hcontent, rfl⟩ := writeContent_of_contentLen
        (fun _ _ _ => fieldsLen_counts fun _ _ type _ name override => type.encodedLen_counts name override)
        hlength
      have hcount : Except.ok content.length = (schema.writeContent name value).map List.length := by
        rw [hcontent]
        rfl
      exact h.framed identifier hcount

/-- The content of a value is laid out as it is written, for every type and value. -/
theorem layoutContent_describes (schema : Schema) (name : String) (value : Value) :
    DescribesAll (schema.layoutContent name value) (schema.writeContent name value) := by
  induction schema using Schema.induction generalizing name value with
  | primitive tag =>
      rw [layoutContent]
      · exact content_describes _
      · intro _ _ h
        cases h
  | any =>
      rw [layoutContent]
      · exact content_describes _
      · intro _ _ h
        cases h
  | sequence typeName fields ih =>
      rw [layoutContent, writeContent]
      cases value.asSequence? with
      | none => exact .error _
      | some given =>
          exact layoutFields_describes (fun field hfield type htype name _ value =>
            layout_describes_of_content (ih field hfield type htype name value)) given

/-- **The layout is that of what is written, and its headers are right**, for every type and value. -/
theorem layout_describes (schema : Schema) (name : String) (override : Option Tag) (value : Value) :
    Describes (schema.layout name override value) (schema.write name override value) :=
  layout_describes_of_content (schema.layoutContent_describes name value)

end Schema

/-! ## Headers that are written -/

namespace Field

variable {σ : Type} (field : Field σ) (count : Option Tag → Value → Except EncodeError Nat)
  (write : Option Tag → Value → Except EncodeError Octets) (value : Value) (header : Header) (content : Octets)

/-- The header of an explicit tag, with the length that is counted, and what is written after it. -/
def WritesWrapper : Prop :=
  ∃ tag length, field.tagging = some ⟨.explicit, tag⟩ ∧ field.repeatedLen count none value = .ok length ∧
    field.writeRepeated count write none value = .ok content ∧ header = .ofConstructed tag length

/-- The header of a repetition, with the length that is counted, and what is written after it. -/
def WritesRepetition : Prop :=
  ∃ outer items length, field.items value = .ok (some (outer, items)) ∧
    itemsLen (count none) items = .ok length ∧ writeItems (write none) items = .ok content ∧
    header = .ofConstructed (field.implicitTag?.getD outer) length

end Field

/-- The writing pass writes the header, and the content right after it, at the value or somewhere inside it. The
    header has the length that the length pass finds at this place. -/
inductive Schema.Emits : Schema → String → Option Tag → Value → Header → Octets → Prop where
  /-- Every value has a header. -/
  | value {schema : Schema} {name : String} {override : Option Tag} {value : Value} {identifier : Identifier}
      {length : Nat} {content : Octets} :
      schema.identifier name override value = .ok identifier → schema.contentLen name value = .ok length →
      schema.writeContent name value = .ok content →
      Emits schema name override value ⟨identifier, .definite length⟩ content
  /-- An explicit tag has a header. -/
  | wrapper {typeName name : String} {fields : List (Field Schema)} {override : Option Tag}
      {given : Sequence Value} {field : Field Schema} {value : Value} {type : Schema} {header : Header}
      {content : Octets} : field ∈ fields → field.lookup given = .ok (some (value, type)) →
      field.WritesWrapper (type.encodedLen field.name) (type.write field.name) value header content →
      Emits (.sequence typeName fields) name override (.sequence given) header content
  /-- A repetition has a header. -/
  | repetition {typeName name : String} {fields : List (Field Schema)} {override : Option Tag}
      {given : Sequence Value} {field : Field Schema} {value : Value} {type : Schema} {header : Header}
      {content : Octets} : field ∈ fields → field.lookup given = .ok (some (value, type)) →
      field.WritesRepetition (type.encodedLen field.name) (type.write field.name) value header content →
      Emits (.sequence typeName fields) name override (.sequence given) header content
  /-- The value of a field has headers, and so do the items of a repetition. -/
  | item {typeName name : String} {fields : List (Field Schema)} {override : Option Tag}
      {given : Sequence Value} {field : Field Schema} {value item : Value} {type : Schema} {header : Header}
      {content : Octets} : field ∈ fields → field.lookup given = .ok (some (value, type)) →
      item ∈ field.parts value → Emits type field.name field.itemTag? item header content →
      Emits (.sequence typeName fields) name override (.sequence given) header content

/-- A header in the layouts of items is in that of one of them. -/
theorem has_layoutItems_iff {layout : Value → Except EncodeError Layout} {values : List Value}
    {parts : List Layout} (h : layoutItems layout values = .ok parts) {header : Header} {content : Octets} :
    (∃ part ∈ parts, part.Has header content) ↔
      ∃ value ∈ values, ∃ part, layout value = .ok part ∧ part.Has header content := by
  induction values generalizing parts with
  | nil =>
      obtain rfl := Except.ok.inj h
      simp
  | cons value rest ih =>
      obtain ⟨first, hfirst, h⟩ := bind_eq_ok_iff.1 h
      obtain ⟨others, hothers, h⟩ := bind_eq_ok_iff.1 h
      obtain rfl := Except.ok.inj h
      simp [hfirst, ih hothers]

/-- Where items are laid out, each of them is. -/
theorem exists_layout_of_layoutItems {layout : Value → Except EncodeError Layout} {values : List Value}
    {parts : List Layout} (h : layoutItems layout values = .ok parts) {value : Value} (hvalue : value ∈ values) :
    ∃ part, layout value = .ok part := by
  induction values generalizing parts with
  | nil => cases hvalue
  | cons first rest ih =>
      obtain ⟨part, hpart, h⟩ := bind_eq_ok_iff.1 h
      obtain ⟨others, hothers, -⟩ := bind_eq_ok_iff.1 h
      rcases List.mem_cons.1 hvalue with rfl | hmem
      · exact ⟨part, hpart⟩
      · exact ih hothers hmem

namespace Field

variable {σ : Type} {field : Field σ} {count : Option Tag → Value → Except EncodeError Nat}
  {layout : Option Tag → Value → Except EncodeError Layout}
  {write : Option Tag → Value → Except EncodeError Octets} {value : Value} {header : Header} {content : Octets}

theorem items_eq_none_iff : field.items value = .ok none ↔ field.repetition = .single := by
  unfold items
  cases field.repetition with
  | single => simp
  | setOf => cases value <;> simp
  | sequenceOf => cases value <;> simp

/-- The items of a repetition are the parts of the field, under tags of their own. -/
theorem parts_of_items {outer : Tag} {found : List Value} (h : field.items value = .ok (some (outer, found))) :
    field.parts value = found ∧ field.itemTag? = none := by
  unfold items at h
  unfold parts itemTag?
  cases hrepetition : field.repetition with
  | single => simp [hrepetition] at h
  | setOf => cases value <;> simp_all
  | sequenceOf => cases value <;> simp_all

/-- A header in the layout of a value or repetition is that of the repetition, or in one of the items. -/
theorem has_layoutRepeated_iff
    (hdescribes : ∀ override value, Describes (layout override value) (write override value))
    {part : Layout} (h : field.layoutRepeated count layout field.implicitTag? value = .ok part) :
    part.Has header content ↔
      field.WritesRepetition count write value header content ∨
      ∃ item ∈ field.parts value, ∃ inner, layout field.itemTag? item = .ok inner ∧
        inner.Has header content := by
  obtain ⟨found, hfound, h⟩ := bind_eq_ok_iff.1 h
  cases found with
  | none =>
      have hsingle := items_eq_none_iff.1 hfound
      have hnone : ¬ field.WritesRepetition count write value header content := by
        rintro ⟨outer, items, length, hitems, -⟩
        cases hfound.symm.trans hitems
      have hparts : field.parts value = [value] := by simp only [parts, hsingle]
      have htag : field.itemTag? = field.implicitTag? := by rw [itemTag?, hsingle]
      simp only [hnone, false_or, hparts, List.mem_singleton, exists_eq_left, htag]
      constructor
      · intro hhas
        exact ⟨part, h, hhas⟩
      · rintro ⟨inner, hinner, hhas⟩
        obtain rfl := Except.ok.inj (hinner.symm.trans h)
        exact hhas
  | some found =>
      obtain ⟨outer, items⟩ := found
      obtain ⟨hparts, htag⟩ := parts_of_items hfound
      obtain ⟨length, hlength, h⟩ := bind_eq_ok_iff.1 h
      obtain ⟨inner, hinner, h⟩ := bind_eq_ok_iff.1 h
      obtain rfl := Except.ok.inj h
      have hwrite : writeItems (write none) items = .ok (Layout.octetsAll inner) := by
        rw [(layoutItems_describes (hdescribes none) items).1, hinner]
        rfl
      rw [Layout.has_framed_iff, has_layoutItems_iff hinner, hparts, htag]
      refine or_congr_left ?_
      constructor
      · rintro ⟨rfl, rfl⟩
        exact ⟨outer, items, length, hfound, hlength, hwrite, rfl⟩
      · rintro ⟨_, _, _, hitems, hcount, hcontent, rfl⟩
        obtain ⟨rfl, rfl⟩ := Prod.mk.inj (Option.some.inj (Except.ok.inj (hfound.symm.trans hitems)))
        obtain rfl := Except.ok.inj (hlength.symm.trans hcount)
        exact ⟨rfl, Except.ok.inj (hcontent.symm.trans hwrite)⟩

/-- A header in the layout of a field is that of an explicit tag, of a repetition, or in one of the items. -/
theorem has_layout_iff (hcount : ∀ override, Counts (count override) (write override))
    (hdescribes : ∀ override value, Describes (layout override value) (write override value))
    {part : Layout} (h : field.layout count layout value = .ok part) :
    part.Has header content ↔
      field.WritesWrapper count write value header content ∨
      field.WritesRepetition count write value header content ∨
      ∃ item ∈ field.parts value, ∃ inner, layout field.itemTag? item = .ok inner ∧
        inner.Has header content := by
  have hrepeated {part : Layout} (h : field.layoutRepeated count layout field.implicitTag? value = .ok part) :
      part.Has header content ↔ field.WritesRepetition count write value header content ∨
        ∃ item ∈ field.parts value, ∃ inner, layout field.itemTag? item = .ok inner ∧ inner.Has header content :=
    has_layoutRepeated_iff hdescribes h
  unfold Field.layout at h
  unfold WritesWrapper
  rcases htagging : field.tagging with _ | ⟨_ | _, tag⟩
  · rw [htagging] at h
    have htag : field.implicitTag? = none := by rw [implicitTag?, htagging]
    rw [hrepeated (htag ▸ h)]
    simp
  · rw [htagging] at h
    have htag : field.implicitTag? = some tag := by rw [implicitTag?, htagging]
    rw [hrepeated (htag ▸ h)]
    simp
  · rw [htagging] at h
    have htag : field.implicitTag? = none := by rw [implicitTag?, htagging]
    obtain ⟨length, hlength, h⟩ := bind_eq_ok_iff.1 h
    obtain ⟨inner, hinner, h⟩ := bind_eq_ok_iff.1 h
    obtain rfl := Except.ok.inj h
    have hwrite : field.writeRepeated count write none value = .ok inner.octets := by
      rw [(field.layoutRepeated_describes hcount hdescribes none value).1, hinner]
      rfl
    have hinside : (∃ part ∈ [inner], part.Has header content) ↔ inner.Has header content := by simp
    rw [Layout.has_framed_iff, hinside, hrepeated (htag ▸ hinner)]
    refine or_congr_left ?_
    have hsingle : Layout.octetsAll [inner] = inner.octets := List.append_nil _
    rw [hsingle]
    constructor
    · rintro ⟨rfl, rfl⟩
      exact ⟨tag, length, rfl, hlength, hwrite, rfl⟩
    · rintro ⟨_, _, htagged, hcounted, hcontent, rfl⟩
      cases htagged
      obtain rfl := Except.ok.inj (hlength.symm.trans hcounted)
      exact ⟨rfl, Except.ok.inj (hcontent.symm.trans hwrite)⟩

/-- Where a field is laid out, its items are. -/
theorem exists_layout_of_mem_parts {part : Layout} (h : field.layout count layout value = .ok part) {item : Value}
    (hitem : item ∈ field.parts value) : ∃ inner, layout field.itemTag? item = .ok inner := by
  obtain ⟨repeated, hrepeated⟩ :
      ∃ repeated, field.layoutRepeated count layout field.implicitTag? value = .ok repeated := by
    unfold Field.layout at h
    unfold implicitTag?
    rcases htagging : field.tagging with _ | ⟨_ | _, tag⟩
    · rw [htagging] at h
      exact ⟨part, h⟩
    · rw [htagging] at h
      exact ⟨part, h⟩
    · rw [htagging] at h
      obtain ⟨_, -, h⟩ := bind_eq_ok_iff.1 h
      obtain ⟨inner, hinner, -⟩ := bind_eq_ok_iff.1 h
      exact ⟨inner, hinner⟩
  obtain ⟨found, hfound, h⟩ := bind_eq_ok_iff.1 hrepeated
  cases found with
  | none =>
      have hsingle := items_eq_none_iff.1 hfound
      simp only [parts, hsingle, List.mem_singleton] at hitem
      rw [itemTag?, hsingle, hitem]
      exact ⟨repeated, h⟩
  | some found =>
      obtain ⟨outer, items⟩ := found
      obtain ⟨hparts, htag⟩ := parts_of_items hfound
      obtain ⟨_, -, h⟩ := bind_eq_ok_iff.1 h
      obtain ⟨inner, hinner, -⟩ := bind_eq_ok_iff.1 h
      rw [hparts] at hitem
      rw [htag]
      exact exists_layout_of_layoutItems hinner hitem

end Field

namespace Schema

/-- The writing pass writes the header, and the content after it, for a field that is there: for its explicit tag,
    for its repetition, or in one of its items. -/
def EmitsField (field : Field Schema) (type : Schema) (value : Value) (header : Header) (content : Octets) : Prop :=
  field.WritesWrapper (type.encodedLen field.name) (type.write field.name) value header content ∨
  field.WritesRepetition (type.encodedLen field.name) (type.write field.name) value header content ∨
  ∃ item ∈ field.parts value, type.Emits field.name field.itemTag? item header content

variable {header : Header} {content : Octets}

/-- A header in the layout of a field is one that is written for it, if that is so for values of its type. -/
theorem has_fieldLayout_iff {field : Field Schema} {type : Schema} {value : Value} {part : Layout}
    (htype : ∀ name override value layout, type.layout name override value = .ok layout →
      (layout.Has header content ↔ type.Emits name override value header content))
    (h : field.layout (type.encodedLen field.name) (type.layout field.name) value = .ok part) :
    part.Has header content ↔ EmitsField field type value header content := by
  have hcount (override : Option Tag) := type.encodedLen_counts field.name override
  rw [Field.has_layout_iff hcount (type.layout_describes field.name) h]
  refine or_congr_right (or_congr_right (exists_congr fun item => and_congr_right fun hitem => ?_))
  constructor
  · rintro ⟨inner, hinner, hhas⟩
    exact (htype _ _ _ _ hinner).1 hhas
  · intro hemits
    obtain ⟨inner, hinner⟩ := Field.exists_layout_of_mem_parts h hitem
    exact ⟨inner, hinner, (htype _ _ _ _ hinner).2 hemits⟩

/-- A header in the layouts of fields is one that is written for a field that is there, if that is so for values of
    their types. -/
theorem has_layoutFields_iff {fields : List (Field Schema)} {given : Sequence Value} {parts : List Layout}
    (htypes : ∀ field ∈ fields, ∀ type ∈ field.type.types, ∀ name override value layout,
      type.layout name override value = .ok layout →
        (layout.Has header content ↔ type.Emits name override value header content))
    (h : layoutFields fields given = .ok parts) :
    (∃ part ∈ parts, part.Has header content) ↔
      ∃ field ∈ fields, ∃ value type, field.lookup given = .ok (some (value, type)) ∧
        EmitsField field type value header content := by
  induction fields generalizing parts with
  | nil =>
      rw [layoutFields] at h
      obtain rfl := Except.ok.inj h
      simp
  | cons field rest ih =>
      have ih {parts : List Layout} :=
        @ih parts fun other hother => htypes other (List.mem_cons_of_mem _ hother)
      rw [layoutFields] at h
      split at h
      · cases h
      · rename_i hnone
        simp [ih h, hnone]
      · rename_i value type hlookup
        obtain ⟨first, hfirst, h⟩ := bind_eq_ok_iff.1 h
        obtain ⟨others, hothers, h⟩ := bind_eq_ok_iff.1 h
        obtain rfl := Except.ok.inj h
        have htype := Field.resolve?_mem (Field.lookup_eq_some_iff.1 hlookup).2
        have hfield := has_fieldLayout_iff (htypes field List.mem_cons_self type htype) hfirst
        simp [ih hothers, hfield, hlookup]

/-- A header in the layout of a value is its own, or inside its content. -/
theorem has_layout_iff_of_content {schema : Schema} {name : String} {override : Option Tag} {value : Value}
    {layout : Layout} (h : schema.layout name override value = .ok layout) {inside : Prop}
    (hinside : ∀ parts, schema.layoutContent name value = .ok parts →
      ((∃ part ∈ parts, part.Has header content) ↔ inside)) :
    layout.Has header content ↔
      (∃ identifier length, schema.identifier name override value = .ok identifier ∧
        schema.contentLen name value = .ok length ∧ schema.writeContent name value = .ok content ∧
        header = ⟨identifier, .definite length⟩) ∨ inside := by
  rw [Schema.layout] at h
  obtain ⟨identifier, hidentifier, h⟩ := bind_eq_ok_iff.1 h
  obtain ⟨length, hlength, h⟩ := bind_eq_ok_iff.1 h
  obtain ⟨parts, hparts, h⟩ := bind_eq_ok_iff.1 h
  obtain rfl := Except.ok.inj h
  have hwrite : schema.writeContent name value = .ok (Layout.octetsAll parts) := by
    rw [(schema.layoutContent_describes name value).1, hparts]
    rfl
  rw [Layout.has_framed_iff, hinside parts hparts]
  refine or_congr_left ?_
  constructor
  · rintro ⟨rfl, rfl⟩
    exact ⟨identifier, length, hidentifier, hlength, hwrite, rfl⟩
  · rintro ⟨_, _, hfound, hcounted, hcontent, rfl⟩
    obtain rfl := Except.ok.inj (hidentifier.symm.trans hfound)
    obtain rfl := Except.ok.inj (hlength.symm.trans hcounted)
    exact ⟨rfl, Except.ok.inj (hcontent.symm.trans hwrite)⟩

/-- A value without parts of its own has one header. -/
theorem has_layout_iff_of_leaf {schema : Schema} {name : String} {override : Option Tag} {value : Value}
    {layout : Layout} (hschema : ∀ typeName fields, schema ≠ sequence typeName fields)
    (h : schema.layout name override value = .ok layout) :
    layout.Has header content ↔ schema.Emits name override value header content := by
  have hinside (parts : List Layout) (hparts : schema.layoutContent name value = .ok parts) :
      (∃ part ∈ parts, part.Has header content) ↔ False := by
    rw [layoutContent] at hparts
    · obtain ⟨octets, -, hparts⟩ := bind_eq_ok_iff.1 hparts
      obtain rfl := Except.ok.inj hparts
      simp only [List.mem_singleton, exists_eq_left, iff_false]
      exact nofun
    · exact hschema
  rw [has_layout_iff_of_content h hinside]
  constructor
  · rintro (⟨identifier, length, hidentifier, hlength, hcontent, rfl⟩ | ⟨⟨⟩⟩)
    exact .value hidentifier hlength hcontent
  · intro hemits
    cases hemits with
    | value hidentifier hlength hcontent => exact .inl ⟨_, _, hidentifier, hlength, hcontent, rfl⟩
    | wrapper => exact absurd rfl (hschema _ _)
    | repetition => exact absurd rfl (hschema _ _)
    | item => exact absurd rfl (hschema _ _)

/-- **The headers in a layout are those that the writing pass writes**, with what it writes after them. -/
theorem has_layout_iff {schema : Schema} {name : String} {override : Option Tag} {value : Value} {layout : Layout}
    (h : schema.layout name override value = .ok layout) :
    layout.Has header content ↔ schema.Emits name override value header content := by
  induction schema using Schema.induction generalizing name override value layout header content with
  | primitive tag => exact has_layout_iff_of_leaf (fun _ _ h => by cases h) h
  | any => exact has_layout_iff_of_leaf (fun _ _ h => by cases h) h
  | sequence typeName fields ih =>
      have hinside (parts : List Layout)
          (hparts : (sequence typeName fields).layoutContent name value = .ok parts) :
          (∃ part ∈ parts, part.Has header content) ↔ ∃ given, value = .sequence given ∧ ∃ field ∈ fields,
            ∃ value type, field.lookup given = .ok (some (value, type)) ∧
              EmitsField field type value header content := by
        rw [layoutContent] at hparts
        cases value with
        | sequence given =>
            rw [has_layoutFields_iff (fun field hfield type htype _ _ _ _ => ih field hfield type htype) hparts]
            simp
        | _ => cases hparts
      rw [has_layout_iff_of_content h hinside]
      constructor
      · rintro (⟨identifier, length, hidentifier, hlength, hcontent, rfl⟩ |
          ⟨given, rfl, field, hmem, value, type, hlookup, hwrites | hwrites | ⟨item, hitem, hemits⟩⟩)
        · exact .value hidentifier hlength hcontent
        · exact .wrapper hmem hlookup hwrites
        · exact .repetition hmem hlookup hwrites
        · exact .item hmem hlookup hitem hemits
      · intro hemits
        cases hemits with
        | value hidentifier hlength hcontent => exact .inl ⟨_, _, hidentifier, hlength, hcontent, rfl⟩
        | wrapper hmem hlookup hwrites => exact .inr ⟨_, rfl, _, hmem, _, _, hlookup, .inl hwrites⟩
        | repetition hmem hlookup hwrites => exact .inr ⟨_, rfl, _, hmem, _, _, hlookup, .inr (.inl hwrites)⟩
        | item hmem hlookup hitem hemits =>
            exact .inr ⟨_, rfl, _, hmem, _, _, hlookup, .inr (.inr ⟨_, hitem, hemits⟩)⟩

/-! ## Result -/

/-- **The two passes agree.** Where the length pass finds a length, the writing pass writes as many octets,
    and at every level of them the length in the header is that of the content after it. These are all the headers
    that the writing pass writes. Encoding fails exactly as the length pass does. -/
theorem encode_passes_agree (schema : Schema) (value : Value) :
    (∀ name override length, schema.encodedLen name override value = .ok length →
      ∃ layout, schema.layout name override value = .ok layout ∧
        schema.write name override value = .ok layout.octets ∧ layout.octets.length = length ∧
        (∀ header content, layout.Has header content →
          header.length = .definite content.length ∧
          ∃ before after, layout.octets = before ++ (header.octets ++ content) ++ after) ∧
        ∀ header content, schema.Emits name override value header content ↔ layout.Has header content) ∧
      ∀ error, schema.encode value = .error error ↔
        schema.encodedLen schema.name none value = .error error := by
  constructor
  · intro name override length hlength
    obtain ⟨hwrite, hexact⟩ := schema.layout_describes name override value
    rw [schema.encodedLen_counts name override value, hwrite] at hlength
    rcases hlayout : schema.layout name override value with error | layout
    · simp [hlayout, Except.map] at hlength
    · rw [hlayout] at hwrite hlength
      refine ⟨layout, rfl, hwrite, Except.ok.inj hlength, fun header content h => ?_,
        fun header content => (has_layout_iff hlayout).symm⟩
      exact ⟨hexact layout hlayout header content h, h.exists_octets⟩
  · intro error
    have hcount := schema.encodedLen_counts schema.name none value
    rw [encode, hcount]
    rcases schema.write schema.name none value with failure | octets
    · show (Except.error failure : Except EncodeError Octets) = .error error ↔
        (Except.error failure : Except EncodeError Nat) = .error error
      rw [Except.error.injEq, Except.error.injEq]
    · constructor
      · exact nofun
      · exact nofun

/-- A type that cannot be decoded, as its two fields have the same tag: an optional INTEGER and a wrapped
    SEQUENCE OF NULL that only the value without the first one tells apart. -/
def unvalidated : Schema :=
  .sequence "Unvalidated"
    [{ name := "number", type := .fixed (.primitive .integer),
       tagging := some ⟨.implicit, .contextSpecific 0⟩, optional := true },
     { name := "nulls", type := .fixed (.primitive .null),
       tagging := some ⟨.explicit, .contextSpecific 0⟩, repetition := .sequenceOf }]

/-- A value of this type with one NULL. -/
def oneNull : Value := .sequence ⟨[("nulls", .sequenceOf [.null])], none⟩

/-- Three headers around that of a NULL, in a type that is ambiguous. They are all headers that are written. -/
theorem encode_passes_agree_unvalidated :
    unvalidated.ambiguousField? = some "number" ∧
      unvalidated.encodedLen "Unvalidated" none oneNull = .ok 8 ∧
      unvalidated.write "Unvalidated" none oneNull = .ok [0x30, 0x06, 0xA0, 0x04, 0x30, 0x02, 0x05, 0x00] ∧
      ∀ header content, unvalidated.Emits "Unvalidated" none oneNull header content ↔
        (header = ⟨⟨.sequence, true⟩, .definite 6⟩ ∧ content = [0xA0, 0x04, 0x30, 0x02, 0x05, 0x00]) ∨
        (header = ⟨⟨.contextSpecific 0, true⟩, .definite 4⟩ ∧ content = [0x30, 0x02, 0x05, 0x00]) ∨
        (header = ⟨⟨.sequence, true⟩, .definite 2⟩ ∧ content = [0x05, 0x00]) ∨
        (header = ⟨⟨.null, false⟩, .definite 0⟩ ∧ content = []) := by
  have hlength : unvalidated.encodedLen "Unvalidated" none oneNull = .ok 8 := by cbv
  have hlayout : unvalidated.layout "Unvalidated" none oneNull =
      .ok (.framed ⟨⟨.sequence, true⟩, .definite 6⟩
        [.framed ⟨⟨.contextSpecific 0, true⟩, .definite 4⟩
          [.framed ⟨⟨.sequence, true⟩, .definite 2⟩
            [.framed ⟨⟨.null, false⟩, .definite 0⟩ [.content []]]]]) := by
    cbv
  obtain ⟨layout, hfound, hwrite, -, -, hemits⟩ := (encode_passes_agree unvalidated oneNull).1 _ _ _ hlength
  obtain rfl := Except.ok.inj (hlayout.symm.trans hfound)
  refine ⟨by cbv, hlength, hwrite.trans rfl, fun header content => ?_⟩
  have hnothing : ¬ (Layout.content []).Has header content := by
    intro hhas
    cases hhas
  rw [hemits]
  simp only [Layout.has_framed_iff, List.mem_singleton, exists_eq_left, hnothing, or_false]
  rfl

end Schema

end Asn1
