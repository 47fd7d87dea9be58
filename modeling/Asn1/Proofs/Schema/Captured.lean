import Asn1.Certificate.Schema
import Asn1.Proofs.Schema.Decode

/-!
# `Asn1.Proofs.Schema.Captured` — what a sequence captures, and where it was

Every value that is decoded comes from a stretch of the data. For a sequence that stretch is what it
captured: its header and, one after the other, its fields. None of this depends on what is around the
stretch, so reading it alone gives the sequence again.

## Contents
- **Stretches.** `Window.Within`, `Window.Tiles` and `Window.Opens` say how windows on the data lie.
- **Readings.** A `Reading` is a value with the stretch it is read off, a `FieldReading` the same for a field.
  `FieldsRead` goes through the fields of a sequence, `FieldReading.HasItems` through the items of a field.
- **Depth.** `Reading.Contains` leads to the readings inside a reading, `Value.Contains` to the sequences inside a
  value. `Reading.exists_contains` leads to all of them, `Reading.Contains.within` inside the same data.
- **Result.** `Schema.captured_of_decode`.
-/

namespace Asn1

/-! ## Stretches -/

namespace Window

/-- The window is a stretch of the other one, and at its place. -/
def Within (inner outer : Window) : Prop :=
  ∃ before after, outer.octets = before ++ inner.octets ++ after ∧ inner.pos = outer.pos + before.length

/-- The windows follow one another, and the last of them ends where the stretch does. -/
inductive Tiles : List Window → Window → Prop
  | nil {pos : Nat} : Tiles [] ⟨pos, []⟩
  | cons {first : Window} {others : List Window} {rest : Octets} :
      Tiles others ⟨first.stop, rest⟩ → Tiles (first :: others) ⟨first.pos, first.octets ++ rest⟩

/-- The window is a value with the identifier and the content: a header that counts all that follows it. -/
def Opens (mode : Mode) (identifier : Identifier) (outer content : Window) : Prop :=
  ∃ head, outer.octets = head ++ content.octets ∧ content.pos = outer.pos + head.length ∧
    Header.read mode outer.octets 0 outer.octets.length =
      .ok (⟨identifier, .definite content.octets.length⟩, head.length)

theorem Within.refl (window : Window) : window.Within window :=
  ⟨[], [], by simp, rfl⟩

theorem Within.trans {inner middle outer : Window} (h : inner.Within middle) (houter : middle.Within outer) :
    inner.Within outer := by
  obtain ⟨before, after, hoctets, hpos⟩ := h
  obtain ⟨front, back, hfront, hfrontPos⟩ := houter
  refine ⟨front ++ before, after ++ back, ?_, ?_⟩
  · rw [hfront, hoctets]
    simp only [List.append_assoc]
  · rw [hpos, hfrontPos, List.length_append, Nat.add_assoc]

/-- Each of the windows that make up a stretch is within it. -/
theorem Tiles.within {parts : List Window} {whole part : Window} (h : Tiles parts whole)
    (hpart : part ∈ parts) : part.Within whole := by
  induction h with
  | nil => cases hpart
  | @cons first others rest _ ih =>
      rcases List.mem_cons.1 hpart with rfl | hmem
      · exact ⟨[], rest, rfl, rfl⟩
      · refine (ih hmem).trans ⟨first.octets, [], ?_, rfl⟩
        rw [List.append_nil]

theorem opens_iff {mode : Mode} {identifier : Identifier} {outer content : Window} :
    outer.Opens mode identifier content ↔ Framed mode identifier content.octets outer.octets ∧
      content.pos = outer.pos + (outer.octets.length - content.octets.length) := by
  rw [Framed.iff_read]
  constructor
  · rintro ⟨head, hoctets, hpos, hread⟩
    refine ⟨⟨head, hoctets, hread⟩, ?_⟩
    rw [hpos, hoctets, List.length_append, Nat.add_sub_cancel]
  · rintro ⟨⟨head, hoctets, hread⟩, hpos⟩
    refine ⟨head, hoctets, ?_, hread⟩
    rw [hpos, hoctets, List.length_append, Nat.add_sub_cancel]

/-- What is framed has its content at some place inside. -/
theorem exists_opens {mode : Mode} {identifier : Identifier} {outer : Window} {content : Octets}
    (h : Framed mode identifier content outer.octets) :
    ∃ pos, outer.Opens mode identifier ⟨pos, content⟩ :=
  ⟨outer.pos + (outer.octets.length - content.length), opens_iff.2 ⟨h, rfl⟩⟩

theorem Opens.within {mode : Mode} {identifier : Identifier} {outer content : Window}
    (h : outer.Opens mode identifier content) : content.Within outer := by
  obtain ⟨head, hoctets, hpos, -⟩ := h
  exact ⟨head, [], by rw [hoctets, List.append_nil], hpos⟩

end Window

/-- A reader takes all of a window if the window is an encoding of the value. -/
theorem Recognizes.whole_iff {reader : Window → Except DecodeError (Value × Window)}
    {encodes : Octets → Value → Prop} (h : Recognizes reader encodes) {window : Window} {value : Value} :
    reader window = .ok (value, ⟨window.stop, []⟩) ↔ encodes window.octets value := by
  rw [h]
  constructor
  · rintro ⟨front, hfront, hoctets, -⟩
    rwa [hoctets, List.append_nil]
  · intro hwhole
    exact ⟨window.octets, hwhole, (List.append_nil _).symm, rfl⟩

/-! ## Readings -/

/-- A value that is read off a stretch of the data, with the type and the tag that it is read with. -/
structure Reading (mode : Mode) where
  schema : Schema
  override : Option Tag
  /-- The complete encoding of the value. -/
  span : Window
  value : Value
  reads : ∀ name, schema.read mode name override span = .ok (value, ⟨span.stop, []⟩)

/-- A field that is read off a stretch of the data, with the type that it has. -/
structure FieldReading (mode : Mode) where
  field : Field Schema
  type : Schema
  /-- The complete encoding of the field. -/
  span : Window
  value : Value
  reads : field.read mode (type.read mode field.name) span = .ok (value, ⟨span.stop, []⟩)

variable {mode : Mode}

/-- Fields are read from a window, in order and after the known ones, and these are found. An optional
    field that is not found is passed over. -/
inductive FieldsRead : List (Field Schema) → Sequence Value → Window → List (FieldReading mode) → Prop
  | done {known : Sequence Value} {pos : Nat} : FieldsRead [] known ⟨pos, []⟩ []
  | skip {field : Field Schema} {rest : List (Field Schema)} {known : Sequence Value} {window : Window}
      {found : List (FieldReading mode)} : field.optional = true →
      OmissionRule.byTag mode field known window.octets → FieldsRead rest known window found →
      FieldsRead (field :: rest) known window found
  | take (part : FieldReading mode) {rest : List (Field Schema)} {known : Sequence Value} {after : Octets}
      {found : List (FieldReading mode)} : part.field.resolve? known = some part.type →
      FieldsRead rest (known.push part.field.name part.value) ⟨part.span.stop, after⟩ found →
      FieldsRead (part.field :: rest) known ⟨part.span.pos, part.span.octets ++ after⟩ (part :: found)

namespace FieldReading

/-- The field as an entry of its sequence. -/
def entry (part : FieldReading mode) : String × Value := (part.field.name, part.value)

/-- Where the value or repetition of the field is: inside the wrapper of an explicit tag, if it has one. -/
def Unwraps (part : FieldReading mode) (inner : Window) : Prop :=
  match part.field.tagging with
  | some ⟨.explicit, tag⟩ => part.span.Opens mode ⟨tag, true⟩ inner
  | _ => inner = part.span

/-- The value of the field by itself, or the items of a repetition one after the other. The tag of a
    repetition is not that of its items. -/
structure HasItems (part : FieldReading mode) (items : List (Reading mode)) : Prop where
  schema : ∀ item ∈ items, item.schema = part.type
  value : items.map (·.value) = part.field.parts part.value
  span : ∃ inner, part.Unwraps inner ∧
    match part.field.repetition.tag? with
    | none => items.map (·.span) = [inner] ∧ ∀ item ∈ items, item.override = part.field.implicitTag?
    | some tag => ∃ content, inner.Opens mode ⟨part.field.implicitTag?.getD tag, true⟩ content ∧
        Window.Tiles (items.map (·.span)) content ∧ ∀ item ∈ items, item.override = none

end FieldReading

/-- The reading is of a sequence: these of its fields are found in the content. -/
structure Reading.HasFields (reading : Reading mode) (fields : List (Field Schema)) (content : Window)
    (found : List (FieldReading mode)) : Prop where
  schema : ∃ name, reading.schema = .sequence name fields
  opens : reading.span.Opens mode ⟨reading.override.getD .sequence, true⟩ content
  run : FieldsRead fields .empty content found

/-! ### Fields -/

theorem FieldReading.derives (part : FieldReading mode) :
    part.field.Derives (Framed mode) (part.type.Derives (.byTag mode) mode) part.span.octets part.value :=
  (part.field.read_recognizes (part.type.read_recognizes mode part.field.name)
    fun _ _ _ => Schema.Derives.ne_nil).whole_iff.1 part.reads

theorem Reading.derives (reading : Reading mode) :
    reading.schema.Derives (.byTag mode) mode reading.override reading.span.octets reading.value :=
  (reading.schema.read_recognizes mode reading.schema.name reading.override).whole_iff.1 (reading.reads _)

/-- What is derived from a stretch is read off it. -/
def Reading.ofDerives {schema : Schema} {override : Option Tag} {value : Value} (span : Window)
    (h : schema.Derives (.byTag mode) mode override span.octets value) : Reading mode where
  schema
  override
  span
  value
  reads := fun name => (schema.read_recognizes mode name override).whole_iff.2 h

/-- A field that is derived from a stretch is read off it. -/
def FieldReading.ofDerives {field : Field Schema} {type : Schema} {value : Value} (span : Window)
    (h : field.Derives (Framed mode) (type.Derives (.byTag mode) mode) span.octets value) :
    FieldReading mode where
  field
  type
  span
  value
  reads := (field.read_recognizes (type.read_recognizes mode field.name)
    fun _ _ _ => Schema.Derives.ne_nil).whole_iff.2 h

/-- The fields found take up the whole window. -/
theorem FieldsRead.tiles {fields : List (Field Schema)} {known : Sequence Value} {window : Window}
    {found : List (FieldReading mode)} (h : FieldsRead fields known window found) :
    Window.Tiles (found.map (·.span)) window := by
  induction h with
  | done => exact .nil
  | skip _ _ _ ih => exact ih
  | take _ _ _ ih => exact .cons ih

/-- The fields found are fields of the sequence, with one of the types that they may have. -/
theorem FieldsRead.mem {fields : List (Field Schema)} {known : Sequence Value} {window : Window}
    {found : List (FieldReading mode)} (h : FieldsRead fields known window found)
    {part : FieldReading mode} (hpart : part ∈ found) :
    part.field ∈ fields ∧ part.type ∈ part.field.type.types := by
  induction h with
  | done => cases hpart
  | skip _ _ _ ih => exact ⟨List.mem_cons_of_mem _ (ih hpart).1, (ih hpart).2⟩
  | take first htype _ ih =>
      rcases List.mem_cons.1 hpart with rfl | hmem
      · exact ⟨List.mem_cons_self, Field.resolve?_mem htype⟩
      · exact ⟨List.mem_cons_of_mem _ (ih hmem).1, (ih hmem).2⟩

/-- **Reading fields finds those that make up the sequence**, after the ones that were known. -/
theorem Schema.readFields_eq_ok_iff_exists {fields : List (Field Schema)} {known given : Sequence Value}
    {window : Window} :
    readFields fields mode known window = .ok given ↔
      ∃ found : List (FieldReading mode), FieldsRead fields known window found ∧
        given = { known with fields := known.fields ++ found.map (·.entry) } := by
  rw [readFields_eq_ok_iff fun _ _ type _ name override => type.read_recognizes mode name override]
  constructor
  · intro h
    induction fields generalizing known window with
    | nil =>
        obtain ⟨pos, octets⟩ := window
        obtain ⟨rfl, rfl⟩ := derivesFields_nil.1 h
        exact ⟨[], .done, by simp⟩
    | cons field rest ih =>
        obtain ⟨pos, octets⟩ := window
        rcases derivesFields_cons.1 h with
          ⟨hoptional, hrule, h⟩ | ⟨type, first, others, value, htype, rfl, hfield, h⟩
        · obtain ⟨found, hfound, hgiven⟩ := ih h
          exact ⟨found, .skip hoptional hrule hfound, hgiven⟩
        · obtain ⟨found, hfound, rfl⟩ := @ih _ ⟨pos + first.length, others⟩ h
          refine ⟨.ofDerives ⟨pos, first⟩ hfield :: found,
            .take (.ofDerives ⟨pos, first⟩ hfield) htype hfound, ?_⟩
          simp [Sequence.push, FieldReading.entry, FieldReading.ofDerives]
  · rintro ⟨found, hfound, rfl⟩
    induction hfound with
    | done => exact derivesFields_nil.2 ⟨rfl, by simp⟩
    | skip hoptional hrule _ ih => exact derivesFields_cons.2 (.inl ⟨hoptional, hrule, ih⟩)
    | take part htype _ ih =>
        refine derivesFields_cons.2 (.inr ⟨part.type, part.span.octets, _, part.value, htype, rfl,
          part.derives, ?_⟩)
        simpa [Sequence.push, FieldReading.entry] using ih

/-! ### Items -/

/-- Items that are derived one by one are read off the stretches that they make up. -/
theorem exists_items_of_forall₂ {type : Schema} {parts : List Octets} {values : List Value}
    (h : List.Forall₂ (type.Derives (.byTag mode) mode none) parts values) (pos : Nat) :
    ∃ items : List (Reading mode), (∀ item ∈ items, item.schema = type ∧ item.override = none) ∧
      items.map (·.value) = values ∧ Window.Tiles (items.map (·.span)) ⟨pos, parts.flatten⟩ := by
  induction h generalizing pos with
  | nil => exact ⟨[], nofun, rfl, .nil⟩
  | @cons part value parts values hpart _ ih =>
      obtain ⟨items, htypes, hvalues, htiles⟩ := ih (pos + part.length)
      refine ⟨.ofDerives ⟨pos, part⟩ hpart :: items, ?_, ?_, .cons htiles⟩
      · exact List.forall_mem_cons.2 ⟨⟨rfl, rfl⟩, htypes⟩
      · rw [List.map_cons, hvalues]
        rfl

namespace FieldReading

variable {part : FieldReading mode} {items : List (Reading mode)}

theorem Unwraps.within {inner : Window} (h : part.Unwraps inner) : inner.Within part.span := by
  unfold Unwraps at h
  split at h
  · exact h.within
  · rw [h]
    exact Window.Within.refl _

/-- The wrapper of an explicit tag is around the value or repetition and nothing else. -/
theorem exists_unwraps (part : FieldReading mode) :
    ∃ inner, part.Unwraps inner ∧ part.field.DerivesRepeated (Framed mode)
      (part.type.Derives (.byTag mode) mode) part.field.implicitTag? inner.octets part.value := by
  have hderives := part.derives
  unfold Field.Derives at hderives
  unfold Unwraps Field.implicitTag?
  split at hderives
  · rename_i htagging
    rw [htagging]
    exact ⟨part.span, rfl, hderives⟩
  · rename_i htagging
    rw [htagging]
    exact ⟨part.span, rfl, hderives⟩
  · rename_i htagging
    rw [htagging]
    obtain ⟨content, hframe, hrepeated⟩ := hderives
    obtain ⟨pos, hopens⟩ := Window.exists_opens hframe
    exact ⟨⟨pos, content⟩, hopens, hrepeated⟩

/-- **The items of a field are read off stretches inside it.** -/
theorem exists_items (part : FieldReading mode) : ∃ items, part.HasItems items := by
  obtain ⟨inner, hinner, hrepeated⟩ := part.exists_unwraps
  rcases hrepeated.value_or_items with ⟨htag, hparts, hitem⟩ | ⟨tag, htag, parts, hparts, hframe⟩
  · refine ⟨[.ofDerives inner hitem], ?_, ?_, inner, hinner, ?_⟩
    · exact List.forall_mem_singleton.2 rfl
    · rw [hparts]
      rfl
    · rw [htag]
      exact ⟨rfl, List.forall_mem_singleton.2 rfl⟩
  · obtain ⟨pos, hopens⟩ := Window.exists_opens hframe
    obtain ⟨items, htypes, hvalues, htiles⟩ := exists_items_of_forall₂ hparts pos
    refine ⟨items, fun item hitem => (htypes item hitem).1, hvalues, inner, hinner, ?_⟩
    rw [htag]
    exact ⟨_, hopens, htiles, fun item hitem => (htypes item hitem).2⟩

theorem HasItems.within (h : part.HasItems items) {item : Reading mode} (hitem : item ∈ items) :
    item.span.Within part.span := by
  obtain ⟨inner, hinner, hspans⟩ := h.span
  have hspan : item.span ∈ items.map (·.span) := List.mem_map_of_mem hitem
  refine Window.Within.trans ?_ hinner.within
  split at hspans
  · rw [hspans.1, List.mem_singleton] at hspan
    rw [hspan]
    exact Window.Within.refl _
  · obtain ⟨content, hopens, htiles, -⟩ := hspans
    exact (htiles.within hspan).trans hopens.within

end FieldReading

/-! ## Depth -/

/-- The sequence is somewhere inside the value, or the value itself. -/
inductive Value.Contains : Value → Sequence Value → Prop
  | self (given : Sequence Value) : Contains (.sequence given) given
  | field {given inner : Sequence Value} {entry : String × Value} : entry ∈ given.fields →
      Contains entry.2 inner → Contains (.sequence given) inner
  | setOf {items : List Value} {item : Value} {inner : Sequence Value} : item ∈ items →
      Contains item inner → Contains (.setOf items) inner
  | sequenceOf {items : List Value} {item : Value} {inner : Sequence Value} : item ∈ items →
      Contains item inner → Contains (.sequenceOf items) inner

/-- There is no sequence inside a value of a primitive type. -/
theorem PrimitiveType.Holds.not_contains {type : PrimitiveType} {value : Value} (h : type.Holds value)
    {given : Sequence Value} : ¬ value.Contains given := by
  intro hcontains
  cases hcontains <;> cases type <;> simp [Holds] at h

/-- The reading is the other one, or that of an item inside it: of one of its fields, of a field of that
    item, and so on. -/
inductive Reading.Contains : Reading mode → Reading mode → Prop
  | refl (reading : Reading mode) : Contains reading reading
  | step {outer item inner : Reading mode} {fields : List (Field Schema)} {content : Window}
      {found : List (FieldReading mode)} {part : FieldReading mode} {items : List (Reading mode)} :
      outer.HasFields fields content found → part ∈ found → part.HasItems items → item ∈ items →
      Contains item inner → Contains outer inner

/-- A reading that is inside another one is off a stretch inside that of the other. -/
theorem Reading.Contains.within {outer inner : Reading mode} (h : outer.Contains inner) :
    inner.span.Within outer.span := by
  induction h with
  | refl reading => exact Window.Within.refl _
  | step hfields hpart hitems hitem _ ih =>
      have hspan := hfields.run.tiles.within (List.mem_map_of_mem hpart)
      exact ih.trans ((hitems.within hitem).trans (hspan.trans hfields.opens.within))

/-- **A sequence has its fields in the content of its stretch**, and it captured the whole of that. -/
theorem Reading.exists_fields {reading : Reading mode} {given : Sequence Value}
    (h : reading.value = .sequence given) :
    ∃ fields content found, reading.HasFields fields content found ∧
      given.fields = found.map FieldReading.entry ∧ given.raw = some ⟨reading.span.octets⟩ := by
  obtain ⟨schema, override, span, value, reads⟩ := reading
  have hderives := Reading.derives ⟨schema, override, span, value, reads⟩
  obtain rfl : value = .sequence given := h
  cases schema with
  | primitive tag =>
      obtain ⟨type, _, -, -, hdecode⟩ := Schema.derives_primitive.1 hderives
      exact absurd (.self given) (PrimitiveType.holds_of_decode hdecode).not_contains
  | any =>
      obtain ⟨_, -, -, hany⟩ := Schema.derives_any.1 hderives
      cases hany
  | sequence name fields =>
      obtain ⟨content, inner, hframe, hfields, hgiven⟩ := Schema.derives_sequence.1 hderives
      obtain rfl : given = inner.capture span.octets := by simpa using hgiven
      obtain ⟨pos, hopens⟩ := Window.exists_opens hframe
      have hread : Schema.readFields fields mode .empty ⟨pos, content⟩ = .ok inner :=
        (Schema.readFields_eq_ok_iff fun _ _ type _ name override =>
          type.read_recognizes mode name override).2 hfields
      obtain ⟨found, hfound, rfl⟩ := Schema.readFields_eq_ok_iff_exists.1 hread
      exact ⟨fields, _, found, ⟨⟨name, rfl⟩, hopens, hfound⟩, rfl, rfl⟩

/-- A sequence inside the value of a field is inside one of its items. -/
theorem FieldReading.HasItems.exists_of_contains {part : FieldReading mode} {items : List (Reading mode)}
    {given : Sequence Value} (h : part.HasItems items) (hcontains : part.value.Contains given) :
    ∃ item ∈ items, item.value.Contains given := by
  have hparts : ∃ inner ∈ part.field.parts part.value, inner.Contains given := by
    obtain ⟨inner, -, hrepeated⟩ := part.exists_unwraps
    unfold Field.DerivesRepeated at hrepeated
    unfold Field.parts
    split at hrepeated
    · rename_i hrepetition
      exact ⟨part.value, by simp [hrepetition], hcontains⟩
    · rename_i hrepetition
      obtain ⟨values, hvalue, -⟩ := hrepeated
      rw [hvalue] at hcontains ⊢
      cases hcontains with
      | setOf hmem hcontains => exact ⟨_, by simpa [hrepetition] using hmem, hcontains⟩
    · rename_i hrepetition
      obtain ⟨values, hvalue, -⟩ := hrepeated
      rw [hvalue] at hcontains ⊢
      cases hcontains with
      | sequenceOf hmem hcontains => exact ⟨_, by simpa [hrepetition] using hmem, hcontains⟩
  obtain ⟨inner, hinner, hcontains⟩ := hparts
  rw [← h.value] at hinner
  obtain ⟨item, hitem, rfl⟩ := List.mem_map.1 hinner
  exact ⟨item, hitem, hcontains⟩

/-- **Every sequence inside the value of a reading has a reading inside it.** -/
theorem Reading.exists_contains (reading : Reading mode) {given : Sequence Value}
    (h : reading.value.Contains given) :
    ∃ inner, reading.Contains inner ∧ inner.value = .sequence given := by
  induction hschema : reading.schema using Schema.induction generalizing reading with
  | primitive tag =>
      have hderives := reading.derives
      rw [hschema] at hderives
      obtain ⟨type, _, -, -, hdecode⟩ := Schema.derives_primitive.1 hderives
      exact absurd h (PrimitiveType.holds_of_decode hdecode).not_contains
  | any =>
      have hderives := reading.derives
      rw [hschema] at hderives
      obtain ⟨_, -, -, hvalue⟩ := Schema.derives_any.1 hderives
      rw [hvalue] at h
      cases h
  | sequence name fields ih =>
      have hderives := reading.derives
      rw [hschema] at hderives
      obtain ⟨_, outer, -, -, hvalue⟩ := Schema.derives_sequence.1 hderives
      rw [hvalue] at h
      cases h with
      | self => exact ⟨reading, .refl reading, hvalue⟩
      | @field _ _ entry hentry hcontains =>
          obtain ⟨types, content, found, hfields, hgiven, -⟩ := reading.exists_fields hvalue
          obtain ⟨_, hname⟩ := hfields.schema
          obtain ⟨-, rfl⟩ := Schema.sequence.inj (hschema.symm.trans hname)
          rw [hgiven] at hentry
          obtain ⟨part, hpart, rfl⟩ := List.mem_map.1 hentry
          obtain ⟨items, hitems⟩ := part.exists_items
          obtain ⟨item, hitem, hinside⟩ := hitems.exists_of_contains hcontains
          obtain ⟨hfield, htype⟩ := hfields.run.mem hpart
          obtain ⟨inner, hinner, hsequence⟩ := ih _ hfield _ htype item hinside (hitems.schema item hitem)
          exact ⟨inner, .step hfields hpart hitems hitem hinner, hsequence⟩

/-! ## Result -/

/-- All that is true of a sequence that was read off a stretch of the data. -/
structure Reading.Exact (data : Octets) (reading : Reading mode) (given : Sequence Value) : Prop where
  /-- The encoding captured is a stretch of the data. -/
  captured : given.raw = some ⟨reading.span.octets⟩
  within : reading.span.Within (.whole data)
  /-- It is a header and after it the encodings of the fields, which are those of the type found there. -/
  parts : ∃ fields content found, reading.HasFields fields content found ∧
    given.fields = found.map FieldReading.entry ∧ Window.Tiles (found.map (·.span)) content
  /-- Alone it is read as the same sequence, with the same encodings captured at every depth. -/
  alone : ∀ name, reading.schema.read mode name reading.override (.whole reading.span.octets) =
    .ok (.sequence given, ⟨reading.span.octets.length, []⟩)

theorem Reading.exact_of_within {data : Octets} {reading : Reading mode} {given : Sequence Value}
    (hwithin : reading.span.Within (.whole data)) (h : reading.value = .sequence given) :
    reading.Exact data given := by
  obtain ⟨fields, content, found, hfields, hgiven, hraw⟩ := reading.exists_fields h
  refine ⟨hraw, hwithin, ⟨fields, content, found, hfields, hgiven, hfields.run.tiles⟩, fun name => ?_⟩
  -- What is read depends on the octets alone, so it is the same at the start of the data.
  have hderives := reading.derives
  rw [h] at hderives
  have hread : reading.schema.read mode name reading.override (.whole reading.span.octets) =
      .ok (.sequence given, ⟨(Window.whole reading.span.octets).stop, []⟩) :=
    (reading.schema.read_recognizes mode name reading.override).whole_iff.2 hderives
  rwa [Window.stop, Window.whole, Nat.zero_add] at hread

/-- **What is captured is exact at every depth.** Every sequence anywhere in a decoded value has a reading
    inside that of the data, and whatever reading inside that of the data gives a sequence is exact. -/
theorem Schema.captured_of_decode {schema : Schema} {mode : Mode} {data : Octets} {value : Value}
    (h : schema.decode mode data = .ok value) :
    ∃ root : Reading mode, root.schema = schema ∧ root.override = none ∧ root.span = .whole data ∧
      root.value = value ∧
      (∀ given, value.Contains given → ∃ reading, root.Contains reading ∧ reading.value = .sequence given) ∧
      ∀ reading given, root.Contains reading → reading.value = .sequence given →
        reading.Exact data given := by
  refine ⟨.ofDerives (.whole data) (decode_eq_ok_iff.1 h), rfl, rfl, rfl, rfl, ?_, ?_⟩
  · intro given hcontains
    exact Reading.exists_contains _ hcontains
  · intro reading given hreading hvalue
    exact Reading.exact_of_within hreading.within hvalue

/-- A sequence under an implicit tag, and another one in a list in a wrapper. The one under the tag
    captured it in place of its own. -/
theorem Schema.captured_of_decode_implicit :
    ∃ value, (sequence "Outer"
        [{ name := "single", type := .fixed (sequence "Inner" [.plain "number" (.primitive .integer)]),
           tagging := some ⟨.implicit, .contextSpecific 1⟩ },
         { name := "list", type := .fixed (sequence "Inner" [.plain "number" (.primitive .integer)]),
           tagging := some ⟨.explicit, .contextSpecific 2⟩, repetition := .sequenceOf }]).decode .der
        [0x30, 0x0E, 0xA1, 0x03, 0x02, 0x01, 0x05, 0xA2, 0x07, 0x30, 0x05, 0x30, 0x03, 0x02, 0x01, 0x06] =
          .ok value ∧
      ∃ (reading : Reading .der) (given : Sequence Value), value.Contains given ∧
        reading.value = .sequence given ∧ given.raw = some ⟨[0xA1, 0x03, 0x02, 0x01, 0x05]⟩ ∧
        reading.Exact [0x30, 0x0E, 0xA1, 0x03, 0x02, 0x01, 0x05, 0xA2, 0x07, 0x30, 0x05, 0x30, 0x03, 0x02,
          0x01, 0x06] given := by
  have hdecode : (sequence "Outer"
      [{ name := "single", type := .fixed (sequence "Inner" [.plain "number" (.primitive .integer)]),
         tagging := some ⟨.implicit, .contextSpecific 1⟩ },
       { name := "list", type := .fixed (sequence "Inner" [.plain "number" (.primitive .integer)]),
         tagging := some ⟨.explicit, .contextSpecific 2⟩, repetition := .sequenceOf }]).decode .der
      [0x30, 0x0E, 0xA1, 0x03, 0x02, 0x01, 0x05, 0xA2, 0x07, 0x30, 0x05, 0x30, 0x03, 0x02, 0x01, 0x06] =
      .ok (.sequence ⟨[("single", .sequence ⟨[("number", .integer ⟨false, [0x05], by decide, by decide⟩)],
            some ⟨[0xA1, 0x03, 0x02, 0x01, 0x05]⟩⟩),
          ("list", .sequenceOf [.sequence ⟨[("number", .integer ⟨false, [0x06], by decide, by decide⟩)],
            some ⟨[0x30, 0x03, 0x02, 0x01, 0x06]⟩⟩])],
        some ⟨[0x30, 0x0E, 0xA1, 0x03, 0x02, 0x01, 0x05, 0xA2, 0x07, 0x30, 0x05, 0x30, 0x03, 0x02, 0x01,
          0x06]⟩⟩) := by
    cbv
  obtain ⟨root, -, -, -, -, hall, hexact⟩ := captured_of_decode hdecode
  have hinner := hall ⟨[("number", .integer ⟨false, [0x05], by decide, by decide⟩)],
    some ⟨[0xA1, 0x03, 0x02, 0x01, 0x05]⟩⟩ (.field List.mem_cons_self (.self _))
  obtain ⟨reading, hreading, hvalue⟩ := hinner
  exact ⟨_, hdecode, reading, _, .field List.mem_cons_self (.self _), hvalue, rfl,
    hexact reading _ hreading hvalue⟩

end Asn1
