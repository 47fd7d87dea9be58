import Asn1.Proofs.Schema.Grammar

/-!
# `Asn1.Proofs.Schema.Decode` — decoding follows the grammar

Decoding reads a value exactly if an encoding of it is at the front of the window. The outcome depends on
the octets alone: not on where the window is, and not on what follows the value.

## Contents
- **Readers.** `Recognizes` says that a reader takes encodings off the front of windows.
- **Items and fields.** Repetition and tagging turn a reader that recognizes items into one for the field.
- **Types.** One lemma for each kind of type, `Schema.read_recognizes` by induction over the types, and
  `Schema.decode_eq_ok_iff` for whole inputs.
-/

namespace Asn1

/-! ## Readers -/

/-- The reader takes an encoding of the value off the front of a window, whatever follows it. -/
def Recognizes (reader : Window → Except DecodeError (Value × Window))
    (encodes : Octets → Value → Prop) : Prop :=
  ∀ window value rest, reader window = .ok (value, rest) ↔
    ∃ front, encodes front value ∧ window.octets = front ++ rest.octets ∧
      rest.pos = window.pos + front.length

/-- A framed value is split off whatever follows it. -/
theorem Framed.take {mode : Mode} {identifier : Identifier} {content front : Octets}
    {window rest : Window} (h : Framed mode identifier content front)
    (hoctets : window.octets = front ++ rest.octets) (hpos : rest.pos = window.pos + front.length) :
    Element.take mode window = .ok ⟨⟨identifier, .definite content.length⟩,
      ⟨window.pos + (front.length - content.length), content⟩, rest⟩ :=
  Element.take_eq_ok_iff.2 ⟨front, h, hoctets, rfl, rfl, hpos⟩

theorem Window.isEmpty_iff {window : Window} : window.isEmpty = true ↔ window.octets = [] :=
  List.isEmpty_iff

/-! ## Items and fields -/

/-- Nothing can be split into no items only, as no item is empty. -/
theorem exists_parts_nil_iff {encodes : Octets → Value → Prop}
    (hne : ∀ front value, encodes front value → front ≠ []) {values : List Value} :
    (∃ parts, List.Forall₂ encodes parts values ∧ [] = parts.flatten) ↔ values = [] := by
  constructor
  · rintro ⟨parts, hparts, hflatten⟩
    cases hparts with
    | nil => rfl
    | cons hfirst _ =>
        rw [List.flatten_cons] at hflatten
        exact absurd (List.append_eq_nil_iff.1 hflatten.symm).1 (hne _ _ hfirst)
  · rintro rfl
    exact ⟨[], .nil, rfl⟩

/-- **Reading items splits the window into encodings of them.** No item is empty, so a budget of one item
    for each octet is enough. -/
theorem readItems_eq_ok_iff {item : Window → Except DecodeError (Value × Window)}
    {encodes : Octets → Value → Prop} (hitem : Recognizes item encodes)
    (hne : ∀ front value, encodes front value → front ≠ []) {budget : Nat} {window : Window}
    {values : List Value} (hbudget : window.octets.length ≤ budget) :
    readItems item budget window = .ok values ↔
      ∃ parts, List.Forall₂ encodes parts values ∧ window.octets = parts.flatten := by
  induction budget generalizing window values with
  | zero =>
      have hempty : window.octets = [] := List.length_eq_zero_iff.1 (Nat.le_zero.1 hbudget)
      rw [readItems, if_pos (Window.isEmpty_iff.2 hempty), hempty, exists_parts_nil_iff hne]
      simp [eq_comm]
  | succ budget ih =>
      rw [readItems]
      split
      · rename_i hempty
        rw [Window.isEmpty_iff.1 hempty, exists_parts_nil_iff hne]
        simp [eq_comm]
      · rename_i hempty
        constructor
        · intro h
          obtain ⟨⟨value, rest⟩, hvalue, h⟩ := bind_eq_ok_iff.1 h
          obtain ⟨others, hothers, h⟩ := bind_eq_ok_iff.1 h
          obtain rfl := Except.ok.inj h
          obtain ⟨front, hfront, hoctets, -⟩ := (hitem _ _ _).1 hvalue
          have hpos := List.length_pos_iff.2 (hne _ _ hfront)
          rw [hoctets, List.length_append] at hbudget
          obtain ⟨parts, hparts, hrest⟩ := (ih (by omega)).1 hothers
          exact ⟨front :: parts, .cons hfront hparts, by rw [hoctets, hrest, List.flatten_cons]⟩
        · rintro ⟨parts, hparts, hoctets⟩
          cases hparts with
          | nil => exact absurd (Window.isEmpty_iff.2 hoctets) hempty
          | @cons front value parts others hfront hparts =>
              have hpos := List.length_pos_iff.2 (hne _ _ hfront)
              rw [hoctets, List.flatten_cons, List.length_append] at hbudget
              refine bind_eq_ok_iff.2 ⟨(value, ⟨window.pos + front.length, parts.flatten⟩),
                (hitem _ _ _).2 ⟨front, hfront, hoctets, rfl⟩, ?_⟩
              refine bind_eq_ok_iff.2 ⟨others, (ih ?_).2 ⟨parts, hparts, rfl⟩, rfl⟩
              show parts.flatten.length ≤ budget
              omega

theorem Element.takeConstructed_eq_ok_iff {mode : Mode} {tag : Tag} {name : String} {window : Window}
    {element : Element} :
    takeConstructed mode tag name window = .ok element ↔
      take mode window = .ok element ∧ element.header.toIdentifier = ⟨tag, true⟩ := by
  unfold takeConstructed
  constructor
  · intro h
    obtain ⟨found, htake, h⟩ := bind_eq_ok_iff.1 h
    split at h
    · simp at h
    · rename_i htag
      split at h
      · rename_i hconstructed
        obtain rfl := Except.ok.inj h
        exact ⟨htake, by rw [← Decidable.not_not.1 htag, ← hconstructed]⟩
      · simp at h
  · rintro ⟨htake, hidentifier⟩
    refine bind_eq_ok_iff.2 ⟨element, htake, ?_⟩
    rw [if_neg (by rw [hidentifier]; exact fun h => h rfl), if_pos (by rw [hidentifier])]

namespace Field

variable {σ : Type} {mode : Mode} {item : ValueReader} {encodes : Encodes}

/-- Repetition turns a reader of items into one of the field. -/
theorem readRepeated_recognizes (field : Field σ)
    (hitem : ∀ override, Recognizes (item override) (encodes override))
    (hne : ∀ override front value, encodes override front value → front ≠ [])
    (override : Option Tag) :
    Recognizes (field.readRepeated mode item override)
      (field.DerivesRepeated (Framed mode) encodes override) := by
  have hitems (tag : Tag) (wrap : List Value → Value) :
      Recognizes
        (fun window => do
          let found ← (do
            let element ← Element.takeConstructed mode (override.getD tag) field.name window
            let values ← readItems (item none) element.content.octets.length element.content
            return (values, element.rest))
          return (wrap found.1, found.2))
        (fun octets value => ∃ values, value = wrap values ∧
          DerivesItems (Framed mode) encodes (override.getD tag) octets values) := by
    intro window value rest
    constructor
    · intro h
      obtain ⟨⟨values, _⟩, hvalues, h⟩ := bind_eq_ok_iff.1 h
      obtain ⟨element, helement, hvalues⟩ := bind_eq_ok_iff.1 hvalues
      obtain ⟨found, hfound, hvalues⟩ := bind_eq_ok_iff.1 hvalues
      obtain ⟨rfl, rfl⟩ := Prod.mk.inj (Except.ok.inj hvalues)
      obtain ⟨rfl, rfl⟩ := Prod.mk.inj (Except.ok.inj h)
      obtain ⟨htake, hidentifier⟩ := Element.takeConstructed_eq_ok_iff.1 helement
      obtain ⟨front, hframe, hoctets, -, -, hpos⟩ := Element.take_eq_ok_iff.1 htake
      obtain ⟨parts, hparts, hcontent⟩ :=
        (readItems_eq_ok_iff (hitem none) (hne none) (Nat.le_refl _)).1 hfound
      rw [hidentifier, hcontent] at hframe
      exact ⟨front, ⟨found, rfl, parts, hparts, hframe⟩, hoctets, hpos⟩
    · rintro ⟨front, ⟨values, rfl, parts, hparts, hframe⟩, hoctets, hpos⟩
      refine bind_eq_ok_iff.2 ⟨(values, rest), bind_eq_ok_iff.2 ⟨_,
        Element.takeConstructed_eq_ok_iff.2 ⟨hframe.take hoctets hpos, rfl⟩, ?_⟩, rfl⟩
      exact bind_eq_ok_iff.2 ⟨values,
        (readItems_eq_ok_iff (hitem none) (hne none) (Nat.le_refl _)).2 ⟨parts, hparts, rfl⟩, rfl⟩
  unfold DerivesRepeated readRepeated
  cases field.repetition with
  | single => exact hitem override
  | setOf => exact hitems .set .setOf
  | sequenceOf => exact hitems .sequence .sequenceOf

theorem DerivesRepeated.ne_nil {field : Field σ} {override : Option Tag} {octets : Octets}
    {value : Value} (hne : ∀ front value, encodes override front value → front ≠ [])
    (h : field.DerivesRepeated (Framed mode) encodes override octets value) : octets ≠ [] := by
  unfold DerivesRepeated at h
  split at h
  · exact hne _ _ h
  · obtain ⟨_, _, _, _, hframe⟩ := h
    exact hframe.ne_nil
  · obtain ⟨_, _, _, _, hframe⟩ := h
    exact hframe.ne_nil

/-- **Tagging and repetition turn a reader of items into one of the field.** -/
theorem read_recognizes (field : Field σ)
    (hitem : ∀ override, Recognizes (item override) (encodes override))
    (hne : ∀ override front value, encodes override front value → front ≠ []) :
    Recognizes (field.read mode item) (field.Derives (Framed mode) encodes) := by
  have hrepeated (override : Option Tag) : Recognizes (field.readRepeated mode item override)
      (field.DerivesRepeated (Framed mode) encodes override) :=
    field.readRepeated_recognizes hitem hne override
  intro window value rest
  unfold Derives read
  rcases field.tagging with _ | ⟨_ | _, tag⟩
  · exact hrepeated none window value rest
  · exact hrepeated (some tag) window value rest
  · constructor
    · intro h
      obtain ⟨element, helement, h⟩ := bind_eq_ok_iff.1 h
      obtain ⟨htake, hidentifier⟩ := Element.takeConstructed_eq_ok_iff.1 helement
      obtain ⟨front, hframe, hoctets, -, -, hpos⟩ := Element.take_eq_ok_iff.1 htake
      split at h
      · simp at h
      · obtain ⟨⟨found, left⟩, hfound, h⟩ := bind_eq_ok_iff.1 h
        dsimp only at h
        split at h
        · rename_i hempty
          obtain ⟨rfl, rfl⟩ := Prod.mk.inj (Except.ok.inj h)
          obtain ⟨inner, hinner, hcontent, -⟩ := (hrepeated none _ _ _).1 hfound
          rw [Window.isEmpty_iff.1 hempty, List.append_nil] at hcontent
          rw [hidentifier] at hframe
          exact ⟨front, ⟨_, hframe, hcontent ▸ hinner⟩, hoctets, hpos⟩
        · simp at h
    · rintro ⟨front, ⟨content, hframe, hinner⟩, hoctets, hpos⟩
      refine bind_eq_ok_iff.2 ⟨_, Element.takeConstructed_eq_ok_iff.2
        ⟨hframe.take hoctets hpos, rfl⟩, ?_⟩
      have hread := (hrepeated none ⟨window.pos + (front.length - content.length), content⟩ value
        ⟨window.pos + (front.length - content.length) + content.length, []⟩).2
        ⟨content, hinner, (List.append_nil _).symm, rfl⟩
      rw [if_neg fun hempty => hinner.ne_nil (hne none) (Window.isEmpty_iff.1 hempty)]
      exact bind_eq_ok_iff.2 ⟨_, hread, if_pos rfl⟩

end Field

/-! ## Types -/

namespace Schema

theorem Derives.ne_nil {rule : OmissionRule} {mode : Mode} {schema : Schema} {override : Option Tag}
    {octets : Octets} {value : Value} (h : schema.Derives rule mode override octets value) :
    octets ≠ [] :=
  h.startsWith.ne_nil

/-- The tag expected is looked for in the header at the front. -/
theorem isPresent_eq_ok_iff {mode : Mode} {expected : Option Tag} {window : Window} {present : Bool} :
    isPresent mode expected window = .ok present ↔
      (expected = none ∧ present = true) ∨
      ∃ tag header rest, expected = some tag ∧
        Header.takeOctets mode window.octets = .ok (header, rest) ∧ present = (header.tag == tag) := by
  unfold isPresent
  cases expected with
  | none => simp [eq_comm]
  | some tag =>
      constructor
      · intro h
        obtain ⟨⟨header, after⟩, hheader, h⟩ := bind_eq_ok_iff.1 h
        obtain ⟨front, hform, hoctets, -, hcheck⟩ := Header.take_eq_ok_iff.1 hheader
        exact .inr ⟨tag, header, after.octets, rfl,
          Header.takeOctets_eq_ok_iff.2 ⟨front, hform, hoctets, hcheck⟩, (Except.ok.inj h).symm⟩
      · rintro (⟨h, -⟩ | ⟨_, header, rest, h, hheader, rfl⟩)
        · simp at h
        · obtain rfl := Option.some.inj h
          refine bind_eq_ok_iff.2 ⟨(header, window.remaining rest), ?_, rfl⟩
          rw [Header.take, hheader]

/-- A field that starts with its outer tag is seen to be there. -/
theorem isPresent_of_startsWith {mode : Mode} {expected : Option Tag} {window : Window}
    {front rest : Octets} (h : StartsWith mode expected front) (hoctets : window.octets = front ++ rest) :
    isPresent mode expected window = .ok true := by
  obtain ⟨identifier, content, hframe, htag⟩ := h
  cases expected with
  | none => exact isPresent_eq_ok_iff.2 (.inl ⟨rfl, rfl⟩)
  | some tag =>
      obtain rfl : tag = identifier.tag := by simpa using htag
      have hheader := hframe.takeOctets_append rest
      rw [← hoctets] at hheader
      exact isPresent_eq_ok_iff.2 (.inr ⟨_, _, _, rfl, hheader, (beq_self_eq_true _).symm⟩)

/-- At the end, only optional fields may follow. -/
theorem readFields_cons_of_isEmpty {mode : Mode} {field : Field Schema} {rest : List (Field Schema)}
    {known given : Sequence Value} {window : Window} (hempty : window.isEmpty = true) :
    readFields (field :: rest) mode known window = .ok given ↔
      field.optional = true ∧ readFields rest mode known window = .ok given := by
  rw [readFields, if_pos hempty]
  cases field.optional <;> simp

/-- Before the end, the type of a field is resolved, and the field is read or passed over as it is seen
    to be there or not. -/
theorem readFields_cons_of_not_isEmpty {mode : Mode} {field : Field Schema} {rest : List (Field Schema)}
    {known given : Sequence Value} {window : Window} (hempty : ¬ window.isEmpty = true) :
    readFields (field :: rest) mode known window = .ok given ↔
      ∃ type, field.resolve? known = some type ∧
        ((isPresent mode (field.outerTag? type) window = .ok false ∧ field.optional = true ∧
            readFields rest mode known window = .ok given) ∨
          (isPresent mode (field.outerTag? type) window = .ok true ∧
            ∃ value after, field.read mode (type.read mode field.name) window = .ok (value, after) ∧
              readFields rest mode (known.push field.name value) after = .ok given)) := by
  rw [readFields, if_neg hempty]
  split
  · rename_i hnone
    simp [hnone]
  · rename_i type hsome
    constructor
    · intro h
      obtain ⟨present, hpresent, h⟩ := bind_eq_ok_iff.1 h
      refine ⟨type, hsome, ?_⟩
      cases present with
      | true =>
          obtain ⟨⟨value, after⟩, hvalue, h⟩ := bind_eq_ok_iff.1 h
          exact .inr ⟨hpresent, value, after, hvalue, h⟩
      | false =>
          rw [if_neg Bool.false_ne_true] at h
          split at h
          · rename_i hoptional
            exact .inl ⟨hpresent, hoptional, h⟩
          · simp at h
    · rintro ⟨found, hfound, h⟩
      obtain rfl := Option.some.inj (hsome.symm.trans hfound)
      rcases h with ⟨hpresent, hoptional, h⟩ | ⟨hpresent, value, after, hvalue, h⟩
      · refine bind_eq_ok_iff.2 ⟨false, hpresent, ?_⟩
        rwa [if_neg Bool.false_ne_true, if_pos hoptional]
      · refine bind_eq_ok_iff.2 ⟨true, hpresent, ?_⟩
        rw [if_pos rfl]
        exact bind_eq_ok_iff.2 ⟨(value, after), hvalue, h⟩

/-- The fields of a sequence are read as the grammar says, if their types are. -/
theorem readFields_eq_ok_iff {mode : Mode} {fields : List (Field Schema)}
    (htypes : ∀ field ∈ fields, ∀ type ∈ field.type.types, ∀ name override,
      Recognizes (type.read mode name override) (type.Derives (.byTag mode) mode override))
    {known given : Sequence Value} {window : Window} :
    readFields fields mode known window = .ok given ↔
      DerivesFields (.byTag mode) mode fields known window.octets given := by
  induction fields generalizing known window with
  | nil =>
      rw [readFields, derivesFields_nil]
      split
      · rename_i hempty
        simp [Window.isEmpty_iff.1 hempty, eq_comm]
      · rename_i hempty
        simp [mt Window.isEmpty_iff.2 hempty]
  | cons field rest ih =>
      have ih {known : Sequence Value} {window : Window} :=
        @ih (fun field hfield => htypes field (List.mem_cons_of_mem _ hfield)) known window
      have hread {type : Schema} (h : field.resolve? known = some type) :
          Recognizes (field.read mode (type.read mode field.name))
            (field.Derives (Framed mode) (type.Derives (.byTag mode) mode)) :=
        field.read_recognizes (htypes field List.mem_cons_self type (Field.resolve?_mem h) field.name)
          fun _ _ _ hitem => hitem.ne_nil
      rw [derivesFields_cons]
      by_cases hempty : window.isEmpty = true
      · rw [readFields_cons_of_isEmpty hempty, ih]
        have hoctets := Window.isEmpty_iff.1 hempty
        constructor
        · rintro ⟨hoptional, h⟩
          exact .inl ⟨hoptional, .inl hoctets, h⟩
        · rintro (⟨hoptional, -, h⟩ | ⟨type, first, others, value, -, hsplit, hfield, -⟩)
          · exact ⟨hoptional, h⟩
          · have hnil := (List.append_eq_nil_iff.1 (hsplit.symm.trans hoctets)).1
            exact absurd hnil (startsWith_of_field hfield).ne_nil
      · rw [readFields_cons_of_not_isEmpty hempty]
        constructor
        · rintro ⟨type, hsome, ⟨hpresent, hoptional, h⟩ | ⟨-, value, after, hvalue, h⟩⟩
          · obtain ⟨-, h'⟩ | ⟨tag, header, after, htag, hheader, hother⟩ :=
              isPresent_eq_ok_iff.1 hpresent
            · simp at h'
            · refine .inl ⟨hoptional, .inr ⟨type, tag, header, after, hsome, htag, hheader, ?_⟩, ih.1 h⟩
              simpa using hother
          · obtain ⟨front, hfront, hsplit, -⟩ := (hread hsome _ _ _).1 hvalue
            exact .inr ⟨type, front, after.octets, value, hsome, hsplit, hfront, ih.1 h⟩
        · rintro (⟨hoptional, hnil | ⟨type, tag, header, after, hsome, htag, hheader, hother⟩, h⟩ |
            ⟨type, front, others, value, hsome, hsplit, hfront, h⟩)
          · exact absurd (Window.isEmpty_iff.2 hnil) hempty
          · refine ⟨type, hsome, .inl ⟨?_, hoptional, ih.2 h⟩⟩
            exact isPresent_eq_ok_iff.2
              (.inr ⟨tag, header, after, htag, hheader, (beq_false_of_ne hother).symm⟩)
          · refine ⟨type, hsome, .inr ⟨?_, value, ⟨window.pos + front.length, others⟩, ?_, ih.2 h⟩⟩
            · exact isPresent_of_startsWith (startsWith_of_field hfront) hsplit
            · exact (hread hsome _ _ _).2 ⟨front, hfront, hsplit, rfl⟩

theorem readPrimitive_eq_ok_iff {mode : Mode} {tag : Tag} {element : Element} {pos : Nat} {value : Value} :
    readPrimitive mode tag element pos = .ok value ↔
      element.header.constructed = false ∧ ∃ type, PrimitiveType.ofTag? tag = some type ∧
        type.decode mode element.content.octets = .ok value := by
  unfold readPrimitive
  cases element.header.constructed with
  | true => simp
  | false =>
      cases PrimitiveType.ofTag? tag with
      | none => simp
      | some type =>
          cases hdecode : type.decode mode element.content.octets with
          | ok found => simp [hdecode]
          | error error => simp [hdecode]

/-- The tag expected is the one that replaces the natural one, if there is one. -/
theorem all_naturalTag_iff {schema : Schema} {override : Option Tag} {natural found : Tag}
    (h : schema.naturalTag? = some natural) :
    (override.or schema.naturalTag?).all (· == found) = true ↔ found = override.getD natural := by
  rw [h]
  cases override with
  | none => exact beq_iff_eq.trans eq_comm
  | some tag => exact beq_iff_eq.trans eq_comm

theorem read_primitive_recognizes (tag : Tag) (mode : Mode) (name : String) (override : Option Tag) :
    Recognizes ((primitive tag).read mode name override)
      ((primitive tag).Derives (.byTag mode) mode override) := by
  intro window value rest
  simp only [read, derives_primitive]
  constructor
  · intro h
    obtain ⟨element, htake, h⟩ := bind_eq_ok_iff.1 h
    obtain ⟨front, hframe, hoctets, -, -, hpos⟩ := Element.take_eq_ok_iff.1 htake
    split at h
    · rename_i htag
      obtain ⟨found, hfound, h⟩ := bind_eq_ok_iff.1 h
      obtain ⟨rfl, rfl⟩ := Prod.mk.inj (Except.ok.inj h)
      obtain ⟨hprimitive, type, htype, hdecode⟩ := readPrimitive_eq_ok_iff.1 hfound
      have hidentifier : element.header.toIdentifier = ⟨override.getD tag, false⟩ := by
        rw [← (all_naturalTag_iff rfl).1 htag, ← hprimitive]
      rw [hidentifier] at hframe
      exact ⟨front, ⟨type, _, htype, hframe, hdecode⟩, hoctets, hpos⟩
    · simp at h
  · rintro ⟨front, ⟨type, content, htype, hframe, hdecode⟩, hoctets, hpos⟩
    refine bind_eq_ok_iff.2 ⟨_, hframe.take hoctets hpos, ?_⟩
    rw [if_pos ((all_naturalTag_iff rfl).2 rfl)]
    exact bind_eq_ok_iff.2 ⟨value, readPrimitive_eq_ok_iff.2 ⟨rfl, type, htype, hdecode⟩, rfl⟩

theorem read_any_recognizes (mode : Mode) (name : String) (override : Option Tag) :
    Recognizes (any.read mode name override) (any.Derives (.byTag mode) mode override) := by
  intro window value rest
  simp only [read, derives_any]
  constructor
  · intro h
    obtain ⟨element, htake, h⟩ := bind_eq_ok_iff.1 h
    obtain ⟨front, hframe, hoctets, -, -, hpos⟩ := Element.take_eq_ok_iff.1 htake
    split at h
    · rename_i htag
      obtain ⟨rfl, rfl⟩ := Prod.mk.inj (Except.ok.inj h)
      rw [naturalTag?, Option.or_none] at htag
      exact ⟨front, ⟨.ofElement element, hframe, htag, rfl⟩, hoctets, hpos⟩
    · simp at h
  · rintro ⟨front, ⟨found, hframe, htag, rfl⟩, hoctets, hpos⟩
    refine bind_eq_ok_iff.2 ⟨_, hframe.take hoctets hpos, ?_⟩
    rw [if_pos (by simpa [naturalTag?] using htag)]
    rfl

/-- A sequence is read as the grammar says, if its fields are. It captures what was taken off. -/
theorem read_sequence_recognizes {fields : List (Field Schema)} {mode : Mode}
    (hfields : ∀ content given, readFields fields mode .empty content = .ok given ↔
      DerivesFields (.byTag mode) mode fields .empty content.octets given)
    (typeName name : String) (override : Option Tag) :
    Recognizes ((sequence typeName fields).read mode name override)
      ((sequence typeName fields).Derives (.byTag mode) mode override) := by
  intro window value rest
  have hbefore {front : Octets} {rest : Window} (hoctets : window.octets = front ++ rest.octets)
      (hpos : rest.pos = window.pos + front.length) : window.before rest = front := by
    rw [Window.before, hpos, Nat.add_sub_cancel_left, hoctets, List.take_left]
  simp only [read, derives_sequence]
  constructor
  · intro h
    obtain ⟨element, htake, h⟩ := bind_eq_ok_iff.1 h
    obtain ⟨front, hframe, hoctets, -, -, hpos⟩ := Element.take_eq_ok_iff.1 htake
    split at h
    · rename_i htag
      split at h
      · rename_i hconstructed
        obtain ⟨given, hgiven, h⟩ := bind_eq_ok_iff.1 h
        obtain ⟨rfl, rfl⟩ := Prod.mk.inj (Except.ok.inj h)
        have hidentifier : element.header.toIdentifier = ⟨override.getD .sequence, true⟩ := by
          rw [← (all_naturalTag_iff rfl).1 htag, ← hconstructed]
        rw [hidentifier] at hframe
        exact ⟨front, ⟨_, given, hframe, (hfields _ _).1 hgiven, by rw [hbefore hoctets hpos]⟩,
          hoctets, hpos⟩
      · simp at h
    · simp at h
  · rintro ⟨front, ⟨content, given, hframe, hgiven, rfl⟩, hoctets, hpos⟩
    refine bind_eq_ok_iff.2 ⟨_, hframe.take hoctets hpos, ?_⟩
    rw [if_pos ((all_naturalTag_iff rfl).2 rfl), if_pos rfl]
    refine bind_eq_ok_iff.2 ⟨given, (hfields _ _).2 hgiven, ?_⟩
    rw [hbefore hoctets hpos]
    rfl

/-- **Reading a value of a type takes an encoding of it off the front**, with no regard to where it is,
    what follows it, and the name it is read under. -/
theorem read_recognizes (schema : Schema) (mode : Mode) (name : String) (override : Option Tag) :
    Recognizes (schema.read mode name override) (schema.Derives (.byTag mode) mode override) := by
  induction schema using Schema.induction generalizing name override with
  | primitive tag => exact read_primitive_recognizes tag mode name override
  | any => exact read_any_recognizes mode name override
  | sequence typeName fields ih =>
      exact read_sequence_recognizes (fun _ _ => readFields_eq_ok_iff ih) typeName name override

/-- **Decoding accepts the encodings of a value and nothing else.** -/
theorem decode_eq_ok_iff {schema : Schema} {mode : Mode} {data : Octets} {value : Value} :
    schema.decode mode data = .ok value ↔ schema.Derives (.byTag mode) mode none data value := by
  unfold decode
  constructor
  · intro h
    obtain ⟨⟨found, rest⟩, hfound, h⟩ := bind_eq_ok_iff.1 h
    obtain ⟨front, hfront, hoctets, -⟩ := (schema.read_recognizes mode _ none _ _ _).1 hfound
    dsimp only at h
    split at h
    · rename_i hempty
      obtain rfl := Except.ok.inj h
      rw [Window.isEmpty_iff.1 hempty, List.append_nil] at hoctets
      rwa [← hoctets] at hfront
    · simp at h
  · intro h
    refine bind_eq_ok_iff.2 ⟨(value, ⟨data.length, []⟩), ?_, if_pos rfl⟩
    exact (schema.read_recognizes mode _ none _ _ _).2
      ⟨data, h, (List.append_nil data).symm, (Nat.zero_add _).symm⟩

end Schema

end Asn1
