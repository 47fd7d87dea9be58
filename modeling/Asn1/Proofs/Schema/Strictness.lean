import Asn1.Proofs.Schema.Grammar

/-!
# `Asn1.Proofs.Schema.Strictness` — DER only restricts BER

The mode is asked in identifier and length octets and in the content of three primitive types, and DER only
ever adds a reason to refuse there. As decoding stops at the first error, a run in DER is the run in BER up
to the point where it refuses something, if it does. No field is ever taken for another one.

## Contents
- **Runs.** `Restricts` compares a strict run with a lenient one; it is kept by everything that readers are
  built from.
- **Headers and content.** The places where the mode is asked.
- **Types.** `Schema.read_restricts` by induction over the types, `Schema.decode_restricts` for whole inputs.
-/

namespace Asn1

/-! ## Runs -/

/-- The strict run ends as the lenient one does, or with an error of the kind that refuses input. -/
def Restricts {ε α : Type} (refuses : ε → Prop) (strict lenient : Except ε α) : Prop :=
  strict = lenient ∨ ∃ error, refuses error ∧ strict = .error error

/-- The error is a fault in the encoding of a single value. -/
def ErrorKind.IsContent (kind : ErrorKind) : Prop := ∃ error, kind = .content error

/-- The error is a fault in the encoding of a single value, at any position. -/
def DecodeError.IsContent (error : DecodeError) : Prop := error.kind.IsContent

namespace Restricts

variable {ε ε' α β : Type} {refuses : ε → Prop} {strict lenient : Except ε α}

protected theorem rfl : Restricts refuses lenient lenient := .inl rfl

theorem refused {error : ε} (h : refuses error) : Restricts refuses (.error error) lenient :=
  .inr ⟨error, h, rfl⟩

/-- A strict run that succeeds gives what the lenient one does. -/
theorem ok (h : Restricts refuses strict lenient) {value : α} (hstrict : strict = .ok value) :
    lenient = .ok value := by
  obtain rfl | ⟨error, -, rfl⟩ := h
  · exact hstrict
  · cases hstrict

/-- Steps in a row restrict if each one does. -/
theorem bind {next next' : α → Except ε β} (h : Restricts refuses strict lenient)
    (hnext : ∀ value, Restricts refuses (next value) (next' value)) :
    Restricts refuses (strict >>= next) (lenient >>= next') := by
  obtain rfl | ⟨error, hrefuses, rfl⟩ := h
  · cases strict with
    | error error => exact .rfl
    | ok value => exact hnext value
  · exact .refused hrefuses

theorem ite {condition : Prop} [Decidable condition] {strict' lenient' : Except ε α}
    (h : Restricts refuses strict lenient) (h' : Restricts refuses strict' lenient') :
    Restricts refuses (if condition then strict else strict') (if condition then lenient else lenient') := by
  split
  · exact h
  · exact h'

/-- A check that only the strict run makes, before both go on. -/
theorem check {condition : Prop} [Decidable condition] {error : ε} (hrefuses : refuses error)
    (h : Restricts refuses strict lenient) :
    Restricts refuses (if condition then .error error else strict) lenient := by
  split
  · exact .refused hrefuses
  · exact h

/-- Passing results through a function changes nothing. -/
theorem map (f : α → β) (h : Restricts refuses strict lenient) :
    Restricts refuses (strict.map f) (lenient.map f) := by
  obtain rfl | ⟨error, hrefuses, rfl⟩ := h
  · exact .rfl
  · exact .refused hrefuses

/-- Errors may be reported in another way. -/
theorem mapError {refuses' : ε' → Prop} {f : ε → ε'} (hf : ∀ error, refuses error → refuses' (f error))
    (h : Restricts refuses strict lenient) :
    Restricts refuses' (strict.mapError f) (lenient.mapError f) := by
  obtain rfl | ⟨error, hrefuses, rfl⟩ := h
  · exact .rfl
  · exact .refused (hf error hrefuses)

end Restricts

/-! ## Headers -/

theorem ErrorKind.isContent_content (error : ContentError) : (ErrorKind.content error).IsContent :=
  ⟨error, rfl⟩

namespace Identifier

/-- Only the last digit is looked at with the mode in mind. -/
theorem takeNumber_restricts (number : Nat) (octets : Octets) :
    Restricts ErrorKind.IsContent (takeNumber .der number octets) (takeNumber .ber number octets) := by
  induction octets generalizing number with
  | nil => exact .rfl
  | cons octet rest ih =>
      rw [takeNumber, takeNumber]
      refine .ite .rfl (.ite (ih _) ?_)
      simp only [Mode.isDer, true_and, Bool.false_eq_true, false_and, if_false]
      exact .check (ErrorKind.isContent_content _) .rfl

theorem take_restricts (octets : Octets) :
    Restricts ErrorKind.IsContent (take .der octets) (take .ber octets) := by
  cases octets with
  | nil => exact .rfl
  | cons first rest =>
      rw [take, take]
      exact .ite .rfl (.ite .rfl ((takeNumber_restricts 0 rest).bind fun _ => .rfl))

end Identifier

theorem Length.take_restricts (octets : Octets) :
    Restricts ErrorKind.IsContent (take .der octets) (take .ber octets) := by
  cases octets with
  | nil => exact .rfl
  | cons first rest =>
      simp only [take, Mode.isDer, true_and, Bool.false_eq_true, false_and, if_false, if_true]
      -- DER refuses the indefinite form, and a long form that is not minimal.
      refine .ite .rfl (.ite (.refused (ErrorKind.isContent_content _)) (.ite .rfl (.ite .rfl (.ite .rfl ?_))))
      exact .check (ErrorKind.isContent_content _) .rfl

theorem Header.takeOctets_restricts (octets : Octets) :
    Restricts ErrorKind.IsContent (takeOctets .der octets) (takeOctets .ber octets) := by
  rw [takeOctets, takeOctets]
  exact (Identifier.take_restricts octets).bind fun _ => (Length.take_restricts _).bind fun _ => .rfl

theorem Header.take_restricts (window : Window) :
    Restricts DecodeError.IsContent (take .der window) (take .ber window) := by
  rw [take, take]
  -- The window only adds its position to an error.
  obtain heq | ⟨kind, hkind, heq⟩ := takeOctets_restricts window.octets
  · rw [heq]
    exact .rfl
  · rw [heq]
    exact .refused hkind

namespace Element

theorem take_restricts (window : Window) :
    Restricts DecodeError.IsContent (take .der window) (take .ber window) := by
  rw [take, take]
  exact (Header.take_restricts window).bind fun _ => .rfl

theorem takeConstructed_restricts (tag : Tag) (name : String) (window : Window) :
    Restricts DecodeError.IsContent (takeConstructed .der tag name window)
      (takeConstructed .ber tag name window) := by
  rw [takeConstructed, takeConstructed]
  exact (take_restricts window).bind fun _ => .rfl

end Element

/-! ## Primitive content -/

theorem Integer.ofContent_restricts (content : Octets) :
    Restricts (fun _ => True) (ofContent .der content) (ofContent .ber content) := by
  cases content with
  | nil => exact .rfl
  | cons first rest =>
      simp only [ofContent, Mode.isDer, true_and, Bool.false_eq_true, false_and, if_false]
      exact .check trivial .rfl

theorem BitString.ofContent_restricts (content : Octets) :
    Restricts (fun _ => True) (ofContent .der content) (ofContent .ber content) := by
  cases content with
  | nil => exact .rfl
  | cons unused octets =>
      simp only [ofContent, Mode.isDer, true_and, Bool.false_eq_true, false_and, if_false]
      split
      · exact .check trivial (.check trivial .rfl)
      · exact .rfl

namespace PrimitiveType

theorem decodeBoolean_restricts (content : Octets) :
    Restricts (fun _ => True) (decodeBoolean .der content) (decodeBoolean .ber content) := by
  match content with
  | [] => exact .rfl
  | [octet] =>
      simp only [decodeBoolean, reduceCtorEq, or_false, or_true, if_true]
      refine .ite .rfl ?_
      split
      · exact .rfl
      · exact .refused trivial
  | _ :: _ :: _ => exact .rfl

/-- DER refuses padded integers, other octets for true, and bit strings with unused bits that are set or in
    no octet. -/
theorem decode_restricts (type : PrimitiveType) (content : Octets) :
    Restricts (fun _ => True) (type.decode .der content) (type.decode .ber content) := by
  cases type with
  | boolean => exact (decodeBoolean_restricts content).map _
  | integer => exact (Integer.ofContent_restricts content).map _
  | bitString => exact (BitString.ofContent_restricts content).map _
  | enumerated => exact (Integer.ofContent_restricts content).map _
  | octetString => exact .rfl
  | null => exact .rfl
  | objectIdentifier => exact .rfl
  | charString charType => exact .rfl

end PrimitiveType

theorem Schema.readPrimitive_restricts (tag : Tag) (element : Element) (pos : Nat) :
    Restricts DecodeError.IsContent (readPrimitive .der tag element pos)
      (readPrimitive .ber tag element pos) := by
  rw [readPrimitive, readPrimitive]
  refine .ite .rfl ?_
  cases PrimitiveType.ofTag? tag with
  | none => exact .rfl
  | some type =>
      obtain heq | ⟨error, -, heq⟩ := type.decode_restricts element.content.octets
      · simp only [heq]
        exact .rfl
      · simp only [heq]
        exact .refused (ErrorKind.isContent_content error)

/-! ## Items and fields -/

variable {item item' : Window → Except DecodeError (Value × Window)} {refuses : DecodeError → Prop}

theorem readItems_restricts (h : ∀ window, Restricts refuses (item window) (item' window)) (budget : Nat)
    (window : Window) : Restricts refuses (readItems item budget window) (readItems item' budget window) := by
  induction budget generalizing window with
  | zero => exact .rfl
  | succ budget ih =>
      rw [readItems, readItems]
      exact .ite .rfl ((h window).bind fun _ => (ih _).bind fun _ => .rfl)

namespace Field

variable {σ : Type} {strict lenient : ValueReader}

theorem readRepeated_restricts (field : Field σ)
    (h : ∀ override window, Restricts DecodeError.IsContent (strict override window)
      (lenient override window)) (override : Option Tag) (window : Window) :
    Restricts DecodeError.IsContent (field.readRepeated .der strict override window)
      (field.readRepeated .ber lenient override window) := by
  rw [readRepeated, readRepeated]
  have hitems (outer : Tag) : Restricts DecodeError.IsContent
      (do
        let element ← Element.takeConstructed .der (override.getD outer) field.name window
        let values ← readItems (strict none) element.content.octets.length element.content
        return (values, element.rest))
      (do
        let element ← Element.takeConstructed .ber (override.getD outer) field.name window
        let values ← readItems (lenient none) element.content.octets.length element.content
        return (values, element.rest)) :=
    (Element.takeConstructed_restricts _ _ _).bind fun _ =>
      (readItems_restricts (h none) _ _).bind fun _ => .rfl
  cases field.repetition with
  | single => exact h override window
  | setOf => exact (hitems .set).bind fun _ => .rfl
  | sequenceOf => exact (hitems .sequence).bind fun _ => .rfl

theorem read_restricts (field : Field σ)
    (h : ∀ override window, Restricts DecodeError.IsContent (strict override window)
      (lenient override window)) (window : Window) :
    Restricts DecodeError.IsContent (field.read .der strict window) (field.read .ber lenient window) := by
  rw [read, read]
  rcases field.tagging with _ | ⟨_ | _, tag⟩
  · exact field.readRepeated_restricts h none window
  · exact field.readRepeated_restricts h (some tag) window
  · refine (Element.takeConstructed_restricts _ _ _).bind fun element => .ite .rfl ?_
    exact (field.readRepeated_restricts h none element.content).bind fun _ => .rfl

end Field

/-! ## Types -/

namespace Schema

theorem isPresent_restricts (expected : Option Tag) (window : Window) :
    Restricts DecodeError.IsContent (isPresent .der expected window) (isPresent .ber expected window) := by
  unfold isPresent
  cases expected with
  | none => exact .rfl
  | some tag => exact (Header.take_restricts window).bind fun _ => .rfl

/-- Runs over fields restrict if those of their types do. A tag that is looked at is the same in both
    runs, so the same fields are passed over. -/
theorem readFields_restricts {fields : List (Field Schema)}
    (htypes : ∀ field ∈ fields, ∀ type ∈ field.type.types, ∀ name override window,
      Restricts DecodeError.IsContent (type.read .der name override window)
        (type.read .ber name override window)) (known : Sequence Value) (window : Window) :
    Restricts DecodeError.IsContent (readFields fields .der known window)
      (readFields fields .ber known window) := by
  induction fields generalizing known window with
  | nil =>
      rw [readFields, readFields]
      exact .rfl
  | cons field rest ih =>
      have ih := ih fun other hother => htypes other (List.mem_cons_of_mem _ hother)
      rw [readFields, readFields]
      refine .ite (.ite (ih known window) .rfl) ?_
      split
      · exact .rfl
      · -- Both runs know the same fields, so they resolve the same type and look for the same tag.
        rename_i type hresolve
        have htype := htypes field List.mem_cons_self type (Field.resolve?_mem hresolve) field.name
        refine (isPresent_restricts _ window).bind fun present => .ite ?_ (.ite (ih known window) .rfl)
        exact (field.read_restricts htype window).bind fun _ => ih _ _

/-- **Reading in DER is reading in BER up to a refusal.** -/
theorem read_restricts (schema : Schema) (name : String) (override : Option Tag) (window : Window) :
    Restricts DecodeError.IsContent (schema.read .der name override window)
      (schema.read .ber name override window) := by
  induction schema using Schema.induction generalizing name override window with
  | primitive tag =>
      rw [read, read]
      refine (Element.take_restricts window).bind fun element => .ite ?_ .rfl
      exact (readPrimitive_restricts tag element window.pos).bind fun _ => .rfl
  | any =>
      rw [read, read]
      exact (Element.take_restricts window).bind fun _ => .rfl
  | sequence typeName fields ih =>
      rw [read, read]
      refine (Element.take_restricts window).bind fun element => .ite (.ite ?_ .rfl) .rfl
      exact (readFields_restricts ih .empty element.content).bind fun _ => .rfl

/-- **Decoding in DER is decoding in BER, but for data it refuses** with a fault in the encoding of a
    single value. -/
theorem decode_restricts (schema : Schema) (data : Octets) :
    Restricts DecodeError.IsContent (schema.decode .der data) (schema.decode .ber data) := by
  rw [decode, decode]
  exact (schema.read_restricts _ _ _).bind fun _ => .rfl

end Schema

end Asn1
