import Asn1.Proofs.Oid.Native
import Mathlib.Data.List.Forall2

/-!
# `Asn1.Proofs.Oid.Dotted` — the dotted notation and the octets agree

A text in dotted notation is a row of numbers in decimal, each of which may have leading zeros and a plus sign.
What is read from it is the identifier with these numbers as the values of its components, and the text written
for that identifier is read as the same again. The other way round, the text of a valid identifier is read as that
identifier as long as no component is above the largest one that is read, and else refused: then a number in the
text is too large, or a mark stands in its place.

## Contents
- **Notation.** `Oid.Spells` and `Oid.Denotes` say which numbers a text stands for, `Oid.Denotes.unique`: no others.
- **Reading.** `Oid.component_eq_ok_iff` and `Oid.ofDotted_eq_ok_iff`: reading in terms of the notation.
- **Writing.** `Oid.splitDots_text` cuts a text into those of its components, `Oid.denotes_text_iff`.
- **Words.** `Oid.ofWords` puts the octets together in words, as it is done for components of 32 bits.
- **Result.** `Oid.dotted_agrees`.
-/

namespace Asn1

namespace Oid

/-! ## Notation -/

/-- A piece of text spells a number: decimal digits, behind a plus sign or not. -/
def Spells (piece : List Char) (number : Nat) : Prop :=
  ∃ digits : List Char, (piece = digits ∨ piece = '+' :: digits) ∧ digits ≠ [] ∧
    (∀ digit ∈ digits, digit.isDigit = true) ∧ Nat.ofDigitChars 10 digits 0 = number

/-- A text denotes the numbers that its pieces between the dots spell. -/
def Denotes (text : String) (numbers : List Nat) : Prop :=
  ∃ pieces : List (List Char), pieces ≠ [] ∧ text.toList = ['.'].intercalate pieces ∧
    List.Forall₂ Spells pieces numbers

/-- A plus sign is dropped, and digits are left as they are. -/
theorem dropPlus_of_spells {piece digits : List Char} (hpiece : piece = digits ∨ piece = '+' :: digits)
    (hdigits : ∀ digit ∈ digits, digit.isDigit = true) : dropPlus piece = digits := by
  rcases hpiece with rfl | rfl
  · cases piece with
    | nil => rfl
    | cons char rest =>
        have hchar := hdigits char List.mem_cons_self
        -- a digit in front is not the sign that is dropped
        have hplus : char ≠ '+' := by
          rintro rfl
          exact absurd hchar (by decide)
        rw [dropPlus]
        intro other heq
        exact hplus (List.cons.inj heq).1
  · rfl

/-- A piece of text spells one number at most. -/
theorem Spells.unique {piece : List Char} {a b : Nat} (ha : Spells piece a) (hb : Spells piece b) : a = b := by
  obtain ⟨digits, hpiece, -, hdigits, rfl⟩ := ha
  obtain ⟨others, hpiece', -, hothers, rfl⟩ := hb
  rw [← dropPlus_of_spells hpiece hdigits, ← dropPlus_of_spells hpiece' hothers]

/-- There is no dot in what spells a number. -/
theorem Spells.dot_not_mem {piece : List Char} {number : Nat} (h : Spells piece number) : '.' ∉ piece := by
  obtain ⟨digits, hpiece, -, hdigits, -⟩ := h
  have hdot : '.' ∉ digits := fun hmem => absurd (hdigits _ hmem) (by decide)
  rcases hpiece with rfl | rfl
  · exact hdot
  · rw [List.mem_cons, not_or]
    exact ⟨by decide, hdot⟩

/-- Cutting a text at its dots is splitting a list. -/
theorem splitDots_eq (text : List Char) : splitDots text = text.splitOn '.' := by
  induction text with
  | nil => rfl
  | cons char rest ih =>
      rw [List.splitOn_cons_eq_if_modifyHead, splitDots, ih]
      by_cases hdot : char = '.'
      · rw [if_pos hdot, if_pos (beq_iff_eq.2 hdot)]
      · rw [if_neg hdot, if_neg (mt beq_iff_eq.1 hdot)]
        cases hsplit : rest.splitOn '.' with
        | nil => exact absurd hsplit (List.splitOn_ne_nil '.' rest)
        | cons piece pieces => rfl

/-- A text is put together from its pieces. -/
theorem intercalate_splitDots (text : List Char) : ['.'].intercalate (splitDots text) = text := by
  rw [splitDots_eq, List.intercalate_splitOn]

/-- Pieces without dots are cut off as they were put together. -/
theorem splitDots_intercalate {pieces : List (List Char)} (hne : pieces ≠ []) (h : ∀ piece ∈ pieces, '.' ∉ piece) :
    splitDots (['.'].intercalate pieces) = pieces := by
  rw [splitDots_eq, List.splitOn_intercalate '.' h hne]

/-- A text denotes numbers exactly if its pieces spell them. -/
theorem denotes_iff {text : String} {numbers : List Nat} :
    Denotes text numbers ↔ List.Forall₂ Spells (splitDots text.toList) numbers := by
  constructor
  · rintro ⟨pieces, hne, htext, hspells⟩
    have hdot : ∀ piece ∈ pieces, '.' ∉ piece := by
      have hboth := hspells.imp fun piece number h => And.intro h.dot_not_mem h
      exact ((List.forall₂_and_left pieces numbers).1 hboth).1
    rw [htext, splitDots_intercalate hne hdot]
    exact hspells
  · intro hspells
    refine ⟨splitDots text.toList, ?_, (intercalate_splitDots _).symm, hspells⟩
    rw [splitDots_eq]
    exact List.splitOn_ne_nil '.' _

/-- A text denotes one row of numbers at most. -/
theorem Denotes.unique {text : String} {numbers others : List Nat} (h : Denotes text numbers)
    (hother : Denotes text others) : numbers = others := by
  have hunique : Relator.RightUnique Spells := fun _ _ _ => Spells.unique
  exact List.right_unique_forall₂' hunique (denotes_iff.1 h) (denotes_iff.1 hother)

/-! ## Reading -/

/-- What is left of a piece without a plus sign. -/
theorem eq_dropPlus (piece : List Char) : piece = dropPlus piece ∨ piece = '+' :: dropPlus piece := by
  unfold dropPlus
  split
  · exact .inr rfl
  · exact .inl rfl

/-- Digits are put together as in the library. -/
theorem decimal?_eq_some_iff {digits : List Char} {number : Nat} :
    decimal? digits = some number ↔
      (∀ digit ∈ digits, digit.isDigit = true) ∧ Nat.ofDigitChars 10 digits 0 = number := by
  have hfold : digits.foldl (fun number digit => number * 10 + (digit.toNat - 48)) 0 =
      Nat.ofDigitChars 10 digits 0 := by
    unfold Nat.ofDigitChars
    simp only [Nat.mul_comm 10]
    rfl
  unfold decimal?
  rw [hfold, ← List.all_eq_true]
  by_cases hall : digits.all Char.isDigit = true
  · rw [if_pos hall, Option.some.injEq]
    exact (and_iff_right hall).symm
  · rw [if_neg hall]
    exact ⟨nofun, fun h => absurd h.1 hall⟩

/-- **A component is read if it spells a number of 32 bits.** -/
theorem component_eq_ok_iff {piece : List Char} {number : Nat} :
    component piece = .ok number ↔ Spells piece number ∧ number ≤ maxDotted := by
  constructor
  · intro h
    unfold component at h
    split at h
    · cases h
    · rename_i hne
      split at h
      · rename_i found hnumber
        by_cases hle : found ≤ maxDotted
        · rw [if_pos hle] at h
          cases h
          obtain ⟨hall, hvalue⟩ := decimal?_eq_some_iff.1 hnumber
          exact ⟨⟨dropPlus piece, eq_dropPlus piece, hne, hall, hvalue⟩, hle⟩
        · rw [if_neg hle] at h
          cases h
      · cases h
  · rintro ⟨⟨digits, hpiece, hne, hall, hvalue⟩, hle⟩
    have hnumber : decimal? digits = some number := decimal?_eq_some_iff.2 ⟨hall, hvalue⟩
    obtain ⟨digit, rest, rfl⟩ := List.exists_cons_of_ne_nil hne
    unfold component
    simp only [dropPlus_of_spells hpiece hall, hnumber, if_pos hle]

/-- There is one error for a component, whatever is wrong with it. -/
theorem eq_notInteger_of_component {piece : List Char} {error : DottedError} (h : component piece = .error error) :
    error = .notInteger := by
  unfold component at h
  split at h
  · exact (Except.error.inj h).symm
  · split at h
    · split at h
      · cases h
      · exact (Except.error.inj h).symm
    · exact (Except.error.inj h).symm

/-- Components in a row are read if each is. -/
theorem mapM_component_eq_ok_iff {pieces : List (List Char)} {numbers : List Nat} :
    pieces.mapM component = .ok numbers ↔
      List.Forall₂ Spells pieces numbers ∧ ∀ number ∈ numbers, number ≤ maxDotted := by
  induction pieces generalizing numbers with
  | nil =>
      rw [List.mapM_nil, List.forall₂_nil_left_iff]
      constructor
      · intro h
        cases h
        exact ⟨rfl, nofun⟩
      · rintro ⟨rfl, -⟩
        rfl
  | cons piece pieces ih =>
      rw [List.mapM_cons, bind_eq_ok_iff]
      constructor
      · rintro ⟨number, hpiece, h⟩
        obtain ⟨others, hothers, h⟩ := bind_eq_ok_iff.1 h
        cases h
        obtain ⟨hspells, hle⟩ := component_eq_ok_iff.1 hpiece
        obtain ⟨hspellsAll, hleAll⟩ := ih.1 hothers
        exact ⟨.cons hspells hspellsAll, List.forall_mem_cons.2 ⟨hle, hleAll⟩⟩
      · rintro ⟨hspells, hle⟩
        obtain ⟨number, others, hpiece, hothers, rfl⟩ := List.forall₂_cons_left_iff.1 hspells
        rw [List.forall_mem_cons] at hle
        exact ⟨number, component_eq_ok_iff.2 ⟨hpiece, hle.1⟩,
          bind_eq_ok_iff.2 ⟨others, ih.2 ⟨hothers, hle.2⟩, rfl⟩⟩

/-- A row of components is only refused for one of them. -/
theorem eq_notInteger_of_mapM {pieces : List (List Char)} {error : DottedError}
    (h : pieces.mapM component = .error error) : error = .notInteger := by
  induction pieces with
  | nil => cases h
  | cons piece pieces ih =>
      rw [List.mapM_cons] at h
      rcases bind_eq_error_iff.1 h with hpiece | ⟨number, -, h⟩
      · exact eq_notInteger_of_component hpiece
      · rcases bind_eq_error_iff.1 h with hothers | ⟨others, -, h⟩
        · exact ih hothers
        · cases h

/-- **A text is read exactly if it denotes values of 32 bits that an identifier has**, as the identifier with
    these values. -/
theorem ofDotted_eq_ok_iff {text : String} {oid : Oid} :
    ofDotted text = .ok oid ↔
      ∃ numbers, Denotes text numbers ∧ IsArcs numbers ∧ (∀ number ∈ numbers, number ≤ maxDotted) ∧
        oid = ofArcs numbers := by
  simp only [denotes_iff]
  constructor
  · intro h
    unfold ofDotted at h
    split at h
    · rename_i firstText secondText others hpieces
      obtain ⟨first, hfirst, h⟩ := bind_eq_ok_iff.1 h
      obtain ⟨hspellsFirst, hleFirst⟩ := component_eq_ok_iff.1 hfirst
      by_cases hlarge : 2 < first
      · rw [if_pos hlarge] at h
        cases h
      · rw [if_neg hlarge] at h
        obtain ⟨second, hsecond, h⟩ := bind_eq_ok_iff.1 h
        obtain ⟨hspellsSecond, hleSecond⟩ := component_eq_ok_iff.1 hsecond
        by_cases hbeyond : first < 2 ∧ 40 ≤ second
        · rw [if_pos hbeyond] at h
          cases h
        · rw [if_neg hbeyond] at h
          obtain ⟨numbers, hnumbers, h⟩ := bind_eq_ok_iff.1 h
          obtain ⟨hspells, hle⟩ := mapM_component_eq_ok_iff.1 hnumbers
          cases h
          -- the two checks that were passed are those of `IsArcs`
          refine ⟨first :: second :: numbers, ?_, ?_, ?_, rfl⟩
          · rw [hpieces]
            exact .cons hspellsFirst (.cons hspellsSecond hspells)
          · show first ≤ 2 ∧ (first < 2 → second < 40)
            omega
          · rw [List.forall_mem_cons, List.forall_mem_cons]
            exact ⟨hleFirst, hleSecond, hle⟩
    · cases h
  · rintro ⟨numbers, hspells, harcs, hle, rfl⟩
    obtain ⟨first, second, others, rfl, hfirst, hsecond⟩ := isArcs_iff.1 harcs
    obtain ⟨firstText, rest, hspellsFirst, hrest, hpieces⟩ := List.forall₂_cons_right_iff.1 hspells
    obtain ⟨secondText, otherTexts, hspellsSecond, hspellsOthers, rfl⟩ := List.forall₂_cons_right_iff.1 hrest
    rw [List.forall_mem_cons, List.forall_mem_cons] at hle
    obtain ⟨hleFirst, hleSecond, hleOthers⟩ := hle
    have hsmall : ¬ 2 < first := by omega
    have hwithin : ¬ (first < 2 ∧ 40 ≤ second) := by omega
    unfold ofDotted
    rw [hpieces]
    refine bind_eq_ok_iff.2 ⟨first, component_eq_ok_iff.2 ⟨hspellsFirst, hleFirst⟩, ?_⟩
    rw [if_neg hsmall]
    refine bind_eq_ok_iff.2 ⟨second, component_eq_ok_iff.2 ⟨hspellsSecond, hleSecond⟩, ?_⟩
    rw [if_neg hwithin]
    exact bind_eq_ok_iff.2 ⟨others, mapM_component_eq_ok_iff.2 ⟨hspellsOthers, hleOthers⟩, rfl⟩

/-- What is read is a valid identifier, and its values are what the text denotes. -/
theorem denotes_of_ofDotted {text : String} {oid : Oid} (h : ofDotted text = .ok oid) :
    oid.IsValid ∧ Denotes text oid.values ∧ ∀ value ∈ oid.values, value ≤ maxDotted := by
  obtain ⟨numbers, hdenotes, harcs, hle, rfl⟩ := ofDotted_eq_ok_iff.1 h
  rw [values_ofArcs harcs]
  exact ⟨isValid_ofArcs harcs, hdenotes, hle⟩

/-- A text is refused for one of its pieces if these do not spell other numbers than the values of an
    identifier. -/
theorem ofDotted_error {text : String} {arcs : List Nat} (harcs : IsArcs arcs)
    (hpieces : List.Forall₂ (fun piece arc => ∀ number, Spells piece number → number = arc)
      (splitDots text.toList) arcs) {error : DottedError} (h : ofDotted text = .error error) :
    error = .notInteger := by
  obtain ⟨first, second, others, rfl, hfirst, hsecond⟩ := isArcs_iff.1 harcs
  obtain ⟨firstText, rest, hspellsFirst, hrest, hpieces⟩ := List.forall₂_cons_right_iff.1 hpieces
  obtain ⟨secondText, otherTexts, hspellsSecond, hspellsOthers, rfl⟩ := List.forall₂_cons_right_iff.1 hrest
  unfold ofDotted at h
  rw [hpieces] at h
  rcases bind_eq_error_iff.1 h with hread | ⟨number, hread, h⟩
  · exact eq_notInteger_of_component hread
  · -- a piece that is read spells its value, so the checks of the first two components are passed
    have hnumber : number = first := hspellsFirst _ (component_eq_ok_iff.1 hread).1
    have hsmall : ¬ 2 < number := by omega
    rw [if_neg hsmall] at h
    rcases bind_eq_error_iff.1 h with hother | ⟨other, hother, h⟩
    · exact eq_notInteger_of_component hother
    · have hvalue : other = second := hspellsSecond _ (component_eq_ok_iff.1 hother).1
      have hwithin : ¬ (number < 2 ∧ 40 ≤ other) := by omega
      rw [if_neg hwithin] at h
      rcases bind_eq_error_iff.1 h with hothers | ⟨_, -, h⟩
      · exact eq_notInteger_of_mapM hothers
      · cases h

/-! ## Writing -/

/-- A number is spelled by its decimal digits. -/
theorem spells_toString (number : Nat) : Spells (toString number).toList number := by
  show Spells number.repr.toList number
  rw [Nat.toList_repr]
  refine ⟨Nat.toDigits 10 number, .inl rfl, Nat.toDigits_ne_nil, ?_, Nat.ofDigitChars_ten_toDigits⟩
  intro digit hmem
  exact Nat.isDigit_of_mem_toDigits (by decide) (by decide) hmem

/-- The mark spells nothing. -/
theorem not_spells_overflow (number : Nat) : ¬ Spells "(overflow)".toList number := by
  intro h
  have hread : decimal? (dropPlus "(overflow)".toList) = none := by decide
  obtain ⟨digits, hpiece, -, hall, hvalue⟩ := h
  rw [dropPlus_of_spells hpiece hall, decimal?_eq_some_iff.2 ⟨hall, hvalue⟩] at hread
  cases hread

/-- The text of a component spells its value, or nothing. -/
theorem Component.spells_text_iff {component : Component} (h : Base128.IsShortest component.octets) {number : Nat} :
    Spells component.text.toList number ↔ number = component.value ∧ component.number < 2 ^ 63 := by
  rw [text_eq h]
  by_cases hlimit : component.number < 2 ^ 63
  · rw [if_pos hlimit, and_iff_left hlimit]
    constructor
    · intro hspells
      exact hspells.unique (spells_toString _)
    · rintro rfl
      exact spells_toString _
  · rw [if_neg hlimit]
    constructor
    · intro hspells
      exact absurd hspells (not_spells_overflow number)
    · rintro ⟨-, hfits⟩
      exact absurd hfits hlimit

/-- There is no dot in the text of a component. -/
theorem Component.dot_not_mem_text {component : Component} (h : Base128.IsShortest component.octets) :
    '.' ∉ component.text.toList := by
  by_cases hlimit : component.number < 2 ^ 63
  · exact ((spells_text_iff h).2 ⟨rfl, hlimit⟩).dot_not_mem
  · rw [text_eq h, if_neg hlimit]
    decide

/-- There are components in a valid identifier. -/
theorem components_ne_nil {oid : Oid} (hvalid : oid.IsValid) : oid.components ≠ [] := by
  obtain ⟨first, others, rfl⟩ := hvalid.exists_numbers
  rw [components_ofNumbers]
  exact List.cons_ne_nil _ _

/-- **A text is cut into the texts of its components.** -/
theorem splitDots_text {oid : Oid} (hvalid : oid.IsValid) :
    splitDots oid.text.toList = oid.components.map fun component => component.text.toList := by
  rw [text, String.toList_intercalate, List.map_map]
  apply splitDots_intercalate
  · exact mt List.map_eq_nil_iff.1 (components_ne_nil hvalid)
  · intro piece hmem
    obtain ⟨component, hcomponent, rfl⟩ := List.mem_map.1 hmem
    exact Component.dot_not_mem_text (isShortest_of_mem_components hvalid hcomponent)

/-- The texts of components spell their values or, if one of them is marked, no row of numbers. -/
theorem forall₂_spells_text_iff {components : List Component}
    (h : ∀ component ∈ components, Base128.IsShortest component.octets) {numbers : List Nat} :
    List.Forall₂ Spells (components.map fun component => component.text.toList) numbers ↔
      numbers = components.map Component.value ∧ ∀ component ∈ components, component.number < 2 ^ 63 := by
  induction components generalizing numbers with
  | nil =>
      rw [List.map_nil, List.forall₂_nil_left_iff]
      exact (and_iff_left nofun).symm
  | cons component components ih =>
      rw [List.forall_mem_cons] at h
      rw [List.map_cons, List.forall₂_cons_left_iff, List.forall_mem_cons]
      constructor
      · rintro ⟨number, others, hspells, hothers, rfl⟩
        obtain ⟨rfl, hlimit⟩ := (Component.spells_text_iff h.1).1 hspells
        obtain ⟨rfl, hlimits⟩ := (ih h.2).1 hothers
        exact ⟨rfl, hlimit, hlimits⟩
      · rintro ⟨rfl, hlimit, hlimits⟩
        exact ⟨_, _, (Component.spells_text_iff h.1).2 ⟨rfl, hlimit⟩, (ih h.2).2 ⟨rfl, hlimits⟩, rfl⟩

/-- **The text of an identifier denotes the values of its components** or, if one of them is marked, nothing. -/
theorem denotes_text_iff {oid : Oid} (hvalid : oid.IsValid) {numbers : List Nat} :
    Denotes oid.text numbers ↔
      numbers = oid.values ∧ ∀ component ∈ oid.components, component.number < 2 ^ 63 := by
  rw [denotes_iff, splitDots_text hvalid]
  exact forall₂_spells_text_iff fun component hmem => isShortest_of_mem_components hvalid hmem

/-- Nothing is marked if all components can be read. -/
theorem number_lt_of_values_le {oid : Oid} (hvalid : oid.IsValid) (hle : ∀ value ∈ oid.values, value ≤ maxDotted) :
    ∀ component ∈ oid.components, component.number < 2 ^ 63 := by
  obtain ⟨first, others, rfl⟩ := hvalid.exists_numbers
  rw [values_ofNumbers, List.forall_mem_cons, List.forall_mem_cons, firstOf_eq, maxDotted] at hle
  obtain ⟨-, hsecond, hothers⟩ := hle
  -- the first number is above its second component by 80 at most
  have hfirst : first < 2 ^ 63 := by omega
  intro component hmem
  rw [components_ofNumbers, List.mem_cons, List.mem_cons, List.mem_map] at hmem
  rcases hmem with rfl | rfl | ⟨number, hnumber, rfl⟩
  · rwa [Component.number_encode]
  · rwa [Component.number_encode]
  · have := hothers number hnumber
    rw [Component.number_encode]
    omega

/-- **What is written for an identifier is read as that identifier**, if its components can be read. -/
theorem ofDotted_text {oid : Oid} (hvalid : oid.IsValid) (hle : ∀ value ∈ oid.values, value ≤ maxDotted) :
    ofDotted oid.text = .ok oid := by
  obtain ⟨harcs, heq⟩ := ofArcs_values hvalid
  have hdenotes := (denotes_text_iff hvalid).2 ⟨rfl, number_lt_of_values_le hvalid hle⟩
  exact ofDotted_eq_ok_iff.2 ⟨oid.values, hdenotes, harcs, hle, heq.symm⟩

/-- **What is written for another identifier is refused**, never read as something else. -/
theorem ofDotted_text_error {oid : Oid} (hvalid : oid.IsValid)
    (hlarge : ¬ ∀ value ∈ oid.values, value ≤ maxDotted) : ofDotted oid.text = .error .notInteger := by
  cases hread : ofDotted oid.text with
  | ok other =>
      -- what is read has the numbers in the text as its values, and these are the ones that are too large
      obtain ⟨numbers, hdenotes, -, hle, -⟩ := ofDotted_eq_ok_iff.1 hread
      obtain ⟨rfl, -⟩ := (denotes_text_iff hvalid).1 hdenotes
      exact absurd hle hlarge
  | error error =>
      have hpieces : List.Forall₂ (fun piece arc => ∀ number, Spells piece number → number = arc)
          (splitDots oid.text.toList) oid.values := by
        rw [splitDots_text hvalid, values, List.forall₂_map_left_iff, List.forall₂_map_right_iff,
          List.forall₂_same]
        intro component hmem number hspells
        exact ((Component.spells_text_iff (isShortest_of_mem_components hvalid hmem)).1 hspells).1
      rw [ofDotted_error (ofArcs_values hvalid).1 hpieces hread]

/-! ## Words -/

/-- The identifier that is written for components in words of 32 bits. -/
def ofWords (first second : UInt32) (others : List UInt32) : Oid :=
  ⟨Word.toDigits (first.toUInt64 * 40 + second.toUInt64) ++ others.flatMap fun word => Word.toDigits word.toUInt64⟩

/-- **The words are wide enough.** -/
theorem ofWords_eq (first second : UInt32) (others : List UInt32) :
    ofWords first second others = ofArcs (first.toNat :: second.toNat :: others.map UInt32.toNat) := by
  -- 41 times a number of 32 bits is below 2^64
  have hsum : (first.toUInt64 * 40 + second.toUInt64).toNat = first.toNat * 40 + second.toNat := by
    have hfirst := first.toNat_lt
    have hsecond := second.toNat_lt
    rw [UInt64.toNat_add, UInt64.toNat_mul, UInt32.toNat_toUInt64, UInt32.toNat_toUInt64]
    show (first.toNat * 40 % 2 ^ 64 + second.toNat) % 2 ^ 64 = _
    omega
  have hothers : (others.flatMap fun word => Word.toDigits word.toUInt64) =
      (others.map UInt32.toNat).flatMap Base128.encode := by
    rw [List.flatMap_map]
    congr 1
    funext word
    rw [Word.toDigits_eq, UInt32.toNat_toUInt64]
  rw [ofWords, Word.toDigits_eq, hsum, hothers]
  rfl

/-! ## Result -/

/-- **The dotted notation and the octets agree.** A text is read if it denotes numbers of 32 bits that an
    identifier has as the values of its components. The octets of what is read are valid, the text denotes the
    values of the components and nothing else, and what is written for the identifier is read as the same again;
    so two texts are read as the same identifier exactly if they denote the same numbers. The text of a valid
    identifier is read as that identifier if all of its components have 32 bits, and is else refused. Putting the
    octets together in words makes no difference. -/
theorem dotted_agrees :
    (∀ (text : String) (oid : Oid), ofDotted text = .ok oid ↔
      ∃ numbers, Denotes text numbers ∧ IsArcs numbers ∧ (∀ number ∈ numbers, number ≤ 2 ^ 32 - 1) ∧
        oid = ofArcs numbers) ∧
    (∀ (text : String) (oid : Oid), ofDotted text = .ok oid →
      ofContent oid.octets = .ok oid ∧ (∀ numbers, Denotes text numbers ↔ numbers = oid.values) ∧
        ofDotted oid.text = .ok oid) ∧
    (∀ (text other : String) (a b : Oid), ofDotted text = .ok a → ofDotted other = .ok b →
      (a = b ↔ ∀ numbers, Denotes text numbers ↔ Denotes other numbers)) ∧
    (∀ (content : Octets) (oid : Oid), ofContent content = .ok oid →
      ofDotted oid.text = if ∀ value ∈ oid.values, value ≤ 2 ^ 32 - 1 then .ok oid else .error .notInteger) ∧
    ∀ (first second : UInt32) (others : List UInt32),
      ofWords first second others = ofArcs (first.toNat :: second.toNat :: others.map UInt32.toNat) := by
  refine ⟨fun _ _ => ofDotted_eq_ok_iff, ?_, ?_, ?_, ofWords_eq⟩
  · intro text oid hread
    obtain ⟨hvalid, hdenotes, hle⟩ := denotes_of_ofDotted hread
    refine ⟨hvalid, ?_, ofDotted_text hvalid hle⟩
    intro numbers
    constructor
    · intro hother
      exact hother.unique hdenotes
    · rintro rfl
      exact hdenotes
  · intro text other a b hread hother
    obtain ⟨hvalid, hdenotes, -⟩ := denotes_of_ofDotted hread
    obtain ⟨hvalidOther, hdenotesOther, -⟩ := denotes_of_ofDotted hother
    constructor
    · rintro rfl numbers
      constructor
      · intro h
        rw [h.unique hdenotes]
        exact hdenotesOther
      · intro h
        rw [h.unique hdenotesOther]
        exact hdenotes
    · intro hsame
      have hvalues : a.values = b.values := ((hsame _).1 hdenotes).unique hdenotesOther
      exact bijOn_values.injOn hvalid hvalidOther hvalues
  · intro content oid haccepted
    have hvalid := isValid_of_ofContent haccepted
    by_cases hle : ∀ value ∈ oid.values, value ≤ 2 ^ 32 - 1
    · rw [if_pos hle]
      exact ofDotted_text hvalid hle
    · rw [if_neg hle]
      exact ofDotted_text_error hvalid hle

/-- Leading zeros and plus signs make no difference, and a component of 33 bits is written but not read. -/
theorem dotted_agrees_signs :
    ofDotted "+1.002.840" = .ok ⟨[0x2A, 0x86, 0x48]⟩ ∧ ofDotted "1.2.840" = .ok ⟨[0x2A, 0x86, 0x48]⟩ ∧
      Denotes "+1.002.840" [1, 2, 840] ∧ (∀ numbers, Denotes "+1.002.840" numbers ↔ Denotes "1.2.840" numbers) ∧
      ofContent [0x2A, 0x90, 0x80, 0x80, 0x80, 0x00] = .ok ⟨[0x2A, 0x90, 0x80, 0x80, 0x80, 0x00]⟩ ∧
      text ⟨[0x2A, 0x90, 0x80, 0x80, 0x80, 0x00]⟩ = "1.2.4294967296" ∧
      ofDotted "1.2.4294967296" = .error .notInteger := by
  obtain ⟨-, hparsed, hsame, hwritten, -⟩ := dotted_agrees
  have hread : ofDotted "+1.002.840" = .ok ⟨[0x2A, 0x86, 0x48]⟩ := by decide +kernel
  have hplain : ofDotted "1.2.840" = .ok ⟨[0x2A, 0x86, 0x48]⟩ := by decide +kernel
  obtain ⟨-, hdenotes, -⟩ := hparsed _ _ hread
  have haccepted : ofContent [0x2A, 0x90, 0x80, 0x80, 0x80, 0x00] = .ok ⟨[0x2A, 0x90, 0x80, 0x80, 0x80, 0x00]⟩ := rfl
  have htext : text ⟨[0x2A, 0x90, 0x80, 0x80, 0x80, 0x00]⟩ = "1.2.4294967296" := by decide +kernel
  have hlarge := hwritten _ _ haccepted
  rw [htext, if_neg (by decide +kernel)] at hlarge
  exact ⟨hread, hplain, (hdenotes _).2 (by decide +kernel), (hsame _ _ _ _ hread hplain).1 rfl, haccepted, htext,
    hlarge⟩

end Oid

end Asn1
