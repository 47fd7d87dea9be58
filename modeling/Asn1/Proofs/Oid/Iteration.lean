import Asn1.Proofs.Oid

/-!
# `Asn1.Proofs.Oid.Iteration` — valid octets and lists of components are the same thing

The components of an identifier are visited one after the other: each step looks for the end of the next
sub-identifier, and only the first step leaves it in place, to be visited again for the second component. For
valid octets the visit ends behind the last one of them. So it yields a component more than there are numbers,
and the octets are determined by the values of the components.

## Contents
- **Steps.** `Oid.Iter.next?` is one step, `Oid.Iter.Yields` a run of them.
- **Runs.** `Oid.Iter.yields_components`: the run that stops yields the components, for all octets, and
  `Oid.Iter.Yields.unique`: there is only one such run.
- **Result.** `Oid.components_correspond`.
-/

namespace Asn1

namespace Oid

open Base128

/-! ## Steps -/

/-- How far a visit of the components got: the octets that are left, and the place of the next component. -/
structure Iter where
  rest : Octets
  place : Place
deriving DecidableEq

namespace Iter

/-- Nothing is visited yet. -/
def start (oid : Oid) : Iter := ⟨oid.octets, .first⟩

/-- Visits the next component, if the octets that are left complete one. The first sub-identifier stays in place
    for the second component. -/
def next? (iter : Iter) : Option (Component × Iter) :=
  match iter.rest.findIdx? fun octet => !continues octet with
  | none => none
  | some stop =>
    let component : Component := ⟨iter.place, iter.rest.take (stop + 1)⟩
    match iter.place with
    | .first => some (component, ⟨iter.rest, .second⟩)
    | .second | .later => some (component, ⟨iter.rest.drop (stop + 1), .later⟩)

/-- The components that are visited on the way from one state to another. -/
inductive Yields : Iter → List Component → Iter → Prop
  | refl (iter : Iter) : Yields iter [] iter
  | next {iter next final : Iter} {component : Component} {components : List Component} :
      iter.next? = some (component, next) → Yields next components final →
        Yields iter (component :: components) final

/-- The end of the first digits is found where they end. -/
theorem findIdx?_append {part : Octets} (rest : Octets) (h : isTerminated part = true) :
    ∃ stop, (part ++ rest).findIdx? (fun octet => !continues octet) = some stop ∧ stop + 1 = part.length := by
  induction part with
  | nil => cases h
  | cons octet part ih =>
      rw [List.cons_append, List.findIdx?_cons]
      by_cases hcont : continues octet = true
      · have hpart : isTerminated part = true := by rwa [isTerminated, if_pos hcont] at h
        obtain ⟨stop, hstop, hlength⟩ := ih hpart
        refine ⟨stop + 1, ?_, ?_⟩
        · simp [hcont, hstop]
        · rw [List.length_cons, hlength]
      · have hnil : part = [] := by rwa [isTerminated, if_neg hcont, List.isEmpty_iff] at h
        refine ⟨0, ?_, ?_⟩
        · simp [hcont]
        · rw [hnil]
          rfl

/-- One step visits the first digits of what is left. -/
theorem next?_append {part : Octets} (rest : Octets) (place : Place) (h : isTerminated part = true) :
    next? ⟨part ++ rest, place⟩ =
      some (⟨place, part⟩, if place = .first then ⟨part ++ rest, .second⟩ else ⟨rest, .later⟩) := by
  obtain ⟨stop, hstop, hlength⟩ := findIdx?_append rest h
  cases place <;> simp [next?, hstop, hlength]

/-- Nothing more is visited if no octet that is left completes a number. -/
theorem next?_unfinished {octets : Octets} (place : Place) (h : ∀ octet ∈ octets, continues octet = true) :
    next? ⟨octets, place⟩ = none := by
  have hnone : octets.findIdx? (fun octet => !continues octet) = none := by
    rw [List.findIdx?_eq_none_iff]
    intro octet hmem
    rw [h octet hmem, Bool.not_true]
  simp only [next?, hnone]

/-! ## Runs -/

/-- Behind the second component each step passes one number. -/
theorem yields_later {parts : List Octets} (unfinished : Octets) (h : ∀ part ∈ parts, isTerminated part = true) :
    Yields ⟨parts.flatten ++ unfinished, .later⟩ (parts.map fun part => ⟨.later, part⟩) ⟨unfinished, .later⟩ := by
  induction parts with
  | nil => exact .refl _
  | cons part parts ih =>
      rw [List.forall_mem_cons] at h
      rw [List.flatten_cons, List.append_assoc]
      exact .next (next?_append _ .later h.1) (ih h.2)

/-- The first two steps look at the same number. -/
theorem yields_start {first : Octets} {others : List Octets} (unfinished : Octets)
    (h : ∀ part ∈ first :: others, isTerminated part = true) :
    Yields ⟨(first :: others).flatten ++ unfinished, .first⟩
      (⟨.first, first⟩ :: ⟨.second, first⟩ :: others.map fun part => ⟨.later, part⟩) ⟨unfinished, .later⟩ := by
  rw [List.forall_mem_cons] at h
  rw [List.flatten_cons, List.append_assoc]
  exact .next (next?_append _ .first h.1) (.next (next?_append _ .second h.1) (yields_later unfinished h.2))

/-- A run that stops is the only one that does. -/
theorem Yields.unique {iter final final' : Iter} {components components' : List Component}
    (h : Yields iter components final) (hstop : final.next? = none) (h' : Yields iter components' final')
    (hstop' : final'.next? = none) : components = components' ∧ final = final' := by
  induction h generalizing components' with
  | refl iter =>
      cases h' with
      | refl => exact ⟨rfl, rfl⟩
      | next hnext _ =>
          rw [hstop] at hnext
          cases hnext
  | next hnext _ ih =>
      cases h' with
      | refl =>
          rw [hstop'] at hnext
          cases hnext
      | next hother hrest =>
          obtain ⟨rfl, rfl⟩ := Prod.mk.inj (Option.some.inj (hnext.symm.trans hother))
          obtain ⟨rfl, rfl⟩ := ih hstop hrest
          exact ⟨rfl, rfl⟩

/-- **A visit yields the components**, whatever the octets are, and stops before what completes no number. -/
theorem yields_components (oid : Oid) :
    ∃ final : Iter, Yields (start oid) oid.components final ∧ final.next? = none ∧ final.rest <:+ oid.octets := by
  obtain ⟨parts, unfinished, hoctets, hparts, hunfinished⟩ := exists_parts oid.octets
  have hcut := subidentifiers_flatten hparts hunfinished
  rw [← hoctets] at hcut
  rw [start, components, hcut, hoctets]
  cases parts with
  | nil => exact ⟨⟨unfinished, .first⟩, .refl _, next?_unfinished _ hunfinished, List.suffix_refl _⟩
  | cons first others =>
      exact ⟨⟨unfinished, .later⟩, yields_start unfinished hparts, next?_unfinished _ hunfinished,
        List.suffix_append _ _⟩

end Iter

/-! ## Result -/

/-- **Valid octets are the rows of shortest numbers.** -/
theorem exists_ofContent_iff {content : Octets} :
    (∃ oid, ofContent content = .ok oid) ↔
      ∃ parts : List Octets, parts ≠ [] ∧ (∀ part ∈ parts, IsShortest part) ∧ content = parts.flatten := by
  constructor
  · rintro ⟨oid, h⟩
    obtain ⟨-, numbers, hne, rfl⟩ := ofContent_eq_ok_iff.1 h
    refine ⟨numbers.map encode, mt List.map_eq_nil_iff.1 hne, ?_, List.flatMap_def⟩
    intro part hmem
    obtain ⟨number, -, rfl⟩ := List.mem_map.1 hmem
    exact isShortest_encode number
  · rintro ⟨parts, hne, hparts, rfl⟩
    refine ⟨⟨parts.flatten⟩, ofContent_eq_ok_iff.2 ⟨rfl, parts.map value, mt List.map_eq_nil_iff.1 hne, ?_⟩⟩
    rw [flatMap_encode_value fun part hmem => (hparts part hmem).encode_value]

/-- The components of a row, with their octets. -/
theorem components_flatten {first : Octets} {others : List Octets}
    (h : ∀ part ∈ first :: others, isTerminated part = true) :
    components ⟨(first :: others).flatten⟩ =
      ⟨.first, first⟩ :: ⟨.second, first⟩ :: others.map fun part => ⟨.later, part⟩ := by
  rw [components, subidentifiers_parts h]

/-- **Valid octets and lists of components correspond.** Content is accepted exactly if it is a row of numbers in
    their shortest digits. A visit of its components ends behind the last octet and yields a component more than
    there are numbers: the first number stands for two, the whole forties in it, of which there are at most two,
    and what is left without them. The values of the components are those lists of two numbers or more that
    start with a number up to 2 and go on with one below 40 unless the first is 2, each for one identifier. -/
theorem components_correspond :
    (∀ content : Octets, (∃ oid, ofContent content = .ok oid) ↔
      ∃ parts : List Octets, parts ≠ [] ∧ (∀ part ∈ parts, IsShortest part) ∧ content = parts.flatten) ∧
    (∀ (first : Octets) (others : List Octets), (∀ part ∈ first :: others, IsShortest part) →
      ∃ oid : Oid, ofContent (first :: others).flatten = .ok oid ∧ oid.octets = (first :: others).flatten ∧
        (∀ (components : List Component) (final : Iter),
          Iter.Yields (Iter.start oid) components final ∧ final.next? = none ↔
            components = oid.components ∧ final = ⟨[], .later⟩) ∧
        oid.components.length = (first :: others).length + 1 ∧
        oid.values = min (value first / 40) 2 :: (value first - min (value first / 40) 2 * 40) ::
          others.map value) ∧
    Set.BijOn values {oid | oid.IsValid} {arcs | IsArcs arcs} ∧
    ∀ a b : Oid, a.IsValid → b.IsValid → (a = b ↔ a.values = b.values) := by
  refine ⟨fun _ => exists_ofContent_iff, ?_, bijOn_values, ?_⟩
  · intro first others hparts
    have hterm : ∀ part ∈ first :: others, isTerminated part = true := fun part hmem => (hparts part hmem).1
    obtain ⟨oid, haccepted⟩ := exists_ofContent_iff.2 ⟨first :: others, List.cons_ne_nil _ _, hparts, rfl⟩
    have hoctets : oid.octets = (first :: others).flatten := octets_of_ofContent haccepted
    obtain rfl : oid = ⟨(first :: others).flatten⟩ := congrArg Oid.mk hoctets
    have hcomponents := components_flatten hterm
    have hrun := Iter.yields_start [] hterm
    rw [List.append_nil, ← hcomponents] at hrun
    refine ⟨_, haccepted, rfl, ?_, ?_, ?_⟩
    · intro components final
      constructor
      · rintro ⟨hyields, hstop⟩
        exact hyields.unique hstop hrun rfl
      · rintro ⟨rfl, rfl⟩
        exact ⟨hrun, rfl⟩
    · rw [hcomponents, List.length_cons, List.length_cons, List.length_map, List.length_cons]
    · rw [values, hcomponents, List.map_cons, List.map_cons, List.map_map, ← firstOf_eq]
      rfl
  · intro a b ha hb
    constructor
    · exact congrArg values
    · exact bijOn_values.injOn ha hb

/-- The identifier 2.999.3: its first number is 1079, which is beyond the two forties by 999. -/
theorem components_correspond_joint :
    ofContent [0x88, 0x37, 0x03] = .ok ⟨[0x88, 0x37, 0x03]⟩ ∧ values ⟨[0x88, 0x37, 0x03]⟩ = [2, 999, 3] ∧
      Iter.Yields ⟨[0x88, 0x37, 0x03], .first⟩
        [⟨.first, [0x88, 0x37]⟩, ⟨.second, [0x88, 0x37]⟩, ⟨.later, [0x03]⟩] ⟨[], .later⟩ ∧
      (⟨[0x88, 0x37, 0x03]⟩ : Oid) ≠ ⟨[0x88, 0x38, 0x03]⟩ := by
  obtain ⟨-, hrow, -, hsame⟩ := components_correspond
  have hparts : ∀ part ∈ [[0x88, 0x37], [(0x03 : UInt8)]], IsShortest part := by
    intro part hmem
    have hwritten : encode (value part) = part := by
      rcases List.mem_cons.1 hmem with rfl | hmem
      · decide +kernel
      · rw [List.mem_singleton.1 hmem]
        decide +kernel
    exact isShortest_iff.2 ⟨value part, hwritten.symm⟩
  obtain ⟨oid, haccepted, hoctets, hvisit, -, hvalues⟩ := hrow [0x88, 0x37] [[0x03]] hparts
  obtain rfl : oid = ⟨[0x88, 0x37, 0x03]⟩ := congrArg Oid.mk hoctets
  have hother : IsValid ⟨[0x88, 0x38, 0x03]⟩ := rfl
  refine ⟨haccepted, hvalues, ((hvisit _ _).2 ⟨rfl, rfl⟩).1, ?_⟩
  intro heq
  have := (hsame _ _ haccepted hother).1 heq
  revert this
  decide +kernel

end Oid

end Asn1
