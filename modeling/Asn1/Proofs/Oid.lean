import Asn1.Oid
import Asn1.Proofs.PrimitiveType

/-!
# `Asn1.Proofs.Oid` — identifiers are rows of numbers

The octets of an object identifier are the base-128 digits of numbers in a row. Each number says where it ends,
so the row can be cut in one way only, and where each has its shortest digits the octets are determined by the
numbers. The first number stands for two components, which determine it.

## Contents
- **Shortest digits.** `Base128.IsShortest` quantifies over all digits of a number; `Base128.isShortest_iff` finds
  them in what is written, `Base128.encodedLen_le_iff` counts them.
- **Rows.** `Oid.subidentifiers_flatten` cuts what was put together, `Oid.ofContent_eq_ok_iff` says which octets
  are accepted.
- **Numbers.** `Oid.ofNumbers`, and `Oid.isValid_iff`: these are the valid identifiers.
- **Components.** `Oid.values` lists the values of the components, `Oid.IsArcs` the lists that can be meant,
  `Oid.ofArcs` goes back; `Oid.bijOn_values`.
-/

namespace Asn1

/-! ## Shortest digits -/

namespace Base128

/-- No other digits of the same number are shorter. -/
def IsShortest (digits : Octets) : Prop :=
  isTerminated digits = true ∧
    ∀ other : Octets, isTerminated other = true → value other = value digits → digits.length ≤ other.length

/-- A zero digit in front that announces another one does not count. -/
theorem value_zero_cons (rest : Octets) : value (0x80 :: rest) = value rest := by
  show valueFrom 0 (0x80 :: rest) = valueFrom 0 rest
  rw [valueFrom_cons]
  rfl

/-- What is written for a number is no longer than other digits of it. -/
theorem length_encode_value_le {digits : Octets} (hterm : isTerminated digits = true) :
    (encode (value digits)).length ≤ digits.length := by
  induction digits with
  | nil => cases hterm
  | cons first rest ih =>
      by_cases hzero : first = 0x80
      · subst hzero
        rw [value_zero_cons]
        exact Nat.le_succ_of_le (ih hterm)
      · have hhead : (first :: rest).head? ≠ some 0x80 := by simpa using hzero
        rw [encode_value hterm hhead]

/-- The shortest digits are those that are written. -/
theorem isShortest_iff {digits : Octets} : IsShortest digits ↔ ∃ number, digits = encode number := by
  constructor
  · rintro ⟨hterm, hshortest⟩
    refine ⟨value digits, ?_⟩
    have hhead : digits.head? ≠ some 0x80 := by
      intro hzero
      obtain ⟨rest, rfl⟩ : ∃ rest, digits = 0x80 :: rest := List.head?_eq_some_iff.1 hzero
      -- the digits behind a zero digit are shorter and spell the same number
      have hle := hshortest rest hterm (value_zero_cons rest).symm
      rw [List.length_cons] at hle
      omega
    exact (encode_value hterm hhead).symm
  · rintro ⟨number, rfl⟩
    refine ⟨isTerminated_encode number, ?_⟩
    intro other hterm hvalue
    rw [value_encode] at hvalue
    rw [← hvalue]
    exact length_encode_value_le hterm

theorem isShortest_encode (number : Nat) : IsShortest (encode number) := isShortest_iff.2 ⟨number, rfl⟩

/-- Shortest digits are those that are written for their number. -/
theorem IsShortest.encode_value {digits : Octets} (h : IsShortest digits) : encode (value digits) = digits := by
  obtain ⟨number, rfl⟩ := isShortest_iff.1 h
  rw [value_encode]

/-- A number below a power of 128 needs no more digits than the exponent says, and no other number does. -/
theorem encodedLen_le_iff {number width : Nat} (hpos : 0 < width) :
    encodedLen number ≤ width ↔ number < 128 ^ width := by
  fun_induction encodedLen number generalizing width with
  | case1 number hsmall =>
      have hwidth : 128 ^ 1 ≤ 128 ^ width := Nat.pow_le_pow_right (by decide) hpos
      exact ⟨fun _ => by omega, fun _ => hpos⟩
  | case2 number hlarge ih =>
      obtain _ | _ | width := width
      · omega
      · have hone : 0 < encodedLen (number / 128) := by
          rw [encodedLen]
          split <;> omega
        simp only [zero_add, pow_one]
        omega
      · rw [pow_succ, ← Nat.div_lt_iff_lt_mul (by decide), ← ih (Nat.succ_pos width)]
        omega

end Base128

/-! ## Rows -/

namespace Oid

open Base128

/-- The first digits in a row are cut off where they end. -/
theorem subidentifiers_append {part : Octets} (rest : Octets) (h : isTerminated part = true) :
    subidentifiers (part ++ rest) = part :: subidentifiers rest := by
  induction part with
  | nil => cases h
  | cons octet part ih =>
      by_cases hcont : continues octet = true
      · have hpart : isTerminated part = true := by rwa [isTerminated, if_pos hcont] at h
        rw [List.cons_append, subidentifiers, if_pos hcont, ih hpart]
      · have hnil : part = [] := by rwa [isTerminated, if_neg hcont, List.isEmpty_iff] at h
        rw [hnil, List.singleton_append, subidentifiers, if_neg hcont]

/-- Octets that all announce another one complete nothing. -/
theorem subidentifiers_unfinished {octets : Octets} (h : ∀ octet ∈ octets, continues octet = true) :
    subidentifiers octets = [] := by
  induction octets with
  | nil => rfl
  | cons octet rest ih =>
      rw [List.forall_mem_cons] at h
      rw [subidentifiers, if_pos h.1, ih h.2]

/-- **Cutting undoes putting together.** What is left unfinished behind the row does not count. -/
theorem subidentifiers_flatten {parts : List Octets} {unfinished : Octets}
    (h : ∀ part ∈ parts, isTerminated part = true) (hunfinished : ∀ octet ∈ unfinished, continues octet = true) :
    subidentifiers (parts.flatten ++ unfinished) = parts := by
  induction parts with
  | nil => exact subidentifiers_unfinished hunfinished
  | cons part parts ih =>
      rw [List.forall_mem_cons] at h
      rw [List.flatten_cons, List.append_assoc, subidentifiers_append _ h.1, ih h.2]

theorem subidentifiers_parts {parts : List Octets} (h : ∀ part ∈ parts, isTerminated part = true) :
    subidentifiers parts.flatten = parts := by
  have hcut := @subidentifiers_flatten _ [] h nofun
  rwa [List.append_nil] at hcut

/-- All octets are a row with something unfinished behind it, or nothing. -/
theorem exists_parts (octets : Octets) :
    ∃ (parts : List Octets) (unfinished : Octets), octets = parts.flatten ++ unfinished ∧
      (∀ part ∈ parts, isTerminated part = true) ∧ ∀ octet ∈ unfinished, continues octet = true := by
  induction octets with
  | nil => exact ⟨[], [], rfl, nofun, nofun⟩
  | cons octet rest ih =>
      obtain ⟨parts, unfinished, rfl, hparts, hunfinished⟩ := ih
      by_cases hcont : continues octet = true
      · -- the octet belongs to the first number, if one is completed behind it
        cases parts with
        | nil =>
            refine ⟨[], octet :: unfinished, rfl, nofun, ?_⟩
            rw [List.forall_mem_cons]
            exact ⟨hcont, hunfinished⟩
        | cons first others =>
            refine ⟨(octet :: first) :: others, unfinished, rfl, ?_, hunfinished⟩
            rw [List.forall_mem_cons] at hparts ⊢
            refine ⟨?_, hparts.2⟩
            rw [isTerminated, if_pos hcont]
            exact hparts.1
      · refine ⟨[octet] :: parts, unfinished, rfl, ?_, hunfinished⟩
        rw [List.forall_mem_cons]
        refine ⟨?_, hparts⟩
        rw [isTerminated, if_neg hcont]
        rfl

/-- The last octet of a row ends a number. -/
theorem exists_getLast?_flatten {parts : List Octets} (hne : parts ≠ [])
    (h : ∀ part ∈ parts, isTerminated part = true) :
    ∃ last, parts.flatten.getLast? = some last ∧ continues last = false := by
  cases parts using List.reverseRecOn with
  | nil => exact absurd rfl hne
  | append_singleton parts part =>
      obtain ⟨front, last, rfl, -, hlast⟩ := isTerminated_iff.1 (h part (by simp))
      refine ⟨last, ?_, hlast⟩
      simp

/-- Octets of which the last one ends a number are a row with nothing behind it. -/
theorem exists_row {content : Octets} {last : UInt8} (hlast : content.getLast? = some last)
    (hend : continues last = false) :
    ∃ parts : List Octets, parts ≠ [] ∧ content = parts.flatten ∧ ∀ part ∈ parts, isTerminated part = true := by
  obtain ⟨parts, unfinished, rfl, hparts, hunfinished⟩ := exists_parts content
  -- the last octet would be among those that are unfinished
  obtain rfl : unfinished = [] := by
    by_contra hne
    have hother := List.getLast?_eq_some_getLast hne
    rw [List.getLast?_append, hother, Option.some_or, ← hother] at hlast
    rw [hunfinished last (List.mem_of_getLast? hlast)] at hend
    cases hend
  rw [List.append_nil] at hlast ⊢
  refine ⟨parts, ?_, rfl, hparts⟩
  rintro rfl
  cases hlast

/-- A zero digit is looked for at the front of the first digits, if they are at a start, and in the rest. -/
theorem hasLeadingZero_append {part : Octets} (atStart : Bool) (rest : Octets) (h : isTerminated part = true) :
    hasLeadingZero atStart (part ++ rest) =
      ((atStart && part.head? == some 0x80) || hasLeadingZero true rest) := by
  induction part generalizing atStart with
  | nil => cases h
  | cons octet part ih =>
      rw [List.cons_append, hasLeadingZero, List.head?_cons]
      by_cases hcont : continues octet = true
      · have hpart : isTerminated part = true := by rwa [isTerminated, if_pos hcont] at h
        rw [hcont, Bool.not_true, ih false hpart]
        rfl
      · have hnil : part = [] := by rwa [isTerminated, if_neg hcont, List.isEmpty_iff] at h
        have hlast : continues octet = false := by rwa [Bool.not_eq_true] at hcont
        rw [hnil, hlast]
        rfl

/-- No zero digit is found if none of the numbers starts with one. -/
theorem hasLeadingZero_flatten {parts : List Octets} (h : ∀ part ∈ parts, isTerminated part = true) :
    hasLeadingZero true parts.flatten = false ↔ ∀ part ∈ parts, part.head? ≠ some 0x80 := by
  induction parts with
  | nil => exact ⟨fun _ => nofun, fun _ => rfl⟩
  | cons part parts ih =>
      rw [List.forall_mem_cons] at h
      rw [List.flatten_cons, hasLeadingZero_append true _ h.1, Bool.true_and, Bool.or_eq_false_iff,
        ih h.2, List.forall_mem_cons, beq_eq_false_iff_ne]

/-- A row of shortest digits is what is written for its numbers. -/
theorem flatMap_encode_value {parts : List Octets} (h : ∀ part ∈ parts, encode (value part) = part) :
    (parts.map value).flatMap encode = parts.flatten := by
  have hwritten : parts.map (encode ∘ value) = parts.map id := by
    apply List.map_congr_left
    intro part hmem
    exact h part hmem
  rw [List.flatMap_def, List.map_map, hwritten, List.map_id]

/-- What is written for numbers in a row ends where each of them does. -/
theorem isTerminated_of_mem_map {numbers : List Nat} : ∀ part ∈ numbers.map encode, isTerminated part = true := by
  intro part hmem
  obtain ⟨number, -, rfl⟩ := List.mem_map.1 hmem
  exact isTerminated_encode number

/-- **Content is accepted exactly if it is a row of shortest digits**, of at least one number. -/
theorem ofContent_eq_ok_iff {content : Octets} {oid : Oid} :
    ofContent content = .ok oid ↔
      oid.octets = content ∧ ∃ numbers : List Nat, numbers ≠ [] ∧ content = numbers.flatMap encode := by
  constructor
  · intro h
    refine ⟨octets_of_ofContent h, ?_⟩
    unfold ofContent at h
    cases hlast : content.getLast? with
    | none => simp [hlast] at h
    | some last =>
        rw [hlast] at h
        by_cases hcont : continues last = true
        · simp [hcont] at h
        · have hend : continues last = false := by rwa [Bool.not_eq_true] at hcont
          simp only [hend, Bool.false_eq_true, if_false] at h
          obtain ⟨parts, hne, rfl, hparts⟩ := exists_row hlast hend
          have hzero : hasLeadingZero true parts.flatten = false := by
            rw [← Bool.not_eq_true]
            intro hzero
            rw [if_pos hzero] at h
            cases h
          have hhead := (hasLeadingZero_flatten hparts).1 hzero
          refine ⟨parts.map value, mt List.map_eq_nil_iff.1 hne, ?_⟩
          symm
          apply flatMap_encode_value
          intro part hmem
          exact Base128.encode_value (hparts part hmem) (hhead part hmem)
  · rintro ⟨hoctets, numbers, hne, hcontent⟩
    have hhead : ∀ part ∈ numbers.map encode, part.head? ≠ some 0x80 := by
      intro part hmem
      obtain ⟨number, -, rfl⟩ := List.mem_map.1 hmem
      exact head?_encode number
    rw [List.flatMap_def] at hcontent
    subst hcontent
    obtain ⟨last, hlast, hend⟩ := exists_getLast?_flatten (mt List.map_eq_nil_iff.1 hne) isTerminated_of_mem_map
    have hzero := (hasLeadingZero_flatten isTerminated_of_mem_map).2 hhead
    unfold ofContent
    simp only [hlast, hend, hzero, Bool.false_eq_true, if_false]
    rw [← hoctets]

/-! ## Numbers -/

/-- The identifier whose sub-identifiers are the given numbers. -/
def ofNumbers (numbers : List Nat) : Oid := ⟨numbers.flatMap encode⟩

/-- **The valid identifiers are the rows of numbers.** -/
theorem isValid_iff {oid : Oid} : oid.IsValid ↔ ∃ numbers, numbers ≠ [] ∧ oid = ofNumbers numbers := by
  unfold IsValid
  rw [ofContent_eq_ok_iff]
  constructor
  · rintro ⟨-, numbers, hne, hoctets⟩
    exact ⟨numbers, hne, congrArg Oid.mk hoctets⟩
  · rintro ⟨numbers, hne, rfl⟩
    exact ⟨rfl, numbers, hne, rfl⟩

/-- There is at least one number in a valid identifier. -/
theorem IsValid.exists_numbers {oid : Oid} (h : oid.IsValid) : ∃ first others, oid = ofNumbers (first :: others) := by
  obtain ⟨numbers, hne, rfl⟩ := isValid_iff.1 h
  obtain ⟨first, others, rfl⟩ := List.exists_cons_of_ne_nil hne
  exact ⟨first, others, rfl⟩

/-- What is accepted is valid. -/
theorem isValid_of_ofContent {content : Octets} {oid : Oid} (h : ofContent content = .ok oid) : oid.IsValid := by
  rw [← octets_of_ofContent h] at h
  exact h

theorem subidentifiers_ofNumbers (numbers : List Nat) :
    subidentifiers (ofNumbers numbers).octets = numbers.map encode := by
  rw [ofNumbers, List.flatMap_def]
  exact subidentifiers_parts isTerminated_of_mem_map

theorem components_ofNumbers (first : Nat) (others : List Nat) :
    (ofNumbers (first :: others)).components =
      ⟨.first, encode first⟩ :: ⟨.second, encode first⟩ :: others.map fun number => ⟨.later, encode number⟩ := by
  rw [components, subidentifiers_ofNumbers]
  show _ :: _ :: List.map _ (List.map encode others) = _
  rw [List.map_map]
  rfl

/-! ## Components -/

/-- The first component counts whole forties, of which there are two at most. -/
theorem firstOf_eq (number : Nat) : firstOf number = min (number / 40) 2 := by
  unfold firstOf
  split
  · omega
  · split <;> omega

/-- The values of the components. -/
def values (oid : Oid) : List Nat := oid.components.map Component.value

theorem values_ofNumbers (first : Nat) (others : List Nat) :
    (ofNumbers (first :: others)).values = firstOf first :: (first - firstOf first * 40) :: others := by
  have hothers : (others.map fun number => (⟨.later, encode number⟩ : Component)).map Component.value = others := by
    rw [List.map_map]
    exact List.map_id'' (fun number => value_encode number) others
  rw [values, components_ofNumbers, List.map_cons, List.map_cons, hothers, Component.value, Component.value,
    value_encode]
  rfl

/-- The lists of values that identifiers have: two at least, where the first is up to 2, and the second is below
    40 unless the first is 2. -/
def IsArcs : List Nat → Prop
  | first :: second :: _ => first ≤ 2 ∧ (first < 2 → second < 40)
  | _ => False

/-- The identifier with the given values of its components. -/
def ofArcs : List Nat → Oid
  | first :: second :: others => ofNumbers ((first * 40 + second) :: others)
  | _ => ⟨[]⟩

theorem isArcs_iff {arcs : List Nat} :
    IsArcs arcs ↔ ∃ first second others, arcs = first :: second :: others ∧ first ≤ 2 ∧
      (first < 2 → second < 40) := by
  match arcs with
  | [] => exact ⟨nofun, nofun⟩
  | [_] => exact ⟨nofun, nofun⟩
  | first :: second :: others =>
      constructor
      · intro h
        exact ⟨first, second, others, rfl, h⟩
      · rintro ⟨_, _, _, heq, h⟩
        cases heq
        exact h

/-- The first number is split as it was put together. -/
theorem firstOf_join {first second : Nat} (hfirst : first ≤ 2) (hsecond : first < 2 → second < 40) :
    firstOf (first * 40 + second) = first := by
  rw [firstOf_eq]
  omega

theorem isValid_ofArcs {arcs : List Nat} (h : IsArcs arcs) : (ofArcs arcs).IsValid := by
  obtain ⟨first, second, others, rfl, -, -⟩ := isArcs_iff.1 h
  exact isValid_iff.2 ⟨_, List.cons_ne_nil _ _, rfl⟩

/-- An identifier put together from values has them. -/
theorem values_ofArcs {arcs : List Nat} (h : IsArcs arcs) : (ofArcs arcs).values = arcs := by
  obtain ⟨first, second, others, rfl, hfirst, hsecond⟩ := isArcs_iff.1 h
  rw [ofArcs, values_ofNumbers, firstOf_join hfirst hsecond, Nat.add_sub_cancel_left]

/-- The values of a valid identifier can be meant, and it is put together from them. -/
theorem ofArcs_values {oid : Oid} (h : oid.IsValid) : IsArcs oid.values ∧ ofArcs oid.values = oid := by
  obtain ⟨first, others, rfl⟩ := h.exists_numbers
  have hjoin : firstOf first * 40 + (first - firstOf first * 40) = first := by
    rw [firstOf_eq]
    omega
  rw [values_ofNumbers]
  constructor
  · show firstOf first ≤ 2 ∧ (firstOf first < 2 → first - firstOf first * 40 < 40)
    rw [firstOf_eq]
    omega
  · rw [ofArcs, hjoin]

/-- **Valid identifiers and lists of component values correspond.** -/
theorem bijOn_values : Set.BijOn values {oid | oid.IsValid} {arcs | IsArcs arcs} := by
  refine ⟨?_, ?_, ?_⟩
  · intro oid hvalid
    exact (ofArcs_values hvalid).1
  · intro oid hvalid other hother hsame
    rw [← (ofArcs_values hvalid).2, hsame, (ofArcs_values hother).2]
  · intro arcs harcs
    exact ⟨ofArcs arcs, isValid_ofArcs harcs, values_ofArcs harcs⟩

end Oid

end Asn1
