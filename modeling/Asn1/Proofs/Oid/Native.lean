import Asn1.Oid.Dotted
import Asn1.Proofs.Oid
import Asn1.Proofs.Octets.Word

/-!
# `Asn1.Proofs.Oid.Native` — which components are converted to native integers

A component is converted if its sub-identifier has nine octets at most. Nine octets hold 63 bits, so the limit
is a number of 2^63, not of 2^64, and it is a limit of the sub-identifier, not of the component: the first two
components share one, and the first is never more than 2. What is converted is always the value, with no bit lost
and no difference below zero.

## Contents
- **Limits.** `Base128.IsShortest.length_le_nine_iff`: octets counted, in terms of the number.
- **Conversion.** `Oid.Component.toUInt64?_eq` for shortest digits, `Oid.Component.text_eq` for the text.
- **Words.** `Oid.Component.toUInt64Word?` puts the number together in a word and takes it apart there.
- **Result.** `Oid.toUInt64?_limited`, and `Oid.toUInt64?_misses` for components that fit and are not converted.
-/

namespace Asn1

/-! ## Limits -/

namespace Base128

/-- Each digit counts less than 128. -/
theorem value_lt (octets : Octets) : value octets < 128 ^ octets.length := by
  induction octets using List.reverseRecOn with
  | nil => decide
  | append_singleton octets octet ih =>
      have hdigit : digit octet < 128 := Nat.mod_lt _ (by decide)
      rw [value_concat, List.length_append, List.length_singleton, pow_succ]
      omega

/-- Nine octets are enough for 63 bits, and for no more. -/
theorem IsShortest.length_le_nine_iff {digits : Octets} (h : IsShortest digits) :
    digits.length ≤ 9 ↔ value digits < 2 ^ 63 := by
  obtain ⟨number, rfl⟩ := isShortest_iff.1 h
  rw [length_encode, encodedLen_le_iff (by decide), value_encode]
  exact Iff.rfl

end Base128

namespace Oid

/-- The digits of each component of a valid identifier are shortest. -/
theorem isShortest_of_mem_components {oid : Oid} (hvalid : oid.IsValid) {component : Component}
    (hmem : component ∈ oid.components) : Base128.IsShortest component.octets := by
  obtain ⟨first, others, rfl⟩ := hvalid.exists_numbers
  rw [components_ofNumbers, List.mem_cons, List.mem_cons, List.mem_map] at hmem
  rcases hmem with rfl | rfl | ⟨number, -, rfl⟩
  · exact Base128.isShortest_encode first
  · exact Base128.isShortest_encode first
  · exact Base128.isShortest_encode number

/-- The whole forties that the first component counts are part of the number. -/
theorem firstOf_mul_le (number : Nat) : firstOf number * 40 ≤ number := by
  rw [firstOf_eq]
  omega

namespace Component

/-- The number of the sub-identifier that the component is taken from. -/
def number (component : Component) : Nat := Base128.value component.octets

theorem number_encode (place : Place) (number : Nat) :
    (⟨place, Base128.encode number⟩ : Component).number = number := Base128.value_encode number

/-! ## Conversion -/

/-- No component is larger than the number it is taken from. -/
theorem partOf_le (place : Place) (number : Nat) : partOf place number ≤ number := by
  cases place with
  | first =>
      have := firstOf_mul_le number
      show firstOf number ≤ number
      omega
  | second => exact Nat.sub_le _ _
  | later => exact Nat.le_refl _

variable {component : Component}

/-- **The limit is the number of the sub-identifier.** -/
theorem toUInt64?_eq (h : Base128.IsShortest component.octets) :
    component.toUInt64? = if component.number < 2 ^ 63 then some (.ofNat component.value) else none := by
  have hlimit := h.length_le_nine_iff
  unfold toUInt64? maxOctets number
  by_cases hfits : component.octets.length ≤ 9
  · rw [if_neg (Nat.not_lt.2 hfits), if_pos (hlimit.1 hfits)]
  · rw [if_pos (Nat.not_le.1 hfits), if_neg (mt hlimit.2 hfits)]

/-- What is converted is the value. -/
theorem toUInt64?_eq_some_iff (h : Base128.IsShortest component.octets) {word : UInt64} :
    component.toUInt64? = some word ↔ word.toNat = component.value ∧ component.number < 2 ^ 63 := by
  rw [toUInt64?_eq h]
  by_cases hlimit : component.number < 2 ^ 63
  · have hvalue : component.value < 2 ^ 64 := by
      have hle : component.value ≤ component.number := partOf_le component.place component.number
      omega
    rw [if_pos hlimit, Option.some.injEq, ← UInt64.toNat_inj, UInt64.toNat_ofNat_of_lt' hvalue, eq_comm]
    exact (and_iff_left hlimit).symm
  · rw [if_neg hlimit]
    constructor
    · nofun
    · rintro ⟨-, h⟩
      exact absurd h hlimit

theorem toUInt64?_eq_none_iff (h : Base128.IsShortest component.octets) :
    component.toUInt64? = none ↔ 2 ^ 63 ≤ component.number := by
  rw [toUInt64?_eq h]
  split
  · rename_i hlimit
    exact ⟨nofun, fun hlarge => absurd hlimit (Nat.not_lt.2 hlarge)⟩
  · rename_i hlimit
    exact ⟨fun _ => Nat.not_lt.1 hlimit, fun _ => rfl⟩

/-- A component is written as its value, or marked beyond the limit. -/
theorem text_eq (h : Base128.IsShortest component.octets) :
    component.text = if component.number < 2 ^ 63 then toString component.value else "(overflow)" := by
  unfold text
  by_cases hlimit : component.number < 2 ^ 63
  · have hword := toUInt64?_eq h
    rw [if_pos hlimit] at hword ⊢
    rw [hword]
    exact congrArg toString ((toUInt64?_eq_some_iff h).1 hword).1
  · rw [(toUInt64?_eq_none_iff h).2 (Nat.not_lt.1 hlimit), if_neg hlimit]

/-- What is not converted although it fits: the first component of each number beyond the limit, the second one
    of those up to 80 above all words, and a later one if it is a word. -/
theorem misses_iff (h : Base128.IsShortest component.octets) :
    component.value < 2 ^ 64 ∧ component.toUInt64? = none ↔
      2 ^ 63 ≤ component.number ∧
        (component.place = .first ∨ component.place = .second ∧ component.number < 2 ^ 64 + 80 ∨
          component.place = .later ∧ component.number < 2 ^ 64) := by
  rw [toUInt64?_eq_none_iff h, and_comm]
  apply and_congr_right
  intro hlimit
  have hvalue : component.value = partOf component.place component.number := rfl
  have hfirst : firstOf component.number = 2 := by
    rw [firstOf_eq]
    omega
  rw [hvalue]
  cases component.place with
  | first =>
      show firstOf component.number < 2 ^ 64 ↔ _
      rw [hfirst]
      exact ⟨fun _ => .inl rfl, fun _ => by decide⟩
  | second =>
      show component.number - firstOf component.number * 40 < 2 ^ 64 ↔ _
      rw [hfirst]
      constructor
      · intro hfits
        exact .inr (.inl ⟨rfl, by omega⟩)
      · rintro (h | ⟨-, h⟩ | ⟨h, -⟩)
        · cases h
        · omega
        · cases h
  | later =>
      show component.number < 2 ^ 64 ↔ _
      constructor
      · intro hfits
        exact .inr (.inr ⟨rfl, hfits⟩)
      · rintro (h | ⟨h, -⟩ | ⟨-, h⟩)
        · cases h
        · cases h
        · exact h

/-! ## Words -/

/-- The first component that a word holds. -/
def firstOfWord (word : UInt64) : UInt64 := if word < 40 then 0 else if word < 80 then 1 else 2

/-- The part of a word that a component is. -/
def partOfWord (place : Place) (word : UInt64) : UInt64 :=
  match place with
  | .first => firstOfWord word
  | .second => word - firstOfWord word * 40
  | .later => word

/-- `toUInt64?` with the number put together in a word and taken apart there. -/
def toUInt64Word? (component : Component) : Option UInt64 :=
  if maxOctets < component.octets.length then none
  else some (partOfWord component.place (Word.ofDigits component.octets))

theorem toNat_firstOfWord (word : UInt64) : (firstOfWord word).toNat = firstOf word.toNat := by
  unfold firstOfWord firstOf
  simp only [UInt64.lt_iff_toNat_lt, UInt64.reduceToNat]
  split
  · rfl
  · split <;> rfl

/-- The whole forties fit a word, and they are no more than the word that they are taken off. -/
theorem toNat_firstOfWord_mul (word : UInt64) :
    (firstOfWord word * 40).toNat = firstOf word.toNat * 40 ∧ firstOfWord word * 40 ≤ word := by
  have hle := firstOf_mul_le word.toNat
  have hlt := word.toNat_lt
  have hmul : (firstOfWord word * 40).toNat = firstOf word.toNat * 40 := by
    rw [UInt64.toNat_mul, toNat_firstOfWord]
    exact Nat.mod_eq_of_lt (by show firstOf word.toNat * 40 < 2 ^ 64; omega)
  refine ⟨hmul, ?_⟩
  rw [UInt64.le_iff_toNat_le, hmul]
  exact hle

theorem toNat_partOfWord (place : Place) (word : UInt64) :
    (partOfWord place word).toNat = partOf place word.toNat := by
  cases place with
  | first => exact toNat_firstOfWord word
  | second =>
      obtain ⟨hmul, hle⟩ := toNat_firstOfWord_mul word
      show (word - firstOfWord word * 40).toNat = word.toNat - firstOf word.toNat * 40
      rw [UInt64.toNat_sub_of_le _ _ hle, hmul]
  | later => rfl

/-- **No bit is lost.** Nine octets at most do not fill a word. -/
theorem toUInt64Word?_eq (component : Component) : component.toUInt64Word? = component.toUInt64? := by
  unfold toUInt64Word? toUInt64? maxOctets
  by_cases hfits : 9 < component.octets.length
  · rw [if_pos hfits, if_pos hfits]
  · rw [if_neg hfits, if_neg hfits]
    have hnumber : Base128.value component.octets < 2 ^ 64 :=
      calc Base128.value component.octets < 128 ^ component.octets.length := Base128.value_lt _
        _ ≤ 128 ^ 9 := Nat.pow_le_pow_right (by decide) (Nat.not_lt.1 hfits)
        _ ≤ 2 ^ 64 := by decide
    have hword : (Word.ofDigits component.octets).toNat = Base128.value component.octets := by
      rw [Word.ofDigits_eq, UInt64.toNat_ofNat_of_lt' hnumber]
    have hvalue : component.value ≤ Base128.value component.octets := partOf_le _ _
    congr 1
    apply UInt64.toNat_inj.1
    rw [toNat_partOfWord, hword, UInt64.toNat_ofNat_of_lt' (by rw [UInt64.size]; omega)]
    rfl

end Component

/-! ## Result -/

/-- **A component is converted if its sub-identifier is below 2^63.** What it is converted to is its value, put
    together in a word or not, and it is written as that number; beyond the limit it is marked. So what is not
    converted although it fits is the first component of all larger sub-identifiers, the second one as long as
    the sub-identifier is below 2^64 + 80, and a later one that needs all 64 bits. -/
theorem toUInt64?_limited (oid : Oid) (hvalid : oid.IsValid) :
    ∀ component ∈ oid.components,
      (∀ word : UInt64, component.toUInt64? = some word ↔
        word.toNat = component.value ∧ component.number < 2 ^ 63) ∧
      (component.toUInt64? = none ↔ 2 ^ 63 ≤ component.number) ∧
      (component.value < 2 ^ 64 ∧ component.toUInt64? = none ↔
        2 ^ 63 ≤ component.number ∧
          (component.place = .first ∨ component.place = .second ∧ component.number < 2 ^ 64 + 80 ∨
            component.place = .later ∧ component.number < 2 ^ 64)) ∧
      component.text = (if component.number < 2 ^ 63 then toString component.value else "(overflow)") ∧
      component.toUInt64Word? = component.toUInt64? := by
  intro component hmem
  have hshortest := isShortest_of_mem_components hvalid hmem
  exact ⟨fun _ => Component.toUInt64?_eq_some_iff hshortest, Component.toUInt64?_eq_none_iff hshortest,
    Component.misses_iff hshortest, Component.text_eq hshortest, Component.toUInt64Word?_eq component⟩

/-- The identifier 1.2.9223372036854775807 has the largest component that is converted. -/
theorem toUInt64?_limited_largest :
    IsValid ⟨[0x2A, 0xFF, 0xFF, 0xFF, 0xFF, 0xFF, 0xFF, 0xFF, 0xFF, 0x7F]⟩ ∧
      (⟨.later, [0xFF, 0xFF, 0xFF, 0xFF, 0xFF, 0xFF, 0xFF, 0xFF, 0x7F]⟩ : Component) ∈
        components ⟨[0x2A, 0xFF, 0xFF, 0xFF, 0xFF, 0xFF, 0xFF, 0xFF, 0xFF, 0x7F]⟩ ∧
      Component.toUInt64? ⟨.later, [0xFF, 0xFF, 0xFF, 0xFF, 0xFF, 0xFF, 0xFF, 0xFF, 0x7F]⟩ =
        some 0x7FFFFFFFFFFFFFFF := by
  have hvalid : IsValid ⟨[0x2A, 0xFF, 0xFF, 0xFF, 0xFF, 0xFF, 0xFF, 0xFF, 0xFF, 0x7F]⟩ := rfl
  have hmem : (⟨.later, [0xFF, 0xFF, 0xFF, 0xFF, 0xFF, 0xFF, 0xFF, 0xFF, 0x7F]⟩ : Component) ∈
      components ⟨[0x2A, 0xFF, 0xFF, 0xFF, 0xFF, 0xFF, 0xFF, 0xFF, 0xFF, 0x7F]⟩ := by
    decide +kernel
  obtain ⟨hconverted, -⟩ := toUInt64?_limited _ hvalid _ hmem
  exact ⟨hvalid, hmem, (hconverted 0x7FFFFFFFFFFFFFFF).2 (by decide +kernel)⟩

/-- The identifier 2.9223372036854775728 has two components that fit a word. Neither is converted, and both are
    marked in the text. -/
theorem toUInt64?_misses :
    IsValid ⟨[0x81, 0x80, 0x80, 0x80, 0x80, 0x80, 0x80, 0x80, 0x80, 0x00]⟩ ∧
      values ⟨[0x81, 0x80, 0x80, 0x80, 0x80, 0x80, 0x80, 0x80, 0x80, 0x00]⟩ = [2, 9223372036854775728] ∧
      (components ⟨[0x81, 0x80, 0x80, 0x80, 0x80, 0x80, 0x80, 0x80, 0x80, 0x00]⟩).map Component.toUInt64? =
        [none, none] ∧
      text ⟨[0x81, 0x80, 0x80, 0x80, 0x80, 0x80, 0x80, 0x80, 0x80, 0x00]⟩ = "(overflow).(overflow)" := by
  refine ⟨rfl, ?_, ?_, ?_⟩
  · decide +kernel
  · decide +kernel
  · decide +kernel

end Oid

end Asn1
