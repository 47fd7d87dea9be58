import Asn1.Header
import Asn1.Proofs.Octets

/-!
# `Asn1.Proofs.Header` — the forms of a header, and values framed by one

Reading a header is compared with the rules that say which octets are a form of it. Everything that
reads values is stated over these forms, so nothing after this module looks at single octets.

## Contents
- **Forms.** `Identifier.Form`, `Length.Form` and `Header.Form` list the octets that a mode accepts.
- **Reading.** `Identifier.take_eq_ok_iff`, `Length.take_eq_ok_iff` and `Header.takeOctets_eq_ok_iff`:
  reading takes exactly a form off the front. `Header.read_eq` and `Header.read_eq_ok_iff`: the same at a place
  of a buffer.
- **Writing.** The octets written are a form in every mode, and the only one in DER.
- **Frames.** `Framed` is a value of definite length, `frame` its DER form; `Element.take_eq_ok_iff`:
  splitting off a value takes exactly a framed value.
-/

namespace Asn1

/-- A step that is followed by another one succeeds if both do. -/
theorem bind_eq_ok_iff {ε α β : Type} {step : Except ε α} {next : α → Except ε β} {result : β} :
    step >>= next = .ok result ↔ ∃ value, step = .ok value ∧ next value = .ok result := by
  cases step with
  | error error => simp [bind, Except.bind]
  | ok value => simp [bind, Except.bind]

/-- A step that is followed by another one fails if either of them does. -/
theorem bind_eq_error_iff {ε α β : Type} {step : Except ε α} {next : α → Except ε β} {error : ε} :
    step >>= next = .error error ↔ step = .error error ∨ ∃ value, step = .ok value ∧ next value = .error error := by
  cases step with
  | error found => simp [bind, Except.bind]
  | ok value => simp [bind, Except.bind]

/-! ## Identifier octets -/

/-- The forms of identifier octets. The low form holds the number in the first octet; the high form
    follows it in base 128, and DER keeps it for numbers above 30. -/
inductive Identifier.Form (mode : Mode) (identifier : Identifier) : Octets → Prop
  | low : identifier.tag.number.toNat ≤ Tag.maxLowNumber →
      Form mode identifier [identifier.leadOctet identifier.tag.number.toNat]
  | high {digits : Octets} : Base128.isTerminated digits = true → digits.head? ≠ some 0x80 →
      Base128.value digits = identifier.tag.number.toNat →
      (mode.isDer = true → Tag.maxLowNumber < identifier.tag.number.toNat) →
      Form mode identifier (identifier.leadOctet 31 :: digits)

namespace Identifier

/-- Digits that are read spell a tag number that fits 32 bits. -/
theorem exists_digits_of_takeNumber {mode : Mode} {start : Nat} {octets rest : Octets} {number : UInt32}
    (h : takeNumber mode start octets = .ok (number, rest)) :
    ∃ digits, octets = digits ++ rest ∧ Base128.isTerminated digits = true ∧
      Base128.valueFrom start digits = number.toNat ∧
      (mode.isDer = true → Tag.maxLowNumber < number.toNat) := by
  induction octets generalizing start with
  | nil => simp [takeNumber] at h
  | cons octet octets ih =>
      unfold takeNumber at h
      split at h
      · simp at h
      rename_i hsmall
      simp only [maxNumber] at hsmall
      by_cases hcont : Base128.continues octet = true
      · simp only [hcont, if_true] at h
        obtain ⟨digits, rfl, hterm, hrest⟩ := ih h
        exact ⟨octet :: digits, rfl, by simpa [Base128.isTerminated, hcont] using hterm, hrest⟩
      · simp only [hcont, if_false, Bool.false_eq_true] at h
        split at h
        · simp at h
        · rename_i hmode
          obtain ⟨rfl, rfl⟩ := Prod.mk.inj (Except.ok.inj h)
          have hbound : start * 128 + Base128.digit octet < 2 ^ 32 := by
            have : Base128.digit octet < 128 := Nat.mod_lt _ (by decide)
            omega
          refine ⟨[octet], rfl, by simp [Base128.isTerminated, hcont], ?_, ?_⟩
          · rw [UInt32.toNat_ofNat_of_lt' hbound]
            rfl
          · intro hder
            rw [UInt32.toNat_ofNat_of_lt' hbound]
            exact Nat.lt_of_not_le fun hle => hmode ⟨hder, hle⟩

/-- The digits of a tag number that fits 32 bits are read, whatever follows them. -/
theorem takeNumber_append {mode : Mode} {start : Nat} {digits : Octets} {number : UInt32}
    (hterm : Base128.isTerminated digits = true) (hvalue : Base128.valueFrom start digits = number.toNat)
    (hder : mode.isDer = true → Tag.maxLowNumber < number.toNat) (rest : Octets) :
    takeNumber mode start (digits ++ rest) = .ok (number, rest) := by
  induction digits generalizing start with
  | nil => simp [Base128.isTerminated] at hterm
  | cons digit digits ih =>
      rw [Base128.valueFrom_cons] at hvalue
      -- further digits only add to the number, so it was not too large before them
      have hsmall : ¬ start > maxNumber / 128 := by
        have hle := Base128.le_valueFrom (start * 128 + Base128.digit digit) digits
        have hnumber := number.toNat_lt
        simp only [maxNumber]
        omega
      rw [List.cons_append, takeNumber, if_neg hsmall]
      by_cases hcont : Base128.continues digit = true
      · simp only [hcont, if_true]
        exact ih (by simpa [Base128.isTerminated, hcont] using hterm) hvalue
      · have hnil : digits = [] := by simpa [Base128.isTerminated, hcont] using hterm
        subst hnil
        rw [Base128.valueFrom_nil] at hvalue
        have hmode : ¬ (mode.isDer = true ∧ start * 128 + Base128.digit digit ≤ Tag.maxLowNumber) := by
          rintro ⟨h, hle⟩
          exact absurd (hder h) (Nat.not_lt.2 (hvalue ▸ hle))
        simp only [hcont, if_false, Bool.false_eq_true, if_neg hmode]
        rw [hvalue, UInt32.ofNat_toNat]
        rfl

/-- What the first octet says, bit by bit. -/
theorem toNat_leadOctet (identifier : Identifier) {low : Nat} (h : low < 32) :
    (identifier.leadOctet low).toNat =
      identifier.tag.tagClass.toBits * 64 + identifier.constructed.toNat * 32 + low := by
  have hclass : identifier.tag.tagClass.toBits < 4 := by
    cases identifier.tag.tagClass <;> decide
  have hflag : identifier.constructed.toNat < 2 := Bool.toNat_lt _
  rw [leadOctet, UInt8.toNat_ofNat']
  omega

/-- Every octet is a first octet: of the class in its two top bits, with the flag below them. -/
theorem leadOctet_of_octet (first : UInt8) (number : UInt32) :
    leadOctet ⟨⟨TagClass.ofBits (first.toNat / 64), number⟩, first.toNat / 32 % 2 = 1⟩
      (first.toNat % 32) = first := by
  have hclass : (TagClass.ofBits (first.toNat / 64)).toBits = first.toNat / 64 := by
    have hlt : first.toNat / 64 < 4 := by have := first.toNat_lt; omega
    generalize first.toNat / 64 = bits at hlt ⊢
    match bits, hlt with
    | 0, _ | 1, _ | 2, _ | 3, _ => rfl
  have hflag : (decide (first.toNat / 32 % 2 = 1)).toNat = first.toNat / 32 % 2 := by
    rcases Nat.mod_two_eq_zero_or_one (first.toNat / 32) with h | h <;> simp [h]
  apply UInt8.toNat_inj.1
  rw [toNat_leadOctet _ (Nat.mod_lt _ (by decide)), hclass, hflag]
  omega

/-- The class and the flag are read off a first octet. -/
theorem ofBits_leadOctet (identifier : Identifier) {low : Nat} (h : low < 32) :
    TagClass.ofBits ((identifier.leadOctet low).toNat / 64) = identifier.tag.tagClass ∧
      decide ((identifier.leadOctet low).toNat / 32 % 2 = 1) = identifier.constructed ∧
      (identifier.leadOctet low).toNat % 32 = low := by
  have hflag : identifier.constructed.toNat < 2 := Bool.toNat_lt _
  rw [toNat_leadOctet identifier h]
  refine ⟨?_, ?_, by omega⟩
  · rw [show (identifier.tag.tagClass.toBits * 64 + identifier.constructed.toNat * 32 + low) / 64 =
      identifier.tag.tagClass.toBits by omega, TagClass.ofBits_toBits]
  · rw [show (identifier.tag.tagClass.toBits * 64 + identifier.constructed.toNat * 32 + low) / 32 % 2 =
      identifier.constructed.toNat by omega]
    cases identifier.constructed <;> rfl

/-- What is read as an identifier is one of its forms. -/
theorem exists_form_of_take {mode : Mode} {octets rest : Octets} {identifier : Identifier}
    (h : take mode octets = .ok (identifier, rest)) :
    ∃ front, identifier.Form mode front ∧ octets = front ++ rest := by
  cases octets with
  | nil => simp [take] at h
  | cons first octets =>
      simp only [take] at h
      by_cases hlow : first.toNat % 32 = 31
      -- All five low bits are set, so the number follows in base 128.
      · rw [if_neg (not_not_intro hlow)] at h
        by_cases hzero : octets.head? = some 0x80
        · simp [hzero] at h
        · rw [if_neg hzero] at h
          obtain ⟨⟨number, after⟩, hnumber, h⟩ := bind_eq_ok_iff.1 h
          obtain ⟨rfl, rfl⟩ := Prod.mk.inj (Except.ok.inj h)
          obtain ⟨digits, rfl, hterm, hvalue, hder⟩ := exists_digits_of_takeNumber hnumber
          have hhead : digits.head? ≠ some 0x80 := by
            cases digits with
            | nil => simp
            | cons digit digits => simpa using hzero
          have hlead := leadOctet_of_octet first number
          rw [hlow] at hlead
          have hform := @Form.high mode ⟨⟨TagClass.ofBits (first.toNat / 64), number⟩,
            first.toNat / 32 % 2 = 1⟩ digits hterm hhead hvalue hder
          rw [hlead] at hform
          exact ⟨first :: digits, hform, rfl⟩
      · rw [if_pos hlow] at h
        obtain ⟨rfl, rfl⟩ := Prod.mk.inj (Except.ok.inj h)
        refine ⟨[first], ?_, rfl⟩
        have hnumber : (UInt32.ofNat (first.toNat % 32)).toNat = first.toNat % 32 :=
          UInt32.toNat_ofNat_of_lt' (Nat.lt_trans (Nat.mod_lt _ (by decide)) (by decide))
        have hform := @Form.low mode ⟨⟨TagClass.ofBits (first.toNat / 64),
          UInt32.ofNat (first.toNat % 32)⟩, first.toNat / 32 % 2 = 1⟩
          (by simp only [hnumber, Tag.maxLowNumber]; omega)
        simp only [hnumber] at hform
        rwa [leadOctet_of_octet] at hform

/-- A form of an identifier is read, whatever follows it. -/
theorem take_append {mode : Mode} {front : Octets} {identifier : Identifier}
    (h : identifier.Form mode front) (rest : Octets) :
    take mode (front ++ rest) = .ok (identifier, rest) := by
  cases h with
  | low hlow =>
      simp only [Tag.maxLowNumber] at hlow
      obtain ⟨hclass, hflag, hnumber⟩ :=
        identifier.ofBits_leadOctet (show identifier.tag.number.toNat < 32 by omega)
      simp only [List.cons_append, take, hclass, hflag, hnumber]
      rw [if_pos (by omega), UInt32.ofNat_toNat]
      rfl
  | @high digits hterm hzero hvalue hder =>
      obtain ⟨hclass, hflag, hnumber⟩ := identifier.ofBits_leadOctet (show 31 < 32 by decide)
      have hhead : (digits ++ rest).head? ≠ some 0x80 := by
        cases digits with
        | nil => simp [Base128.isTerminated] at hterm
        | cons digit digits => simpa using hzero
      have htake : takeNumber mode 0 (digits ++ rest) = .ok (identifier.tag.number, rest) :=
        takeNumber_append hterm hvalue hder rest
      simp only [List.cons_append, take, hclass, hflag, hnumber]
      rw [if_neg (not_not_intro rfl), if_neg hhead]
      exact bind_eq_ok_iff.2 ⟨_, htake, rfl⟩

/-- **Reading an identifier takes one of its forms off the front.** -/
theorem take_eq_ok_iff {mode : Mode} {octets rest : Octets} {identifier : Identifier} :
    take mode octets = .ok (identifier, rest) ↔
      ∃ front, identifier.Form mode front ∧ octets = front ++ rest := by
  constructor
  · exact exists_form_of_take
  · rintro ⟨front, hform, rfl⟩
    exact take_append hform rest

/-- The identifier octets written are a form in every mode. -/
theorem form_octets (mode : Mode) (identifier : Identifier) :
    identifier.Form mode identifier.octets := by
  unfold octets
  by_cases hlow : identifier.tag.number.toNat ≤ Tag.maxLowNumber
  · simp only [if_pos hlow]
    exact .low hlow
  · simp only [if_neg hlow]
    exact .high (Base128.isTerminated_encode _) (Base128.head?_encode _) (Base128.value_encode _)
      fun _ => Nat.lt_of_not_le hlow

/-- DER has no other form of an identifier than the one written. -/
theorem eq_octets_of_form_der {identifier : Identifier} {octets : Octets}
    (h : identifier.Form .der octets) : octets = identifier.octets := by
  unfold Identifier.octets
  cases h with
  | low hlow => simp only [if_pos hlow]
  | high hterm hzero hvalue hder =>
      have hhigh := Nat.not_le.2 (hder rfl)
      simp only [if_neg hhigh]
      rw [← hvalue, Base128.encode_value hterm hzero]

/-- No form of an identifier is shorter than the octets written. -/
theorem length_octets_le_of_form {mode : Mode} {identifier : Identifier} {front : Octets}
    (h : identifier.Form mode front) : identifier.octets.length ≤ front.length := by
  unfold octets
  cases h with
  | low hlow => simp only [if_pos hlow, List.length_singleton, Nat.le_refl]
  | @high digits hterm hzero hvalue _ =>
      dsimp only
      split
      · exact Nat.le_add_left _ _
      · rw [← hvalue, Base128.encode_value hterm hzero]

end Identifier

/-! ## Length octets -/

/-- The forms of length octets. The short form is the length itself; the long form counts the octets that
    spell it, in DER without a superfluous one; the indefinite form is for BER. -/
inductive Length.Form (mode : Mode) : Length → Octets → Prop
  | short {number : Nat} : number < 128 → Form mode (.definite number) [UInt8.ofNat number]
  | long {number : Octets} : number ≠ [] → number.length ≤ maxOctets →
      (mode.isDer = true → isMinimal number = true) →
      Form mode (.definite number.toNat) (UInt8.ofNat (128 + number.length) :: number)
  | indefinite : mode.isDer = false → Form mode .indefinite [0x80]

namespace Length

/-- Octets of a long form are minimal if they have no leading zero and do not fit the short form. -/
theorem isMinimal_iff {octets : Octets} :
    isMinimal octets = true ↔ octets.head? ≠ some 0 ∧ 128 ≤ octets.toNat := by
  fun_cases isMinimal octets with
  | case1 => simp
  | case2 octet =>
      simp only [decide_eq_true_eq, List.head?_cons, ne_eq, Option.some.injEq, Octets.toNat_cons,
        Octets.toNat_nil, List.length_nil, pow_zero, mul_one, add_zero]
      refine ⟨fun h => ⟨?_, h⟩, fun h => h.2⟩
      rintro rfl
      simp at h
  | case3 first rest hrest =>
      simp only [ne_eq, decide_not, Bool.not_eq_eq_eq_not, Bool.not_true, decide_eq_false_iff_not,
        List.head?_cons, Option.some.injEq]
      refine ⟨fun h => ⟨h, ?_⟩, fun h => h.1⟩
      -- two octets without a leading zero spell at least 256
      have hfirst : 1 ≤ first.toNat := by
        have : first.toNat ≠ 0 := fun hzero => h (UInt8.toNat_inj.1 hzero)
        omega
      have hwidth : 256 ^ 1 ≤ 256 ^ rest.length :=
        Nat.pow_le_pow_right (by decide) (List.length_pos_iff.2 fun hnil => hrest hnil)
      rw [Octets.toNat_cons]
      have := Nat.mul_le_mul hfirst hwidth
      omega

/-- What is read as a length is one of its forms. -/
theorem exists_form_of_take {mode : Mode} {octets rest : Octets} {length : Length}
    (h : take mode octets = .ok (length, rest)) :
    ∃ front, length.Form mode front ∧ octets = front ++ rest := by
  cases octets with
  | nil => simp [take] at h
  | cons first octets =>
      have hfirst := first.toNat_lt
      simp only [take] at h
      by_cases hshort : first.toNat < 128
      · rw [if_pos hshort] at h
        obtain ⟨rfl, rfl⟩ := Prod.mk.inj (Except.ok.inj h)
        have hform : Form mode _ _ := .short hshort
        rw [UInt8.ofNat_toNat] at hform
        exact ⟨[first], hform, rfl⟩
      rw [if_neg hshort] at h
      by_cases hindef : first = 0x80
      · rw [if_pos hindef] at h
        cases hmode : mode.isDer with
        | true => simp [hmode] at h
        | false =>
            simp only [hmode, Bool.false_eq_true, if_false, Except.ok.injEq, Prod.mk.injEq] at h
            obtain ⟨rfl, rfl⟩ := h
            exact ⟨[0x80], .indefinite hmode, by rw [hindef]; rfl⟩
      rw [if_neg hindef] at h
      split at h
      · simp at h
      split at h
      · simp at h
      rename_i hcount
      split at h
      · simp at h
      rename_i hthere
      split at h
      · simp at h
      rename_i hminimal
      obtain ⟨rfl, rfl⟩ := Prod.mk.inj (Except.ok.inj h)
      -- All checks are passed: the octet counts others that are there, at least one and at most eight.
      have hlength : (octets.take (first.toNat - 128)).length = first.toNat - 128 := by
        rw [List.length_take]
        omega
      have hpos : first.toNat ≠ 128 := fun heq => hindef (UInt8.toNat_inj.1 heq)
      have hne : octets.take (first.toNat - 128) ≠ [] := by
        intro hnil
        rw [hnil, List.length_nil] at hlength
        omega
      have hform : Form mode _ _ := .long hne (by omega) fun hder => by simpa [hder] using hminimal
      rw [hlength, show 128 + (first.toNat - 128) = first.toNat by omega,
        UInt8.ofNat_toNat] at hform
      exact ⟨_, hform, by rw [List.cons_append, List.take_append_drop]⟩

/-- An octet that counts others asks for as many as it says, before it asks whether they are minimal. -/
theorem take_long {mode : Mode} {count : Nat} (hpos : 0 < count) (hcount : count ≤ maxOctets)
    (octets : Octets) :
    take mode (UInt8.ofNat (128 + count) :: octets) =
      if octets.length < count then .error .headerTruncated
      else if mode.isDer ∧ ¬ isMinimal (octets.take count) then .error (.content .lengthNotMinimal)
      else .ok (definite (Octets.toNat (octets.take count)), octets.drop count) := by
  simp only [maxOctets] at hcount
  have htoNat : (UInt8.ofNat (128 + count)).toNat = 128 + count := by
    rw [UInt8.toNat_ofNat']
    omega
  -- One to eight octets are counted by an octet that means nothing else.
  have hnot (octet : UInt8) (h : octet.toNat < 129 ∨ 136 < octet.toNat) :
      UInt8.ofNat (128 + count) ≠ octet := by
    rintro rfl
    omega
  simp only [take, htoNat, Nat.add_sub_cancel_left, maxOctets]
  rw [if_neg (by omega), if_neg (hnot 0x80 (by decide)), if_neg (hnot 0xFF (by decide)),
    if_neg (by omega)]

/-- A form of a length is read, whatever follows it. -/
theorem take_append {mode : Mode} {front : Octets} {length : Length} (h : length.Form mode front)
    (rest : Octets) : take mode (front ++ rest) = .ok (length, rest) := by
  cases h with
  | @short number hnumber =>
      have htoNat : (UInt8.ofNat number).toNat = number := by
        rw [UInt8.toNat_ofNat']
        omega
      simp only [List.cons_append, take, htoNat, if_pos hnumber, List.nil_append]
  | @long number hne hcount hminimal =>
      have hder : ¬ (mode.isDer = true ∧ ¬ isMinimal number = true) :=
        fun h => h.2 (hminimal h.1)
      have hthere : ¬ (number ++ rest).length < number.length := by
        rw [List.length_append]
        omega
      rw [List.cons_append, take_long (List.length_pos_iff.2 hne) hcount, if_neg hthere, List.take_left,
        List.drop_left, if_neg hder]
  | indefinite hmode => simp [take, hmode]

/-- **Reading a length takes one of its forms off the front.** -/
theorem take_eq_ok_iff {mode : Mode} {octets rest : Octets} {length : Length} :
    take mode octets = .ok (length, rest) ↔
      ∃ front, length.Form mode front ∧ octets = front ++ rest := by
  constructor
  · exact exists_form_of_take
  · rintro ⟨front, hform, rfl⟩
    exact take_append hform rest

/-- The limit that eight length octets set. -/
def limit : Nat := 2 ^ 64

/-- The length octets written are a form in every mode, up to the limit of eight length octets. -/
theorem form_octets (mode : Mode) {number : Nat} (h : number < limit) :
    (definite number).Form mode (definite number).octets := by
  unfold octets
  by_cases hshort : number < 128
  · simp only [if_pos hshort]
    exact .short hshort
  · have hne : number ≠ 0 := by omega
    have hcount : (Octets.ofNat number).length ≤ maxOctets := by
      rw [Octets.length_ofNat hne]
      exact Octets.lengthOfNat_le (by decide) (Nat.lt_of_lt_of_eq h (by decide))
    have hnil : Octets.ofNat number ≠ [] := by
      intro hnil
      have := congrArg Octets.toNat hnil
      rw [Octets.toNat_ofNat, Octets.toNat_nil] at this
      exact hne this
    have hform : Form mode _ _ := .long hnil hcount fun _ =>
      isMinimal_iff.2 ⟨Octets.head?_ofNat number, by rw [Octets.toNat_ofNat]; omega⟩
    rw [Octets.toNat_ofNat, Octets.length_ofNat hne] at hform
    simpa only [if_neg hshort] using hform

/-- DER has no other form of a length than the one written. -/
theorem eq_octets_of_form_der {length : Length} {octets : Octets} (h : length.Form .der octets) :
    octets = length.octets := by
  unfold Length.octets
  cases h with
  | short hshort => simp only [if_pos hshort]
  | @long number _ _ hminimal =>
      obtain ⟨hzero, hlarge⟩ := isMinimal_iff.1 (hminimal rfl)
      have hshort := Nat.not_lt.2 hlarge
      have hcount := Octets.length_ofNat (show number.toNat ≠ 0 by omega)
      rw [Octets.ofNat_toNat hzero] at hcount
      simp only [if_neg hshort]
      rw [Octets.ofNat_toNat hzero, hcount]
  | indefinite hmode => cases hmode

/-- No form of a length is shorter than the octets written for it, or for a smaller one. -/
theorem length_octets_le_of_form {mode : Mode} {number smaller : Nat} {back : Octets}
    (h : (definite number).Form mode back) (hle : smaller ≤ number) :
    (definite smaller).octets.length ≤ back.length := by
  rw [length_octets, encodedLen]
  cases h with
  | short hshort => rw [if_pos (Nat.lt_of_le_of_lt hle hshort), List.length_singleton]
  | @long digits hne _ _ =>
      have hfits : Octets.lengthOfNat smaller ≤ digits.length :=
        Octets.lengthOfNat_le (List.length_pos_iff.2 hne)
          (Nat.lt_of_le_of_lt hle (Octets.toNat_lt digits))
      rw [List.length_cons]
      split <;> omega

/-- What the octets of a long form spell is below the limit. -/
theorem toNat_lt_limit {octets : Octets} (h : octets.length ≤ maxOctets) : octets.toNat < limit :=
  calc octets.toNat < 256 ^ octets.length := Octets.toNat_lt octets
    _ ≤ 256 ^ maxOctets := Nat.pow_le_pow_right (by decide) h
    _ = limit := by decide

/-- Lengths read stay below the limit. -/
theorem lt_limit_of_form {mode : Mode} {number : Nat} {octets : Octets}
    (h : (definite number).Form mode octets) : number < limit := by
  cases h with
  | short hshort => exact Nat.lt_trans hshort (by decide)
  | long _ hcount _ => exact toNat_lt_limit hcount

end Length

/-- How many content octets a length announces. The indefinite form does not say. -/
def Length.announced : Length → Nat
  | definite octets => octets
  | indefinite => 0

/-! ## Headers -/

/-- The forms of a header: a form of its identifier, then one of its length. -/
def Header.Form (mode : Mode) (header : Header) (octets : Octets) : Prop :=
  ∃ front back, header.toIdentifier.Form mode front ∧ header.length.Form mode back ∧
    octets = front ++ back

namespace Header

/-- A form of a header is read, and its length is compared with what follows it. -/
theorem takeOctets_append {mode : Mode} {front : Octets} {header : Header} (h : header.Form mode front)
    (rest : Octets) :
    takeOctets mode (front ++ rest) = (header.checkLength rest.length).map fun _ => (header, rest) := by
  obtain ⟨identifier, length, hidentifier, hlength, rfl⟩ := h
  rw [takeOctets, List.append_assoc, Identifier.take_append hidentifier]
  show (Length.take mode (length ++ rest) >>= _) = _
  rw [Length.take_append hlength]
  show (header.checkLength rest.length >>= _) = _
  cases header.checkLength rest.length <;> rfl

/-- **Reading a header takes one of its forms off the front**, provided that its length fits what is
    left. -/
theorem takeOctets_eq_ok_iff {mode : Mode} {octets rest : Octets} {header : Header} :
    takeOctets mode octets = .ok (header, rest) ↔
      ∃ front, header.Form mode front ∧ octets = front ++ rest ∧
        header.checkLength rest.length = .ok () := by
  constructor
  · intro h
    rw [takeOctets] at h
    obtain ⟨⟨identifier, afterIdentifier⟩, hidentifier, h⟩ := bind_eq_ok_iff.1 h
    obtain ⟨⟨length, afterLength⟩, hlength, h⟩ := bind_eq_ok_iff.1 h
    obtain ⟨_, hcheck, h⟩ := bind_eq_ok_iff.1 h
    obtain ⟨rfl, rfl⟩ := Prod.mk.inj (Except.ok.inj h)
    obtain ⟨front, hfront, rfl⟩ := Identifier.take_eq_ok_iff.1 hidentifier
    obtain ⟨back, hback, heq⟩ := Length.take_eq_ok_iff.1 hlength
    exact ⟨front ++ back, ⟨front, back, hfront, hback, rfl⟩, by rw [heq, List.append_assoc], hcheck⟩
  · rintro ⟨front, hform, rfl, hcheck⟩
    rw [takeOctets_append hform, hcheck]
    rfl

/-- The octets written for a header of definite length are a form in every mode. -/
theorem form_octets (mode : Mode) (identifier : Identifier) {length : Nat} (h : length < Length.limit) :
    Form mode ⟨identifier, .definite length⟩ (octets ⟨identifier, .definite length⟩) :=
  ⟨_, _, identifier.form_octets mode, Length.form_octets mode h, rfl⟩

/-- DER has no other form of a header than the one written. -/
theorem eq_octets_of_form_der {header : Header} {octets : Octets} (h : header.Form .der octets) :
    octets = header.octets := by
  obtain ⟨front, back, hfront, hback, rfl⟩ := h
  rw [Identifier.eq_octets_of_form_der hfront, Length.eq_octets_of_form_der hback, Header.octets]

/-- Every form of a header takes at least one octet for the identifier and one for the length. -/
theorem two_le_length_of_form {mode : Mode} {header : Header} {octets : Octets}
    (h : header.Form mode octets) : 2 ≤ octets.length := by
  obtain ⟨identifier, length⟩ := header
  obtain ⟨front, back, hfront, hback, rfl⟩ := h
  have h1 : 1 ≤ front.length := by cases hfront <;> simp
  have h2 : 1 ≤ back.length := by cases hback <;> simp
  rw [List.length_append]
  omega

/-- The check of a header that may have its length compares what it announces with what is there. -/
theorem checkLength_eq {header : Header} (h : header.length = .indefinite → header.constructed = true)
    (available : Nat) :
    header.checkLength available =
      if available < header.length.announced then .error .lengthOverflow else .ok () := by
  cases hlength : header.length with
  | definite length => rw [checkLength, hlength, Length.announced]
  | indefinite =>
      have hnone : ¬ available < Length.indefinite.announced := Nat.not_lt_zero _
      simp only [checkLength, hlength, h hlength, if_true, if_neg hnone]

/-- A length is checked against what the header announces. -/
theorem checkLength_eq_ok_iff {header : Header} {available : Nat} :
    header.checkLength available = .ok () ↔
      (header.length = .indefinite → header.constructed = true) ∧ header.length.announced ≤ available := by
  cases hlength : header.length with
  | definite length => simp [checkLength, hlength, Length.announced]
  | indefinite => simp [checkLength, hlength, Length.announced]

/-- A definite length has to be there, whatever the identifier is. -/
theorem checkLength_definite_eq_ok_iff {identifier : Identifier} {length available : Nat} :
    checkLength ⟨identifier, .definite length⟩ available = .ok () ↔ length ≤ available := by
  rw [checkLength_eq_ok_iff]
  exact and_iff_right nofun

/-- A window is read like its octets, and what is left ends where the window does. -/
theorem take_eq_ok_iff {mode : Mode} {window after : Window} {header : Header} :
    take mode window = .ok (header, after) ↔
      ∃ front, header.Form mode front ∧ window.octets = front ++ after.octets ∧
        after.pos = window.pos + front.length ∧
        header.checkLength after.octets.length = .ok () := by
  have hpos (front rest : Octets) (h : window.octets = front ++ rest) :
      window.remaining rest = ⟨window.pos + front.length, rest⟩ := by
    rw [Window.remaining, h, List.length_append, Nat.add_sub_cancel]
  unfold take
  constructor
  · intro h
    split at h
    · rename_i heq
      obtain ⟨rfl, rfl⟩ := Prod.mk.inj (Except.ok.inj h)
      obtain ⟨front, hform, hoctets, hcheck⟩ := takeOctets_eq_ok_iff.1 heq
      exact ⟨front, hform, hoctets, by rw [hpos _ _ hoctets], hcheck⟩
    · simp at h
  · rintro ⟨front, hform, hoctets, hafter, hcheck⟩
    rw [takeOctets_eq_ok_iff.2 ⟨front, hform, hoctets, hcheck⟩]
    simp only [hpos _ _ hoctets, ← hafter]

/-- A read is that of the octets in its window, and its errors are at the offset. Past the buffer there are no
    octets. -/
theorem read_eq (mode : Mode) (buffer : Octets) (offset maxLen : Nat) :
    read mode buffer offset maxLen =
      match takeOctets mode ((buffer.drop offset).take maxLen) with
      | .ok (header, rest) => .ok (header, ((buffer.drop offset).take maxLen).length - rest.length)
      | .error kind => .error ⟨kind, offset⟩ := by
  unfold read
  by_cases hoffset : buffer.length < offset
  · rw [if_pos hoffset, List.drop_of_length_le (Nat.le_of_lt hoffset), List.take_nil]
    rfl
  · rw [if_neg hoffset, take]
    cases takeOctets mode ((buffer.drop offset).take maxLen) with
    | error kind => rfl
    | ok result =>
        show Except.ok (result.1, _) = _
        rw [Window.remaining, Nat.add_sub_cancel_left]

/-- **Reading at a place of a buffer takes a form of the header found there.** Octets past the limit do not
    count. -/
theorem read_eq_ok_iff {mode : Mode} {buffer : Octets} {offset maxLen count : Nat} {header : Header} :
    read mode buffer offset maxLen = .ok (header, count) ↔
      offset ≤ buffer.length ∧ ∃ front rest, header.Form mode front ∧
        (buffer.drop offset).take maxLen = front ++ rest ∧ header.checkLength rest.length = .ok () ∧
        count = front.length := by
  rw [read_eq]
  constructor
  · intro h
    split at h
    · rename_i found rest htake
      obtain ⟨rfl, rfl⟩ := Prod.mk.inj (Except.ok.inj h)
      obtain ⟨front, hform, hoctets, hcheck⟩ := takeOctets_eq_ok_iff.1 htake
      -- a form is not empty, so the offset is not past the buffer
      have hoffset : offset ≤ buffer.length := by
        have htwo := two_le_length_of_form hform
        have hlength := congrArg List.length hoctets
        rw [List.length_take, List.length_drop, List.length_append] at hlength
        omega
      refine ⟨hoffset, front, rest, hform, hoctets, hcheck, ?_⟩
      rw [hoctets, List.length_append, Nat.add_sub_cancel]
    · cases h
  · rintro ⟨-, front, rest, hform, hoctets, hcheck, rfl⟩
    rw [takeOctets_eq_ok_iff.2 ⟨front, hform, hoctets, hcheck⟩, hoctets, List.length_append]
    exact congrArg (fun count => Except.ok (header, count)) (Nat.add_sub_cancel ..)

end Header

/-! ## Framed values -/

/-- The octets are a value of definite length with the given identifier and content, in a form that the
    mode accepts. -/
def Framed (mode : Mode) (identifier : Identifier) (content octets : Octets) : Prop :=
  ∃ head, Header.Form mode ⟨identifier, .definite content.length⟩ head ∧ octets = head ++ content

/-- The DER form of a value with the given identifier and content. -/
def frame (identifier : Identifier) (content : Octets) : Octets :=
  Header.octets ⟨identifier, .definite content.length⟩ ++ content

theorem framed_frame (mode : Mode) (identifier : Identifier) {content : Octets}
    (h : content.length < Length.limit) : Framed mode identifier content (frame identifier content) :=
  ⟨_, Header.form_octets mode identifier h, rfl⟩

theorem length_content_le_frame (identifier : Identifier) (content : Octets) :
    content.length ≤ (frame identifier content).length := by
  rw [frame, List.length_append]
  omega

namespace Framed

variable {mode : Mode} {identifier : Identifier} {content octets : Octets}

/-- DER has no other form of a value than the one written. -/
theorem eq_frame (h : Framed .der identifier content octets) : octets = frame identifier content := by
  obtain ⟨head, hform, rfl⟩ := h
  rw [Header.eq_octets_of_form_der hform, frame]

/-- A value takes two octets beside its content. -/
theorem length_content_le (h : Framed mode identifier content octets) :
    content.length + 2 ≤ octets.length := by
  obtain ⟨head, hform, rfl⟩ := h
  have := Header.two_le_length_of_form hform
  rw [List.length_append]
  omega

/-- The content is within the limit of eight length octets. -/
theorem length_content_lt (h : Framed mode identifier content octets) : content.length < Length.limit := by
  obtain ⟨head, ⟨front, back, -, hback, -⟩, -⟩ := h
  exact Length.lt_limit_of_form hback

/-- A value around content that is no longer is written in no more octets. -/
theorem length_frame_le {shorter : Octets} (h : Framed mode identifier content octets)
    (hle : shorter.length ≤ content.length) : (frame identifier shorter).length ≤ octets.length := by
  obtain ⟨head, ⟨front, back, hfront, hback, rfl⟩, rfl⟩ := h
  have hidentifier : identifier.octets.length ≤ front.length :=
    Identifier.length_octets_le_of_form hfront
  have hlength := Length.length_octets_le_of_form hback hle
  simp only [frame, Header.octets, List.length_append]
  omega

theorem ne_nil (h : Framed mode identifier content octets) : octets ≠ [] := by
  have := h.length_content_le
  rintro rfl
  simp at this

/-- The header of a value is read whatever follows the value. -/
theorem takeOctets_append (h : Framed mode identifier content octets) (rest : Octets) :
    Header.takeOctets mode (octets ++ rest) =
      .ok (⟨identifier, .definite content.length⟩, content ++ rest) := by
  obtain ⟨head, hform, rfl⟩ := h
  refine Header.takeOctets_eq_ok_iff.2 ⟨head, hform, List.append_assoc .., ?_⟩
  rw [Header.checkLength_definite_eq_ok_iff, List.length_append]
  omega

/-- Octets are a value exactly if its header is read at their start and its content is all that
    follows. -/
theorem iff_read :
    Framed mode identifier content octets ↔
      ∃ head, octets = head ++ content ∧
        Header.read mode octets 0 octets.length =
          .ok (⟨identifier, .definite content.length⟩, head.length) := by
  have hall : (octets.drop 0).take octets.length = octets := by rw [List.drop_zero, List.take_length]
  constructor
  · rintro ⟨head, hform, hoctets⟩
    refine ⟨head, hoctets, Header.read_eq_ok_iff.2 ⟨Nat.zero_le _, head, content, hform, ?_, ?_, rfl⟩⟩
    · rw [hall, hoctets]
    · exact Header.checkLength_definite_eq_ok_iff.2 (Nat.le_refl _)
  · rintro ⟨head, hoctets, hread⟩
    obtain ⟨-, front, rest, hform, hsplit, -, hlength⟩ := Header.read_eq_ok_iff.1 hread
    rw [hall, hoctets] at hsplit
    obtain ⟨rfl, rfl⟩ := List.append_inj hsplit hlength
    exact ⟨head, hform, hoctets⟩

/-- **Values are prefix-free.** Where two values start at the same octets, they are the same value. -/
theorem unique {other : Identifier} {otherContent otherOctets rest otherRest : Octets}
    (h : Framed mode identifier content octets)
    (hother : Framed mode other otherContent otherOctets)
    (heq : octets ++ rest = otherOctets ++ otherRest) :
    identifier = other ∧ content = otherContent ∧ octets = otherOctets := by
  -- The same header is read off both, and its length says where the content ends.
  have hread := h.takeOctets_append rest
  rw [heq, hother.takeOctets_append otherRest] at hread
  obtain ⟨hheader, hrest⟩ := Prod.mk.inj (Except.ok.inj hread)
  simp only [Header.mk.injEq, Length.definite.injEq] at hheader
  obtain ⟨rfl, hlength⟩ := hheader
  obtain ⟨rfl, rfl⟩ := List.append_inj hrest hlength
  exact ⟨rfl, rfl, (List.append_inj_left' heq rfl).symm ▸ rfl⟩

/-- Octets are a value with one identifier and one content. -/
theorem inj {other : Identifier} {otherContent : Octets} (h : Framed mode identifier content octets)
    (hother : Framed mode other otherContent octets) : identifier = other ∧ content = otherContent := by
  obtain ⟨hidentifier, hcontent, -⟩ := h.unique hother (rfl : octets ++ [] = octets ++ [])
  exact ⟨hidentifier, hcontent⟩

end Framed

/-- **Splitting off a value takes a framed value off the front.** -/
theorem Element.take_eq_ok_iff {mode : Mode} {window : Window} {element : Element} :
    Element.take mode window = .ok element ↔
      ∃ front, Framed mode element.header.toIdentifier element.content.octets front ∧
        window.octets = front ++ element.rest.octets ∧
        element.header.length = .definite element.content.octets.length ∧
        element.content.pos = window.pos + (front.length - element.content.octets.length) ∧
        element.rest.pos = window.pos + front.length := by
  unfold Element.take
  constructor
  · intro h
    obtain ⟨⟨header, after⟩, hheader, h⟩ := bind_eq_ok_iff.1 h
    obtain ⟨head, hform, hoctets, hpos, hcheck⟩ := Header.take_eq_ok_iff.1 hheader
    obtain ⟨identifier, length⟩ := header
    cases length with
    | indefinite => simp at h
    | definite length =>
        obtain rfl := Except.ok.inj h
        have hfits : length ≤ after.octets.length := Header.checkLength_definite_eq_ok_iff.1 hcheck
        have hlength : (after.octets.take length).length = length := by
          rw [List.length_take, Nat.min_eq_left hfits]
        simp only [Window.take, Window.drop, hlength]
        refine ⟨head ++ after.octets.take length, ⟨head, by rwa [hlength], rfl⟩, ?_, trivial, ?_, ?_⟩
        · rw [List.append_assoc, List.take_append_drop, hoctets]
        · rw [List.length_append, hlength]
          omega
        · rw [List.length_append, hlength]
          omega
  · rintro ⟨_, ⟨head, hform, rfl⟩, hoctets, hlength, hcontent, hrest⟩
    obtain ⟨⟨identifier, length⟩, ⟨contentPos, content⟩, ⟨restPos, rest⟩⟩ := element
    simp only [List.length_append, Nat.add_sub_cancel] at hform hoctets hlength hcontent hrest
    subst hlength
    have hheader : Header.take mode window =
        .ok (⟨identifier, .definite content.length⟩, ⟨contentPos, content ++ rest⟩) := by
      refine Header.take_eq_ok_iff.2 ⟨head, hform, by rw [hoctets, List.append_assoc], hcontent, ?_⟩
      rw [Header.checkLength_definite_eq_ok_iff, List.length_append]
      omega
    refine bind_eq_ok_iff.2 ⟨_, hheader, ?_⟩
    simp only [Window.take, Window.drop, List.take_left, List.drop_left]
    rw [hcontent, hrest, Nat.add_assoc]

end Asn1
