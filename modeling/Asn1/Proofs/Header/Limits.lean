import Asn1.Proofs.Header
import Asn1.Proofs.Octets.Word

/-!
# `Asn1.Proofs.Header.Limits` — tag numbers and lengths are read up to their limits

A tag number is put together digit by digit in a word of 32 bits, a length octet by octet in one of 64 bits. The
checks before each step refuse what would not fit, and nothing else: no bit of a number is lost, and no number
that fits is refused.

## Contents
- **Digits.** `Base128.run` is what there is of a number at the start of octets.
- **Tag numbers.** `Identifier.take_ber_high` says what digits are read as, `Identifier.takeNumberWord_eq` that a
  word of 32 bits is enough for them.
- **Lengths.** `Length.take_long_ber` and `Length.cases_of_take`, `Length.toNat_ofOctets` for words.
- **Shortest forms.** `ReadsShortest`, and that this is how the strict mode reads.
- **Result.** `Header.limits_exact`.
-/

namespace Asn1

/-! ## Digits -/

namespace Base128

/-- The digits at the start of octets: those that announce another one, and the one behind them, if there is
    one. -/
def run (octets : Octets) : Octets :=
  octets.takeWhile continues ++ (octets.dropWhile continues).take 1

theorem run_cons (octet : UInt8) (rest : Octets) :
    run (octet :: rest) = octet :: if continues octet then run rest else [] := by
  unfold run
  by_cases h : continues octet = true
  · simp only [List.takeWhile_cons, List.dropWhile_cons, h, if_true, List.cons_append]
  · simp only [List.takeWhile_cons, List.dropWhile_cons, h, if_false, List.nil_append, Bool.false_eq_true,
      List.take_succ_cons, List.take_zero]

/-- The run is where the octets start. -/
theorem run_prefix (octets : Octets) : run octets <+: octets := by
  induction octets with
  | nil => exact List.prefix_rfl
  | cons octet rest ih =>
      rw [run_cons]
      split
      · exact List.cons_prefix_cons.2 ⟨rfl, ih⟩
      · exact List.cons_prefix_cons.2 ⟨rfl, List.nil_prefix⟩

/-- Digits from the first one on spell a number above a bound exactly if all of them do. -/
theorem exists_prefix_iff {octets : Octets} {bound : Nat} :
    (∃ front, front <+: octets ∧ bound ≤ value front) ↔ bound ≤ value octets := by
  constructor
  · rintro ⟨front, ⟨rest, rfl⟩, hbound⟩
    have hvalue : value (front ++ rest) = valueFrom (value front) rest := List.foldl_append
    rw [hvalue]
    exact Nat.le_trans hbound (le_valueFrom _ _)
  · intro hbound
    exact ⟨octets, List.prefix_rfl, hbound⟩

end Base128

/-! ## Tag numbers -/

namespace Identifier

/-- What a number makes with one more digit fits 32 bits exactly if the number passes the check before it. -/
theorem lt_two_pow_iff (number : Nat) (octet : UInt8) :
    number * 128 + Base128.digit octet < 2 ^ 32 ↔ ¬ number > maxNumber / 128 := by
  have hdigit : Base128.digit octet < 128 := Nat.mod_lt _ (by decide)
  simp only [maxNumber]
  omega

/-- **A tag number is refused for its size, or read, or truncated.** Its size is that of the digits that are
    there, up to the last one or to the end of the octets. -/
theorem takeNumber_ber_eq {start : Nat} (octets : Octets) (hstart : start < 2 ^ 32) :
    takeNumber .ber start octets =
      if 2 ^ 32 ≤ Base128.valueFrom start (Base128.run octets) then .error (.content .tagNumberTooLarge)
      else if Base128.isTerminated (Base128.run octets) then
        .ok (UInt32.ofNat (Base128.valueFrom start (Base128.run octets)),
          octets.drop (Base128.run octets).length)
      else .error .headerTruncated := by
  induction octets generalizing start with
  | nil =>
      have hsmall : ¬ 2 ^ 32 ≤ Base128.valueFrom start (Base128.run []) := Nat.not_le.2 hstart
      rw [if_neg hsmall]
      rfl
  | cons octet rest ih =>
      have hfits := lt_two_pow_iff start octet
      rw [takeNumber, Base128.run_cons, Base128.valueFrom_cons]
      by_cases hcheck : start > maxNumber / 128
      · -- further digits do not make the number smaller
        have hlarge := Nat.le_trans (Nat.not_lt.1 fun hlt => hfits.1 hlt hcheck)
          (Base128.le_valueFrom (start * 128 + Base128.digit octet)
            (if Base128.continues octet then Base128.run rest else []))
        rw [if_pos hcheck, if_pos hlarge]
      rw [if_neg hcheck]
      by_cases hcont : Base128.continues octet = true
      · simp only [hcont, if_true, Base128.isTerminated, List.length_cons, List.drop_succ_cons]
        exact ih (hfits.2 hcheck)
      · have hsmall := Nat.not_le.2 (hfits.2 hcheck)
        simp only [hcont, if_false, Bool.false_eq_true, Base128.valueFrom_nil, if_neg hsmall,
          Base128.isTerminated, List.isEmpty_nil, if_true, Mode.isDer, false_and]
        rfl

/-- **What is behind a first octet that announces a number** decides how it is read: a zero digit in front, the
    size of the digits that are there, and whether there is a last one. -/
theorem take_ber_high {first : UInt8} (h : first.toNat % 32 = 31) (tail : Octets) :
    take .ber (first :: tail) =
      if tail.head? = some 0x80 then .error (.content .tagNumberLeadingZero)
      else if 2 ^ 32 ≤ Base128.value (Base128.run tail) then .error (.content .tagNumberTooLarge)
      else if Base128.isTerminated (Base128.run tail) then
        .ok (⟨⟨TagClass.ofBits (first.toNat / 64), UInt32.ofNat (Base128.value (Base128.run tail))⟩,
          first.toNat / 32 % 2 = 1⟩, tail.drop (Base128.run tail).length)
      else .error .headerTruncated := by
  have hvalue : Base128.valueFrom 0 (Base128.run tail) = Base128.value (Base128.run tail) := rfl
  simp only [take, takeNumber_ber_eq tail (show 0 < 2 ^ 32 by decide), hvalue]
  rw [if_neg (not_not_intro h)]
  split
  · rfl
  split
  · rfl
  split
  · rfl
  · rfl

/-- What is read as an identifier behind such an octet has the number that the digits spell. -/
theorem number_of_take_ber_high {first : UInt8} (h : first.toNat % 32 = 31) {tail rest : Octets}
    {identifier : Identifier} (htake : take .ber (first :: tail) = .ok (identifier, rest)) :
    identifier.leadOctet 31 = first ∧ tail = Base128.run tail ++ rest ∧
      identifier.tag.number.toNat = Base128.value (Base128.run tail) := by
  rw [take_ber_high h] at htake
  split at htake
  · cases htake
  split at htake
  · cases htake
  rename_i hsmall
  split at htake
  · obtain ⟨rfl, rfl⟩ := Prod.mk.inj (Except.ok.inj htake)
    have hlead := leadOctet_of_octet first (UInt32.ofNat (Base128.value (Base128.run tail)))
    rw [h] at hlead
    exact ⟨hlead, List.prefix_iff_eq_append.1 (Base128.run_prefix tail) |>.symm,
      UInt32.toNat_ofNat_of_lt' (Nat.not_le.1 hsmall)⟩
  · cases htake

/-- `takeNumber` with the number put together in a word of 32 bits, where a shift loses the top bits. -/
def takeNumberWord (mode : Mode) (number : UInt32) : Octets → Except ErrorKind (UInt32 × Octets)
  | [] => .error .headerTruncated
  | octet :: rest =>
    if (0xFFFFFFFF : UInt32) >>> 7 < number then .error (.content .tagNumberTooLarge)
    else
      let number := number <<< 7 ||| (octet &&& 0x7F).toUInt32
      if Base128.continues octet then takeNumberWord mode number rest
      else if mode.isDer ∧ number ≤ 30 then .error (.content .highFormOfLowTag)
      else .ok (number, rest)

/-- No bit is lost in a shift after the check. -/
theorem toNat_shiftLeft_or {number : UInt32} (h : ¬ number.toNat > maxNumber / 128) (octet : UInt8) :
    (number <<< 7 ||| (octet &&& 0x7F).toUInt32).toNat = number.toNat * 128 + Base128.digit octet := by
  have hdigit : (octet &&& 0x7F).toUInt32.toNat = Base128.digit octet := by
    rw [UInt8.toNat_toUInt32, UInt8.toNat_and]
    exact Nat.and_two_pow_sub_one_eq_mod octet.toNat 7
  have hshift : (number <<< 7).toNat = 2 ^ 7 * number.toNat := by
    have hfits : 2 ^ 7 * number.toNat < 2 ^ 32 := by
      simp only [maxNumber] at h
      omega
    rw [UInt32.toNat_shiftLeft, Nat.shiftLeft_eq, Nat.mul_comm]
    exact Nat.mod_eq_of_lt hfits
  have hgap : Base128.digit octet < 2 ^ 7 := Nat.mod_lt _ (by decide)
  rw [UInt32.toNat_or, hshift, hdigit, ← Nat.two_pow_add_eq_or_of_lt hgap, Nat.mul_comm]

/-- **A word of 32 bits is enough for a tag number.** -/
theorem takeNumberWord_eq (mode : Mode) (number : UInt32) (octets : Octets) :
    takeNumberWord mode number octets = takeNumber mode number.toNat octets := by
  induction octets generalizing number with
  | nil => rfl
  | cons octet rest ih =>
      have hcheck : (0xFFFFFFFF : UInt32) >>> 7 < number ↔ number.toNat > maxNumber / 128 :=
        UInt32.lt_iff_toNat_lt
      rw [takeNumberWord, takeNumber]
      by_cases hlarge : number.toNat > maxNumber / 128
      · rw [if_pos (hcheck.2 hlarge), if_pos hlarge]
      · have hword := toNat_shiftLeft_or hlarge octet
        have hlow : number <<< 7 ||| (octet &&& 0x7F).toUInt32 ≤ 30 ↔
            number.toNat * 128 + Base128.digit octet ≤ Tag.maxLowNumber := by
          rw [UInt32.le_iff_toNat_le, hword]
          rfl
        have hnumber : UInt32.ofNat (number.toNat * 128 + Base128.digit octet) =
            number <<< 7 ||| (octet &&& 0x7F).toUInt32 := by
          rw [← hword, UInt32.ofNat_toNat]
        rw [if_neg (mt hcheck.1 hlarge), if_neg hlarge]
        simp only [ih, hword, hlow, hnumber]

end Identifier

/-! ## Lengths -/

namespace Length

/-- A long form of up to eight octets is read as the number they spell, leading zeros or not. -/
theorem take_long_ber {digits : Octets} (hpos : 0 < digits.length) (hle : digits.length ≤ 8) (rest : Octets) :
    take .ber (UInt8.ofNat (128 + digits.length) :: digits ++ rest) = .ok (.definite digits.toNat, rest) :=
  take_append (.long (List.length_pos_iff.1 hpos) hle fun hder => absurd hder (by decide)) rest

/-- The word that eight octets make has their number. -/
theorem toNat_ofOctets {digits : Octets} (hle : digits.length ≤ 8) :
    (Word.ofOctets digits).toNat = digits.toNat := by
  have hlt : digits.toNat < 2 ^ 64 := toNat_lt_limit hle
  rw [Word.ofOctets_eq, UInt64.toNat_ofNat_of_lt' hlt]

/-- A length that is read is the octet itself, or the number that all octets of a long form spell. -/
theorem cases_of_take {mode : Mode} {octets rest : Octets} {number : Nat}
    (h : take mode octets = .ok (.definite number, rest)) :
    (number < 128 ∧ octets = UInt8.ofNat number :: rest) ∨
      ∃ digits : Octets, 0 < digits.length ∧ digits.length ≤ 8 ∧ number = digits.toNat ∧
        octets = UInt8.ofNat (128 + digits.length) :: digits ++ rest := by
  obtain ⟨front, hform, rfl⟩ := take_eq_ok_iff.1 h
  cases hform with
  | short hshort => exact .inl ⟨hshort, rfl⟩
  | @long digits hne hle _ => exact .inr ⟨digits, List.length_pos_iff.2 hne, hle, rfl, rfl⟩

end Length

/-! ## Shortest forms -/

/-- The octets before `rest` are read as the value, and no fewer octets are read as it. -/
def ReadsShortest {α : Type} (take : Octets → Except ErrorKind (α × Octets)) (value : α) (octets rest : Octets) :
    Prop :=
  take octets = .ok (value, rest) ∧ ∀ other otherRest, take other = .ok (value, otherRest) →
    octets.length - rest.length ≤ other.length - otherRest.length

/-- Where the strict forms are the shortest ones, the strict mode reads what is shortest. -/
theorem take_der_eq_ok_iff {α : Type} {take : Mode → Octets → Except ErrorKind (α × Octets)}
    {form : Mode → Octets → Prop} {value : α}
    (htake : ∀ {mode octets rest}, take mode octets = .ok (value, rest) ↔
      ∃ front, form mode front ∧ octets = front ++ rest)
    (hder : ∀ {front}, form .der front ↔
      form .ber front ∧ ∀ other, form .ber other → front.length ≤ other.length)
    {octets rest : Octets} :
    take .der octets = .ok (value, rest) ↔ ReadsShortest (take .ber) value octets rest := by
  have hlength (front rest : Octets) : (front ++ rest).length - rest.length = front.length := by
    rw [List.length_append, Nat.add_sub_cancel]
  constructor
  · intro h
    obtain ⟨front, hform, rfl⟩ := htake.1 h
    obtain ⟨hber, hshortest⟩ := hder.1 hform
    refine ⟨htake.2 ⟨front, hber, rfl⟩, ?_⟩
    intro other otherRest hother
    obtain ⟨otherFront, hotherForm, rfl⟩ := htake.1 hother
    rw [hlength, hlength]
    exact hshortest otherFront hotherForm
  · rintro ⟨h, hshortest⟩
    obtain ⟨front, hform, rfl⟩ := htake.1 h
    refine htake.2 ⟨front, hder.2 ⟨hform, fun other hother => ?_⟩, rfl⟩
    have hle := hshortest (other ++ []) [] (htake.2 ⟨other, hother, rfl⟩)
    rwa [hlength, hlength] at hle

namespace Identifier

/-- The strict form of an identifier is its shortest one. -/
theorem form_der_iff {identifier : Identifier} {front : Octets} :
    identifier.Form .der front ↔
      identifier.Form .ber front ∧ ∀ other, identifier.Form .ber other → front.length ≤ other.length := by
  constructor
  · intro h
    obtain rfl := eq_octets_of_form_der h
    exact ⟨identifier.form_octets .ber, fun other hother => length_octets_le_of_form hother⟩
  · rintro ⟨hform, hshortest⟩
    have hle := hshortest _ (identifier.form_octets .ber)
    cases hform with
    | low hlow => exact .low hlow
    | @high digits hterm hzero hvalue _ =>
        -- the high form of a number up to 30 is longer than its low form
        refine .high hterm hzero hvalue fun _ => Nat.lt_of_not_le fun hlow => ?_
        have hdigits : digits ≠ [] := by
          rintro rfl
          cases hterm
        have hpos := List.length_pos_iff.2 hdigits
        simp only [octets, if_pos hlow, List.length_cons, List.length_nil] at hle
        omega

theorem take_der_iff_readsShortest {identifier : Identifier} {octets rest : Octets} :
    take .der octets = .ok (identifier, rest) ↔ ReadsShortest (take .ber) identifier octets rest :=
  @take_der_eq_ok_iff _ take (fun mode => identifier.Form mode) identifier take_eq_ok_iff form_der_iff _ _

end Identifier

namespace Length

/-- The strict form of a definite length is its shortest one. -/
theorem form_der_iff {number : Nat} {front : Octets} :
    (definite number).Form .der front ↔
      (definite number).Form .ber front ∧
        ∀ other, (definite number).Form .ber other → front.length ≤ other.length := by
  constructor
  · intro h
    have hlimit := lt_limit_of_form h
    obtain rfl := eq_octets_of_form_der h
    exact ⟨form_octets .ber hlimit, fun other hother => length_octets_le_of_form hother (Nat.le_refl _)⟩
  · rintro ⟨hform, hshortest⟩
    have hle := hshortest _ (form_octets .ber (lt_limit_of_form hform))
    cases hform with
    | short hshort => exact .short hshort
    | @long digits hne hcount _ =>
        have hpos := List.length_pos_iff.2 hne
        rw [length_octets, encodedLen, List.length_cons] at hle
        -- the short form is shorter than a long one, and so is a long form without its leading zero
        have hlarge : ¬ digits.toNat < 128 := by
          intro hshort
          rw [if_pos hshort] at hle
          omega
        refine .long hne hcount fun _ => isMinimal_iff.2 ⟨?_, Nat.not_lt.1 hlarge⟩
        intro hzero
        obtain ⟨rest, rfl⟩ := List.head?_eq_some_iff.1 hzero
        rw [if_neg hlarge, Octets.toNat_zero_cons, List.length_cons] at hle
        rw [Octets.toNat_zero_cons] at hlarge
        have hrest : 0 < rest.length := by
          rw [List.length_pos_iff]
          rintro rfl
          exact hlarge (by decide)
        have hfits := Octets.lengthOfNat_le hrest (Octets.toNat_lt rest)
        omega

theorem take_der_iff_readsShortest {number : Nat} {octets rest : Octets} :
    take .der octets = .ok (.definite number, rest) ↔ ReadsShortest (take .ber) (.definite number) octets rest :=
  @take_der_eq_ok_iff _ take (fun mode => (definite number).Form mode) (.definite number) take_eq_ok_iff
    form_der_iff _ _

end Length

/-! ## Result -/

namespace Header

/-- **Tag numbers and lengths are read up to their limits.** Behind a first octet that announces a tag number,
    the digits decide: a zero digit in front is refused first, then digits some of which spell a number that does
    not fit 32 bits, and then digits without a last one. What remains is read as the number that the digits spell.
    The octets of a long length are read as the number they spell, all of them and at most eight. The strict mode
    reads the shortest forms of what the lenient mode reads. Words of 32 and 64 bits are enough for all this. -/
theorem limits_exact :
    (∀ (first : UInt8) (tail : Octets), first.toNat % 32 = 31 →
      (Identifier.take .ber (first :: tail) = .error (.content .tagNumberLeadingZero) ↔
        tail.head? = some 0x80) ∧
      (Identifier.take .ber (first :: tail) = .error (.content .tagNumberTooLarge) ↔
        tail.head? ≠ some 0x80 ∧ ∃ front, front <+: Base128.run tail ∧ 2 ^ 32 ≤ Base128.value front) ∧
      (Identifier.take .ber (first :: tail) = .error .headerTruncated ↔
        tail.head? ≠ some 0x80 ∧ Base128.isTerminated (Base128.run tail) = false ∧
          ¬ ∃ front, front <+: Base128.run tail ∧ 2 ^ 32 ≤ Base128.value front) ∧
      ((∃ identifier rest, Identifier.take .ber (first :: tail) = .ok (identifier, rest)) ↔
        tail.head? ≠ some 0x80 ∧ Base128.isTerminated (Base128.run tail) = true ∧
          Base128.value (Base128.run tail) ≤ 2 ^ 32 - 1)) ∧
    (∀ (first : UInt8) (tail : Octets) identifier rest, first.toNat % 32 = 31 →
      Identifier.take .ber (first :: tail) = .ok (identifier, rest) →
      identifier.leadOctet 31 = first ∧ tail = Base128.run tail ++ rest ∧
        identifier.tag.number.toNat = Base128.value (Base128.run tail)) ∧
    (∀ (first : UInt8) (tail : Octets), first.toNat % 32 ≠ 31 →
      ∃ identifier, Identifier.take .ber (first :: tail) = .ok (identifier, tail)) ∧
    Identifier.take .ber [] = .error .headerTruncated ∧
    (∀ mode octets, Identifier.takeNumberWord mode 0 octets = Identifier.takeNumber mode 0 octets) ∧
    (∀ digits rest : Octets, 0 < digits.length → digits.length ≤ 8 →
      Length.take .ber (UInt8.ofNat (128 + digits.length) :: digits ++ rest) =
        .ok (.definite digits.toNat, rest) ∧
      (Word.ofOctets digits).toNat = digits.toNat) ∧
    (∀ octets number rest, Length.take .ber octets = .ok (.definite number, rest) →
      (number < 128 ∧ octets = UInt8.ofNat number :: rest) ∨
        ∃ digits : Octets, 0 < digits.length ∧ digits.length ≤ 8 ∧ number = digits.toNat ∧
          octets = UInt8.ofNat (128 + digits.length) :: digits ++ rest) ∧
    (∀ identifier octets rest, Identifier.take .der octets = .ok (identifier, rest) ↔
      ReadsShortest (Identifier.take .ber) identifier octets rest) ∧
    ∀ number octets rest, Length.take .der octets = .ok (.definite number, rest) ↔
      ReadsShortest (Length.take .ber) (.definite number) octets rest := by
  refine ⟨?_, ?_, ?_, rfl, ?_, ?_, ?_, ?_, ?_⟩
  · intro first tail hhigh
    have hread := Identifier.take_ber_high hhigh tail
    have hfits : Base128.value (Base128.run tail) ≤ 2 ^ 32 - 1 ↔ ¬ 2 ^ 32 ≤ Base128.value (Base128.run tail) := by
      omega
    rw [Base128.exists_prefix_iff, hfits, hread]
    by_cases hzero : tail.head? = some 0x80
    · simp [hzero]
    by_cases hlarge : 2 ^ 32 ≤ Base128.value (Base128.run tail)
    · simp [hzero, hlarge, -Nat.reducePow]
    by_cases hterm : Base128.isTerminated (Base128.run tail) = true
    · simp [hzero, hlarge, hterm, -Nat.reducePow]
    · simp [hzero, hlarge, hterm, -Nat.reducePow]
  · intro first tail identifier rest hhigh htake
    exact Identifier.number_of_take_ber_high hhigh htake
  · intro first tail hlow
    simp only [Identifier.take]
    rw [if_pos hlow]
    exact ⟨_, rfl⟩
  · intro mode octets
    exact Identifier.takeNumberWord_eq mode 0 octets
  · intro digits rest hpos hle
    exact ⟨Length.take_long_ber hpos hle rest, Length.toNat_ofOctets hle⟩
  · intro octets number rest h
    exact Length.cases_of_take h
  · intro identifier octets rest
    exact Identifier.take_der_iff_readsShortest
  · intro number octets rest
    exact Length.take_der_iff_readsShortest

/-- The largest tag number and the one above it, with its last digit and without, and cut off before it is too
    large. The largest length, and a length and a tag number that only the lenient mode reads. -/
theorem limits_exact_boundaries :
    (∃ identifier, Identifier.take .ber [0x1F, 0x8F, 0xFF, 0xFF, 0xFF, 0x7F, 0x00] = .ok (identifier, [0x00]) ∧
      identifier.tag.number = 0xFFFFFFFF) ∧
      Identifier.take .ber [0x1F, 0x90, 0x80, 0x80, 0x80, 0x00] = .error (.content .tagNumberTooLarge) ∧
      Identifier.take .ber [0x1F, 0x90, 0x80, 0x80, 0x80, 0x80] = .error (.content .tagNumberTooLarge) ∧
      Identifier.take .ber [0x1F, 0x90, 0x80, 0x80, 0x80] = .error .headerTruncated ∧
      Identifier.take .ber [0x1F, 0x80] = .error (.content .tagNumberLeadingZero) ∧
      Length.take .ber [0x88, 0xFF, 0xFF, 0xFF, 0xFF, 0xFF, 0xFF, 0xFF, 0xFF] =
        .ok (.definite 0xFFFFFFFFFFFFFFFF, []) ∧
      Length.take .ber [0x82, 0x00, 0x80] = .ok (.definite 0x80, []) ∧
      Length.take .der [0x82, 0x00, 0x80] ≠ .ok (.definite 0x80, []) ∧
      Identifier.take .der [0x1F, 0x02] ≠ .ok (⟨⟨.universal, 2⟩, false⟩, []) := by
  obtain ⟨hhigh, hnumber, -, -, -, hlong, -, hidentifierDer, hlengthDer⟩ := limits_exact
  have hfirst : (0x1F : UInt8).toNat % 32 = 31 := rfl
  have hpadded := (hlong [0x00, 0x80] [] (by decide) (by decide)).1
  refine ⟨?_, ?_, ?_, ?_, ?_, ?_, hpadded, ?_, ?_⟩
  · obtain ⟨-, -, -, hfound⟩ := hhigh 0x1F [0x8F, 0xFF, 0xFF, 0xFF, 0x7F, 0x00] hfirst
    obtain ⟨identifier, rest, htake⟩ := hfound.2 ⟨by decide, by decide, by decide⟩
    obtain ⟨-, hrest, hvalue⟩ := hnumber _ _ _ _ hfirst htake
    obtain rfl : [0x00] = rest := @List.append_cancel_left _ [0x8F, 0xFF, 0xFF, 0xFF, 0x7F] _ _ hrest
    exact ⟨identifier, htake, UInt32.toNat_inj.1 hvalue⟩
  · obtain ⟨-, hlarge, -, -⟩ := hhigh 0x1F [0x90, 0x80, 0x80, 0x80, 0x00] hfirst
    exact hlarge.2 ⟨by decide, _, List.prefix_rfl, by decide⟩
  · obtain ⟨-, hlarge, -, -⟩ := hhigh 0x1F [0x90, 0x80, 0x80, 0x80, 0x80] hfirst
    exact hlarge.2 ⟨by decide, _, List.prefix_rfl, by decide⟩
  · obtain ⟨-, -, htruncated, -⟩ := hhigh 0x1F [0x90, 0x80, 0x80, 0x80] hfirst
    exact htruncated.2 ⟨by decide, by decide, mt Base128.exists_prefix_iff.1 (by decide)⟩
  · obtain ⟨hzero, -, -, -⟩ := hhigh 0x1F [0x80] hfirst
    exact hzero.2 rfl
  · exact (hlong (List.replicate 8 0xFF) [] (by decide) (by decide)).1
  · intro hder
    have hshortest := ((hlengthDer _ _ _).1 hder).2 _ _ (hlong [0x80] [] (by decide) (by decide)).1
    exact absurd hshortest (by decide)
  · intro hder
    have hlow : Identifier.take .ber [0x02] = .ok (⟨⟨.universal, 2⟩, false⟩, []) := rfl
    exact absurd (((hidentifierDer _ _ _).1 hder).2 _ _ hlow) (by decide)

end Header

end Asn1
