import Asn1.PrimitiveType
import Asn1.Proofs.Header
import Asn1.Proofs.Integer
import Asn1.Proofs.Value

/-!
# `Asn1.Proofs.PrimitiveType` — primitive content comes back

Which values of a primitive type survive writing and reading, and which content survives reading and
writing. Only object identifiers and bit strings can hold what no DER content stands for.

## Contents
- **Canonical values.** `Value.IsCanonical`: identifiers whose octets are well formed, bit strings whose
  unused bits are clear. `BitString.HasClearUnused` looks at those bits one by one.
- **Forms.** `PrimitiveType.Form` lists the content that a mode accepts for a value, and
  `PrimitiveType.decode_eq_ok_iff` says that it is what is read.
- **Round trips.** `PrimitiveType.decode_of_content?` for every mode, and
  `PrimitiveType.content?_of_decode_der`. `PrimitiveType.exists_content?_of_decode` is for content in BER.
-/

namespace Asn1

/-! ## Canonical values -/

/-- Whether the octets of the identifier are well formed. -/
def Oid.IsValid (oid : Oid) : Prop := Oid.ofContent oid.octets = .ok oid

/-- Whether a primitive value is one that DER content stands for: an identifier has to be valid, and the
    unused bits of a bit string clear, with an octet to be in. -/
def Value.IsCanonical : Value → Prop
  | .objectIdentifier oid => oid.IsValid
  | .bitString bits => bits.unusedClear = true ∧ (bits.octets = [] → bits.unused.val = 0)
  | _ => True

theorem Oid.octets_of_ofContent {content : Octets} {oid : Oid} (h : ofContent content = .ok oid) :
    oid.octets = content := by
  unfold ofContent at h
  split at h
  · simp at h
  · split at h
    · simp at h
    · split at h
      · simp at h
      · exact (congrArg Oid.octets (Except.ok.inj h)).symm

namespace BitString

/-- All unused bits are zero, one by one, and there are none without an octet for them. -/
def HasClearUnused (bits : BitString) : Prop :=
  (∀ last ∈ bits.octets.getLast?, ∀ index < bits.unused.val, last.toNat.testBit index = false) ∧
    (bits.octets = [] → bits.unused.val = 0)

/-- Bits at the end of a number are zero exactly if the power of two divides it. -/
theorem unusedClear_iff {bits : BitString} :
    bits.unusedClear = true ↔
      ∀ last ∈ bits.octets.getLast?, ∀ index < bits.unused.val, last.toNat.testBit index = false := by
  rw [unusedClear]
  cases bits.octets.getLast? with
  | none => simp
  | some last =>
      simp only [Nat.one_shiftLeft, decide_eq_true_eq, Option.mem_def, Option.some.injEq, forall_eq']
      constructor
      · intro hzero index hindex
        have hbit := Nat.testBit_mod_two_pow last.toNat bits.unused.val index
        rw [hzero, Nat.zero_testBit, decide_eq_true hindex, Bool.true_and] at hbit
        exact hbit.symm
      · intro hclear
        refine Nat.eq_of_testBit_eq fun index => ?_
        rw [Nat.testBit_mod_two_pow, Nat.zero_testBit]
        by_cases hindex : index < bits.unused.val
        · rw [hclear index hindex, Bool.and_false]
        · rw [decide_eq_false hindex, Bool.false_and]

instance (bits : BitString) : Decidable bits.HasClearUnused :=
  decidable_of_iff (bits.unusedClear = true ∧ (bits.octets = [] → bits.unused.val = 0))
    (and_congr_left' unusedClear_iff)

/-- **Content is read as the bit string that has it**, in DER if its unused bits are clear. -/
theorem ofContent_eq_ok_iff {mode : Mode} {content : Octets} {bits : BitString} :
    ofContent mode content = .ok bits ↔
      content = bits.content ∧ (mode.isDer = true → bits.HasClearUnused) := by
  constructor
  · intro h
    cases content with
    | nil => simp [ofContent] at h
    | cons unused octets =>
        simp only [ofContent] at h
        split at h
        · split at h
          · simp at h
          rename_i hempty
          split at h
          · simp at h
          rename_i hset
          obtain rfl := Except.ok.inj h
          refine ⟨by simp only [BitString.content, UInt8.ofNat_toNat], fun hder => ⟨?_, fun hnil => ?_⟩⟩
          · refine unusedClear_iff.1 (Decidable.not_not.1 fun hclear => hset ⟨hder, ?_⟩)
            simpa using hclear
          · refine Decidable.not_not.1 fun hne => hempty ⟨hder, hnil, ?_⟩
            rintro rfl
            exact hne rfl
        · simp at h
  · rintro ⟨rfl, hclear⟩
    obtain ⟨unused, octets⟩ := bits
    have htoNat : (UInt8.ofNat unused).toNat = unused := by
      have := unused.isLt
      rw [UInt8.toNat_ofNat']
      omega
    have hempty : ¬ (mode.isDer = true ∧ octets = [] ∧ UInt8.ofNat unused ≠ 0) := by
      rintro ⟨hder, hnil, hne⟩
      have hzero : unused = 0 := Fin.val_eq_zero_iff.1 ((hclear hder).2 hnil)
      exact hne (by rw [hzero]; rfl)
    have hset : ¬ (mode.isDer = true ∧ ¬ (⟨unused, octets⟩ : BitString).unusedClear = true) :=
      fun h => h.2 (unusedClear_iff.2 (hclear h.1).1)
    simp only [content, ofContent, htoNat, Fin.eta, dif_pos unused.isLt, if_neg hempty, if_neg hset]

end BitString

theorem Value.isCanonical_bitString {bits : BitString} :
    (Value.bitString bits).IsCanonical ↔ bits.HasClearUnused :=
  and_congr_left' BitString.unusedClear_iff

/-- The mode has an encoding of the value: in DER, all bit strings in it have clear unused bits. -/
def Value.Admitted (mode : Mode) (value : Value) : Prop :=
  mode.isDer = true → ∀ bits ∈ value.bitStrings, bits.HasClearUnused

/-! ## Forms -/

/-- A result that is passed through a function. -/
theorem map_eq_ok_iff {ε α β : Type} {result : Except ε α} {f : α → β} {value : β} :
    result.map f = .ok value ↔ ∃ source, result = .ok source ∧ f source = value := by
  cases result with
  | error error => simp [Except.map]
  | ok source => simp [Except.map]

namespace PrimitiveType

/-- The content that stands for a value of the type. BER takes every octet but zero for true, superfluous
    octets in front of a number, and unused bits that are set. -/
inductive Form (mode : Mode) : PrimitiveType → Octets → Value → Prop
  | boolean {octet : UInt8} : (mode.isDer = true → octet = 0x00 ∨ octet = 0xFF) →
      Form mode .boolean [octet] (.boolean (octet ≠ 0x00))
  | integer {content : Octets} {number : Integer} : content ≠ [] →
      (mode.isDer = true → Integer.isPadded content = false) → number.toInt = content.toInt →
      Form mode .integer content (.integer number)
  | bitString {bits : BitString} : (mode.isDer = true → bits.HasClearUnused) →
      Form mode .bitString bits.content (.bitString bits)
  | octetString {content : Octets} : Form mode .octetString content (.octetString content)
  | null : Form mode .null [] .null
  | objectIdentifier {oid : Oid} : oid.IsValid →
      Form mode .objectIdentifier oid.octets (.objectIdentifier oid)
  | enumerated {content : Octets} {number : Integer} : content ≠ [] →
      (mode.isDer = true → Integer.isPadded content = false) → number.toInt = content.toInt →
      Form mode .enumerated content (.integer number)
  | charString {charType : CharType} {content : Octets} :
      Form mode (.charString charType) content (.charString ⟨charType, content⟩)

theorem decodeBoolean_eq_ok_iff {mode : Mode} {content : Octets} {flag : Bool} :
    decodeBoolean mode content = .ok flag ↔
      ∃ octet : UInt8, content = [octet] ∧ (mode.isDer = true → octet = 0x00 ∨ octet = 0xFF) ∧
        flag = decide (octet ≠ 0x00) := by
  constructor
  · intro h
    unfold decodeBoolean at h
    split at h
    · rename_i octet
      refine ⟨octet, rfl, ?_⟩
      split at h
      · rename_i hzero
        obtain rfl := Except.ok.inj h
        exact ⟨fun _ => .inl hzero, by simp [hzero]⟩
      · rename_i hzero
        split at h
        · rename_i hfull
          obtain rfl := Except.ok.inj h
          refine ⟨fun hder => .inr (hfull.resolve_right ?_), by simp [hzero]⟩
          rintro rfl
          cases hder
        · simp at h
    · simp at h
  · rintro ⟨octet, rfl, hder, rfl⟩
    rw [decodeBoolean]
    by_cases hzero : octet = 0x00
    · rw [if_pos hzero, hzero]
      rfl
    · have hfull : octet = 0xFF ∨ mode = .ber := by
        cases mode with
        | ber => exact .inr rfl
        | der => exact .inl ((hder rfl).resolve_left hzero)
      rw [if_neg hzero, if_pos hfull, decide_eq_true hzero]

/-- **Content is read as a value exactly if it is one of its forms.** -/
theorem decode_eq_ok_iff {type : PrimitiveType} {mode : Mode} {content : Octets} {value : Value} :
    type.decode mode content = .ok value ↔ type.Form mode content value := by
  constructor
  · intro h
    cases type with
    | boolean =>
        obtain ⟨flag, hflag, rfl⟩ := map_eq_ok_iff.1 h
        obtain ⟨octet, rfl, hder, rfl⟩ := decodeBoolean_eq_ok_iff.1 hflag
        exact .boolean hder
    | integer =>
        obtain ⟨number, hnumber, rfl⟩ := map_eq_ok_iff.1 h
        obtain ⟨hne, hpadded, hvalue⟩ := Integer.ofContent_eq_ok_iff.1 hnumber
        exact .integer hne hpadded hvalue
    | bitString =>
        obtain ⟨bits, hbits, rfl⟩ := map_eq_ok_iff.1 h
        obtain ⟨rfl, hclear⟩ := BitString.ofContent_eq_ok_iff.1 hbits
        exact .bitString hclear
    | octetString =>
        obtain rfl := Except.ok.inj h
        exact .octetString
    | null =>
        simp only [decode] at h
        split at h
        · rename_i hnil
          obtain rfl := Except.ok.inj h
          exact hnil ▸ .null
        · simp at h
    | objectIdentifier =>
        obtain ⟨oid, hoid, rfl⟩ := map_eq_ok_iff.1 h
        obtain rfl := Oid.octets_of_ofContent hoid
        exact .objectIdentifier hoid
    | enumerated =>
        obtain ⟨number, hnumber, rfl⟩ := map_eq_ok_iff.1 h
        obtain ⟨hne, hpadded, hvalue⟩ := Integer.ofContent_eq_ok_iff.1 hnumber
        exact .enumerated hne hpadded hvalue
    | charString charType =>
        obtain rfl := Except.ok.inj h
        exact .charString
  · intro h
    cases h with
    | boolean hder => exact map_eq_ok_iff.2 ⟨_, decodeBoolean_eq_ok_iff.2 ⟨_, rfl, hder, rfl⟩, rfl⟩
    | integer hne hpadded hvalue =>
        exact map_eq_ok_iff.2 ⟨_, Integer.ofContent_eq_ok_iff.2 ⟨hne, hpadded, hvalue⟩, rfl⟩
    | bitString hclear => exact map_eq_ok_iff.2 ⟨_, BitString.ofContent_eq_ok_iff.2 ⟨rfl, hclear⟩, rfl⟩
    | octetString => rfl
    | null => rfl
    | objectIdentifier hvalid => exact map_eq_ok_iff.2 ⟨_, hvalid, rfl⟩
    | enumerated hne hpadded hvalue =>
        exact map_eq_ok_iff.2 ⟨_, Integer.ofContent_eq_ok_iff.2 ⟨hne, hpadded, hvalue⟩, rfl⟩
    | charString => rfl

/-! ## Round trips -/

/-- **Every mode reads the content written as the value**, if the value is canonical. -/
theorem decode_of_content? (mode : Mode) {type : PrimitiveType} {value : Value} {content : Octets}
    (h : type.content? value = some content) (hvalue : value.IsCanonical) :
    type.decode mode content = .ok value := by
  -- The pairs of type and value that have content; only two of them need the value to be canonical.
  unfold content? at h
  split at h
  · rename_i flag
    obtain rfl := Option.some.inj h
    cases flag <;> simp [decode, decodeBoolean, Except.map]
  · obtain rfl := Option.some.inj h
    exact map_eq_ok_iff.2 ⟨_, Integer.ofContent_content mode _, rfl⟩
  · obtain rfl := Option.some.inj h
    exact decode_eq_ok_iff.2 (.bitString fun _ => Value.isCanonical_bitString.1 hvalue)
  · obtain rfl := Option.some.inj h
    rfl
  · obtain rfl := Option.some.inj h
    rfl
  · obtain rfl := Option.some.inj h
    exact map_eq_ok_iff.2 ⟨_, hvalue, rfl⟩
  · obtain rfl := Option.some.inj h
    exact map_eq_ok_iff.2 ⟨_, Integer.ofContent_content mode _, rfl⟩
  · split at h
    · rename_i htype
      obtain rfl := Option.some.inj h
      subst htype
      rfl
    · simp at h
  · simp at h

/-- **DER has no other content for a value than the one written.** -/
theorem content?_of_decode_der {type : PrimitiveType} {value : Value} {content : Octets}
    (h : type.decode .der content = .ok value) : type.content? value = some content := by
  have hform := decode_eq_ok_iff.1 h
  cases hform with
  | boolean hder => rcases hder rfl with rfl | rfl <;> rfl
  | integer hne hpadded hvalue =>
      exact congrArg some (Integer.content_of_ofContent_der
        (Integer.ofContent_eq_ok_iff.2 ⟨hne, hpadded, hvalue⟩))
  | bitString hclear => rfl
  | octetString => rfl
  | null => rfl
  | objectIdentifier hvalid => rfl
  | enumerated hne hpadded hvalue =>
      exact congrArg some (Integer.content_of_ofContent_der
        (Integer.ofContent_eq_ok_iff.2 ⟨hne, hpadded, hvalue⟩))
  | charString => simp [content?]

/-- The value is of the kind that the type is for. -/
def Holds : PrimitiveType → Value → Prop
  | boolean, value => ∃ flag, value = .boolean flag
  | integer, value => ∃ number, value = .integer number
  | bitString, value => ∃ bits, value = .bitString bits
  | octetString, value => ∃ octets, value = .octetString octets
  | null, value => value = .null
  | objectIdentifier, value => ∃ oid, value = .objectIdentifier oid
  | enumerated, value => ∃ number, value = .integer number
  | charString charType, value => ∃ octets, value = .charString ⟨charType, octets⟩

/-- What is read is of the kind that the type is for. -/
theorem holds_of_decode {type : PrimitiveType} {mode : Mode} {content : Octets} {value : Value}
    (h : type.decode mode content = .ok value) : type.Holds value := by
  have hform := decode_eq_ok_iff.1 h
  cases hform with
  | null => exact rfl
  | _ => exact ⟨_, rfl⟩

/-- A value that is read in a mode is one that the mode has an encoding of. -/
theorem admitted_of_decode {type : PrimitiveType} {mode : Mode} {content : Octets} {value : Value}
    (h : type.decode mode content = .ok value) : value.Admitted mode := by
  intro hder bits hbits
  have hform := decode_eq_ok_iff.1 h
  cases hform with
  | bitString hclear =>
      obtain rfl := List.mem_singleton.1 hbits
      exact hclear hder
  | _ => cases hbits

/-- **What is read is written in no more octets**, which are read again in every mode that has an encoding
    of the value. -/
theorem exists_content?_of_decode {type : PrimitiveType} {mode : Mode} {content : Octets} {value : Value}
    (h : type.decode mode content = .ok value) :
    ∃ written, type.content? value = some written ∧ written.length ≤ content.length ∧
      ∀ other, value.Admitted other → type.decode other written = .ok value := by
  have hform := decode_eq_ok_iff.1 h
  cases hform with
  | boolean hder => exact ⟨_, rfl, Nat.le_refl _, fun other _ => decode_of_content? other rfl trivial⟩
  | integer hne hpadded hvalue =>
      have hle := Integer.length_content_le_of_ofContent
        (Integer.ofContent_eq_ok_iff.2 ⟨hne, hpadded, hvalue⟩)
      exact ⟨_, rfl, hle, fun other _ => decode_of_content? other rfl trivial⟩
  | @bitString bits hclear =>
      refine ⟨_, rfl, Nat.le_refl _, fun other hadmitted => decode_eq_ok_iff.2 (.bitString fun hder => ?_)⟩
      exact hadmitted hder bits List.mem_cons_self
  | octetString => exact ⟨_, rfl, Nat.le_refl _, fun _ _ => rfl⟩
  | null => exact ⟨_, rfl, Nat.le_refl _, fun _ _ => rfl⟩
  | objectIdentifier hvalid =>
      exact ⟨_, rfl, Nat.le_refl _, fun other _ => decode_of_content? other rfl hvalid⟩
  | enumerated hne hpadded hvalue =>
      have hle := Integer.length_content_le_of_ofContent
        (Integer.ofContent_eq_ok_iff.2 ⟨hne, hpadded, hvalue⟩)
      exact ⟨_, rfl, hle, fun other _ => decode_of_content? other rfl trivial⟩
  | charString => exact ⟨_, by simp [content?], Nat.le_refl _, fun _ _ => rfl⟩

end PrimitiveType

end Asn1
