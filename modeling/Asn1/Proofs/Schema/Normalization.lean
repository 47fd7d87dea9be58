import Asn1.Proofs.Schema.Reproduction
import Asn1.Proofs.Schema.RoundTrip
import Asn1.Proofs.Schema.Strictness

/-!
# `Asn1.Proofs.Schema.Normalization` — encoding turns BER into DER

A value decoded from BER is encoded in no more octets. They hold the same value: each frame keeps its
identifier, so a decoder that goes by tags takes the same turns as before. DER accepts them unless a bit
string has unused bits that are set, which encoding leaves as they are.

## Contents
- **Frames.** `Rewritten` compares a frame with the one written in its place; `SameFront` is what remains of
  that for a run of fields.
- **Fields.** `Field.Derives.rewritten` writes all frames of a field anew.
- **Types.** `Schema.Renewed` says what is true of the octets written. The invariant between fields is
  `Sequence.Agrees`, the induction `Schema.exists_renewed`.
- **Bit strings.** What a mode derives is admitted by it.
- **Result.** `Schema.encode_of_decode_ber`.
-/

namespace Asn1

/-! ## Frames -/

/-- The octets written are the DER form of a value with the same identifier and no more content. -/
def Rewritten (octets written : Octets) : Prop :=
  ∃ identifier content shorter, Framed .ber identifier content octets ∧
    shorter.length ≤ content.length ∧ written = frame identifier shorter

/-- The frames that are written around content within the limit of eight length octets. Every mode accepts
    them, in whatever they are. -/
def Framing.sealed : Framing := fun identifier content octets =>
  content.length < Length.limit ∧ octets = frame identifier content

theorem Framing.encloses_sealed : Encloses sealed := by
  rintro identifier content _ ⟨-, rfl⟩
  exact length_content_le_frame identifier content

theorem Framing.framed_of_sealed (mode : Mode) {identifier : Identifier} {content octets : Octets}
    (h : sealed identifier content octets) : Framed mode identifier content octets := by
  obtain ⟨hlength, rfl⟩ := h
  exact framed_frame mode identifier hlength

theorem Rewritten.length_le {octets written : Octets} (h : Rewritten octets written) :
    written.length ≤ octets.length := by
  obtain ⟨identifier, content, shorter, hframe, hle, rfl⟩ := h
  exact hframe.length_frame_le hle

/-- A frame is rewritten around content that is no longer. -/
theorem Framed.rewritten {identifier : Identifier} {content shorter octets : Octets}
    (h : Framed .ber identifier content octets) (hle : shorter.length ≤ content.length) :
    Rewritten octets (frame identifier shorter) ∧
      Framing.sealed identifier shorter (frame identifier shorter) :=
  ⟨⟨identifier, content, shorter, h, hle, rfl⟩, Nat.lt_of_le_of_lt hle h.length_content_lt, rfl⟩

/-- A header with the tag is read at the front of the octets. -/
def HasFrontTag (mode : Mode) (octets : Octets) (tag : Tag) : Prop :=
  ∃ header rest, Header.takeOctets mode octets = .ok (header, rest) ∧ header.tag = tag

/-- Both ends are reached, or both octets start with the same tag, the ones written in every mode. -/
def SameFront (octets written : Octets) : Prop :=
  (octets = [] ∧ written = []) ∨
    ∃ tag, HasFrontTag .ber octets tag ∧ ∀ mode, HasFrontTag mode written tag

/-- Where a frame is rewritten at the front, the same tag is at the front. -/
theorem Rewritten.sameFront {first written : Octets} (h : Rewritten first written)
    (others othersWritten : Octets) : SameFront (first ++ others) (written ++ othersWritten) := by
  obtain ⟨identifier, content, shorter, hframe, hle, rfl⟩ := h
  refine .inr ⟨identifier.tag, ⟨_, _, hframe.takeOctets_append others, rfl⟩, fun mode => ?_⟩
  have hwritten := Framing.framed_of_sealed mode (hframe.rewritten hle).2
  exact ⟨_, _, hwritten.takeOctets_append othersWritten, rfl⟩

/-- A field that is passed over by its tag is passed over by it in the octets written. -/
theorem SameFront.byTag {octets written : Octets} {mode : Mode} {field : Field Schema}
    {known other : Sequence Value} (h : SameFront octets written)
    (hresolve : field.resolve? other = field.resolve? known)
    (hrule : OmissionRule.byTag .ber field known octets) :
    OmissionRule.byTag mode field other written := by
  obtain ⟨hoctets, rfl⟩ | ⟨tag, ⟨header, rest, hheader, htag⟩, hwritten⟩ := h
  · exact .inl rfl
  obtain rfl | ⟨type, outer, found, after, htype, houter, hfound, hne⟩ := hrule
  · simp [Header.takeOctets, Identifier.take, bind, Except.bind] at hheader
  · obtain ⟨newHeader, newRest, hnewHeader, hnewTag⟩ := hwritten mode
    obtain ⟨rfl, -⟩ := Prod.mk.inj (Except.ok.inj (hheader.symm.trans hfound))
    refine .inr ⟨type, outer, newHeader, newRest, hresolve.trans htype, houter, hnewHeader, ?_⟩
    rwa [hnewTag, ← htag]

/-! ## Fields -/

/-- Items that are rewritten one by one are written in no more octets. -/
private theorem forall₂_rewritten {related related' : Octets → Value → Prop} {parts : List Octets}
    {values : List Value}
    (hitem : ∀ part value, related part value → ∃ written, Rewritten part written ∧ related' written value)
    (h : List.Forall₂ related parts values) :
    ∃ writtenParts : List Octets, List.Forall₂ related' writtenParts values ∧
      writtenParts.flatten.length ≤ parts.flatten.length := by
  induction h with
  | nil => exact ⟨[], .nil, Nat.le_refl _⟩
  | cons hrelated _ ih =>
      obtain ⟨written, hwritten, hrelated'⟩ := hitem _ _ hrelated
      obtain ⟨others, hothers, hle⟩ := ih
      refine ⟨written :: others, .cons hrelated' hothers, ?_⟩
      have := hwritten.length_le
      simp only [List.flatten_cons, List.length_append]
      omega

namespace Field

variable {σ : Type} {field : Field σ} {item item' : Encodes} {octets : Octets} {value : Value}

theorem DerivesRepeated.rewritten {override : Option Tag}
    (hitem : ∀ override part value, item override part value →
      ∃ written, Rewritten part written ∧ item' override written value)
    (h : field.DerivesRepeated (Framed .ber) item override octets value) :
    ∃ written, Rewritten octets written ∧ field.DerivesRepeated .sealed item' override written value := by
  have hitems {tag : Tag} {values : List Value} (h : DerivesItems (Framed .ber) item tag octets values) :
      ∃ written, Rewritten octets written ∧ DerivesItems .sealed item' tag written values := by
    obtain ⟨parts, hparts, hframe⟩ := h
    obtain ⟨writtenParts, hwritten, hle⟩ := forall₂_rewritten (hitem none) hparts
    obtain ⟨hrewritten, hsealed⟩ := hframe.rewritten hle
    exact ⟨_, hrewritten, writtenParts, hwritten, hsealed⟩
  unfold DerivesRepeated at h ⊢
  cases hrepetition : field.repetition with
  | single =>
      simp only [hrepetition] at h
      exact hitem _ _ _ h
  | setOf =>
      simp only [hrepetition] at h
      obtain ⟨values, rfl, h⟩ := h
      obtain ⟨written, hrewritten, h⟩ := hitems h
      exact ⟨written, hrewritten, values, rfl, h⟩
  | sequenceOf =>
      simp only [hrepetition] at h
      obtain ⟨values, rfl, h⟩ := h
      obtain ⟨written, hrewritten, h⟩ := hitems h
      exact ⟨written, hrewritten, values, rfl, h⟩

/-- **All frames of a field can be written anew**, if those of its items can. -/
theorem Derives.rewritten
    (hitem : ∀ override part value, item override part value →
      ∃ written, Rewritten part written ∧ item' override written value)
    (h : field.Derives (Framed .ber) item octets value) :
    ∃ written, Rewritten octets written ∧ field.Derives .sealed item' written value := by
  unfold Derives at h ⊢
  split at h
  · exact h.rewritten hitem
  · exact h.rewritten hitem
  · obtain ⟨content, hframe, h⟩ := h
    obtain ⟨shorter, hrewritten, h⟩ := h.rewritten hitem
    obtain ⟨houter, hsealed⟩ := hframe.rewritten hrewritten.length_le
    exact ⟨_, houter, shorter, hsealed, h⟩

theorem DerivesRepeated.mem_bitStrings {framed : Framing} {override : Option Tag} {bits : BitString}
    (h : field.DerivesRepeated framed item override octets value) :
    bits ∈ value.bitStrings ↔ ∃ inner ∈ field.parts value, bits ∈ inner.bitStrings := by
  unfold DerivesRepeated at h
  unfold parts
  cases hrepetition : field.repetition with
  | single => simp
  | setOf =>
      simp only [hrepetition] at h
      obtain ⟨values, rfl, -⟩ := h
      exact Value.mem_itemsBitStrings
  | sequenceOf =>
      simp only [hrepetition] at h
      obtain ⟨values, rfl, -⟩ := h
      exact Value.mem_itemsBitStrings

/-- The bit strings in the value of a field are those in its items. -/
theorem Derives.mem_bitStrings {framed : Framing} {bits : BitString}
    (h : field.Derives framed item octets value) :
    bits ∈ value.bitStrings ↔ ∃ inner ∈ field.parts value, bits ∈ inner.bitStrings := by
  obtain ⟨_, h, -⟩ := h.exists_repeated
  exact h.mem_bitStrings

end Field

/-! ## Types -/

namespace Schema

/-- What is written for the value is no other data, and is read again in each mode that admits it. -/
structure Renewed (schema : Schema) (name : String) (override : Option Tag) (written : Octets)
    (value : Value) : Prop where
  write : schema.write name override value = .ok written
  same : (schema.normal override value).same value = true
  derives : ∀ mode, value.Admitted mode →
    schema.Derives (.byTag mode) mode override written (schema.normal override value)

/-- What is written for the fields added to the known ones is no other data, and is read again in each mode
    that admits it, after fields that agree with the known ones. -/
structure FieldsRenewed (fields : List (Field Schema)) (full known : Sequence Value) (written : Octets)
    (added : List (String × Value)) : Prop where
  write : writeFields fields full = .ok written
  same : Value.sameFields (normalFields fields full) added = true
  derives : ∀ mode, (∀ entry ∈ added, entry.2.Admitted mode) → ∀ other : Sequence Value,
    other.Agrees known → DerivesFields (.byTag mode) mode fields other written
      { other with fields := other.fields ++ normalFields fields full }

section Fields

variable {field : Field Schema} {rest : List (Field Schema)} {full known : Sequence Value}
  {octets written : Octets} {added : List (String × Value)}

theorem fieldsRenewed_nil : FieldsRenewed [] full known [] [] where
  write := writeFields_nil.2 rfl
  same := by rw [normalFields]; rfl
  derives := fun mode _ other _ => derivesFields_nil.2 ⟨rfl, by simp [normalFields]⟩

/-- A field that was passed over is passed over again. -/
theorem FieldsRenewed.skip (h : FieldsRenewed rest full known written added)
    (hlookup : field.lookup full = .ok none) (hoptional : field.optional = true)
    (hrule : OmissionRule.byTag .ber field known octets) (hfront : SameFront octets written) :
    FieldsRenewed (field :: rest) full known written added where
  write := writeFields_cons.2 (.inl ⟨hlookup, h.write⟩)
  same := by
    rw [normalFields_of_lookup_none hlookup]
    exact h.same
  derives := fun mode hadmitted other hother => by
    rw [normalFields_of_lookup_none hlookup]
    exact derivesFields_cons.2 (.inl ⟨hoptional, hfront.byTag (hother.resolve?_eq field) hrule,
      h.derives mode hadmitted other hother⟩)

/-- A field that was there is written in front of the others, and found there again. -/
theorem FieldsRenewed.push {value : Value} {type : Schema} {first : Octets}
    (h : FieldsRenewed rest full (known.push field.name value) written added)
    (hlookup : field.lookup full = .ok (some (value, type))) (htype : field.resolve? known = some type)
    (hfield : field.Derives .sealed (type.Renewed field.name) first value) :
    FieldsRenewed (field :: rest) full known (first ++ written) ((field.name, value) :: added) := by
  have hsame : (field.mapValue type.normal value).same value = true := by
    apply Field.same_mapValue
    intro inner hinner
    obtain ⟨part, hitem, -⟩ := hfield.exists_of_mem_parts Framing.encloses_sealed hinner
    exact hitem.same
  constructor
  case write =>
    refine writeFields_cons.2 (.inr ⟨value, type, first, written, hlookup, rfl, ?_, h.write⟩)
    exact hfield.mono Framing.encloses_sealed (fun _ _ _ hsealed => hsealed.2) fun _ _ _ hitem => hitem.write
  case same =>
    rw [normalFields_of_lookup_some hlookup]
    exact Value.sameFields_cons hsame h.same
  case derives =>
    intro mode hadmitted other hother
    have hderives : field.Derives (Framed mode) (type.Derives (.byTag mode) mode) first
        (field.mapValue type.normal value) := by
      refine hfield.map Framing.encloses_sealed (fun _ _ _ _ => Framing.framed_of_sealed mode) ?_
      intro override part inner hinner _ hitem
      refine hitem.derives mode fun hder bits hbits => ?_
      exact hadmitted _ List.mem_cons_self hder bits (hfield.mem_bitStrings.2 ⟨inner, hinner, hbits⟩)
    -- The normal form is known to the fields after it in place of the value; selectors see no difference.
    have hrest := h.derives mode (fun entry hentry => hadmitted entry (List.mem_cons_of_mem _ hentry)) _
      (hother.push field.name hsame)
    refine derivesFields_cons.2 (.inr ⟨type, first, written, _, (hother.resolve?_eq field).trans htype, rfl,
      hderives, ?_⟩)
    rw [normalFields_of_lookup_some hlookup]
    simpa [Sequence.push] using hrest

end Fields

/-- **The fields derived are renewed**, if values of their types are. The sequence they are written from
    finds the same values for them. -/
theorem exists_fieldsRenewed {fields : List (Field Schema)} {known given full : Sequence Value}
    {octets : Octets}
    (htypes : ∀ field ∈ fields, ∀ type ∈ field.type.types, ∀ name override part value,
      type.Derives (.byTag .ber) .ber override part value →
        ∃ written, Rewritten part written ∧ type.Renewed name override written value)
    (hdistinct : Field.DistinctNames fields) (hbackward : Field.SelectsBackward fields)
    (hnew : ∀ field ∈ fields, known.get? field.name = none)
    (h : DerivesFields (.byTag .ber) .ber fields known octets given)
    (hfull : ∀ name, full.get? name = given.get? name) :
    ∃ written added, given.fields = known.fields ++ added ∧ written.length ≤ octets.length ∧
      SameFront octets written ∧ FieldsRenewed fields full known written added := by
  induction fields generalizing known octets with
  | nil =>
      obtain ⟨rfl, rfl⟩ := derivesFields_nil.1 h
      exact ⟨[], [], (List.append_nil _).symm, Nat.le_refl _, .inl ⟨rfl, rfl⟩, fieldsRenewed_nil⟩
  | cons field rest ih =>
      obtain ⟨hother, hdistinct⟩ := Field.distinctNames_cons.1 hdistinct
      obtain ⟨hselector, hbackward⟩ := hbackward
      have htypesRest := fun other hother => htypes other (List.mem_cons_of_mem _ hother)
      have hnewField := hnew field List.mem_cons_self
      have hnewRest := fun other hother => hnew other (List.mem_cons_of_mem _ hother)
      obtain ⟨hoptional, hrule, h⟩ | ⟨type, first, others, value, htype, rfl, hfield, h⟩ :=
        derivesFields_cons.1 h
      · -- What is written for the fields after it starts with the tag that it was passed over for.
        obtain ⟨written, added, hgiven, hle, hfront, hrenewed⟩ :=
          ih htypesRest hdistinct hbackward hnewRest h
        exact ⟨written, added, hgiven, hle, hfront,
          hrenewed.skip (h.lookup_eq_none hother hnewField hoptional hfull) hoptional hrule hfront⟩
      · -- It is at the front itself, so nothing is asked of what comes after it.
        obtain ⟨written, added, hgiven, hle, -, hrenewed⟩ :=
          ih htypesRest hdistinct hbackward (Field.get?_push_of_new hother hnewRest) h
        obtain ⟨firstWritten, hrewritten, hfieldRenewed⟩ :=
          hfield.rewritten (htypes field List.mem_cons_self type (Field.resolve?_mem htype) field.name)
        refine ⟨firstWritten ++ written, (field.name, value) :: added, ?_, ?_, hrewritten.sameFront _ _,
          hrenewed.push (h.lookup_eq_some hselector hnewField htype hfull) htype hfieldRenewed⟩
        · simpa [Sequence.push] using hgiven
        · have := hrewritten.length_le
          simp only [List.length_append]
          omega

/-- **Every value derived from BER is renewed** by encoding it. -/
theorem exists_renewed {schema : Schema} (hschema : schema.Everywhere Field.Ordered) (name : String)
    {override : Option Tag} {octets : Octets} {value : Value}
    (h : schema.Derives (.byTag .ber) .ber override octets value) :
    ∃ written, Rewritten octets written ∧ schema.Renewed name override written value := by
  induction hschema generalizing name override octets value with
  | primitive tag =>
      obtain ⟨type, content, htype, hframe, hdecode⟩ := derives_primitive.1 h
      obtain ⟨shorter, hcontent, hle, hread⟩ := PrimitiveType.exists_content?_of_decode hdecode
      obtain ⟨hrewritten, hsealed⟩ := hframe.rewritten hle
      refine ⟨_, hrewritten, write_primitive.2 ⟨type, shorter, htype, hcontent, rfl⟩, ?_, ?_⟩
      · rw [normal]
        exact value.same_refl
      · intro mode hadmitted
        rw [normal]
        exact derives_primitive.2 ⟨type, shorter, htype, Framing.framed_of_sealed mode hsealed,
          hread mode hadmitted⟩
  | any =>
      obtain ⟨found, hframe, htag, rfl⟩ := derives_any.1 h
      obtain ⟨hrewritten, hsealed⟩ := hframe.rewritten (Nat.le_refl _)
      have hfound := AnyValue.ofValue?_any htag
      have hnormal : any.normal override (.any found) = .any found := by rw [normal, hfound]
      refine ⟨_, hrewritten, write_any.2 ⟨found, hfound, rfl⟩, ?_, ?_⟩
      · rw [hnormal]
        exact Value.same_refl _
      · intro mode _
        rw [hnormal]
        exact derives_any.2 ⟨found, Framing.framed_of_sealed mode hsealed, htag, rfl⟩
  | @sequence typeName fields hordered _ ih =>
      obtain ⟨content, given, hframe, hfields, rfl⟩ := derives_sequence.1 h
      -- The encoder finds the fields in the sequence captured, which are those derived.
      have hgets (name : String) : (given.capture octets).get? name = given.get? name := rfl
      obtain ⟨shorter, added, hgiven, hle, -, hrenewed⟩ := exists_fieldsRenewed
        (fun field hfield type htype name _ _ _ => ih field hfield type htype name)
        hordered.distinct hordered.backward (fun _ _ => rfl) hfields hgets
      obtain ⟨hrewritten, hsealed⟩ := hframe.rewritten hle
      have hwrite (name : String) : (sequence typeName fields).write name override
          (.sequence (given.capture octets)) = .ok (frame ⟨override.getD .sequence, true⟩ shorter) :=
        write_sequence.2 ⟨_, shorter, rfl, hfields.knowsFields, hrenewed.write, rfl⟩
      obtain rfl : given.fields = added := hgiven
      refine ⟨_, hrewritten, hwrite name, ?_, ?_⟩
      · rw [normal]
        exact hrenewed.same
      · intro mode hadmitted
        rw [normal, hwrite]
        refine derives_sequence.2 ⟨shorter, ⟨normalFields fields (given.capture octets), none⟩,
          Framing.framed_of_sealed mode hsealed, ?_, rfl⟩
        refine hrenewed.derives mode (fun entry hentry hder bits hbits => ?_) .empty fun _ => rfl
        exact hadmitted hder bits (Value.mem_fieldsBitStrings.2 ⟨entry, hentry, hbits⟩)

/-! ## Bit strings -/

/-- What is derived in a mode is admitted by it. -/
theorem Derives.admitted {rule : OmissionRule} {mode : Mode} {schema : Schema} {override : Option Tag}
    {octets : Octets} {value : Value} (h : schema.Derives rule mode override octets value) :
    value.Admitted mode := by
  induction schema using Schema.induction generalizing override octets value with
  | primitive tag =>
      obtain ⟨type, content, -, -, hdecode⟩ := derives_primitive.1 h
      exact PrimitiveType.admitted_of_decode hdecode
  | any =>
      obtain ⟨found, -, -, rfl⟩ := derives_any.1 h
      intro _ bits hbits
      cases hbits
  | sequence name fields ih =>
      obtain ⟨content, given, -, hfields, rfl⟩ := derives_sequence.1 h
      intro hder bits hbits
      obtain ⟨entry, hentry, hbits⟩ := Value.mem_fieldsBitStrings.1 hbits
      obtain hknown | ⟨field, hfield, type, htype, part, -, hderives⟩ := hfields.mem_fields hentry
      · cases hknown
      · obtain ⟨inner, hinner, hbits⟩ := hderives.mem_bitStrings.1 hbits
        obtain ⟨_, hitem, -⟩ := hderives.exists_of_mem_parts (Framing.encloses_framed mode) hinner
        exact ih field hfield type htype hitem hder bits hbits

/-! ## Result -/

/-- **Encoding makes DER out of BER, but for bit strings.** A value decoded from BER is encoded in no more
    octets. DER decodes them to the same value exactly if the unused bits of all bit strings in it are clear,
    and else refuses the content of one. -/
theorem encode_of_decode_ber {schema : Schema} (hschema : schema.Everywhere Field.Ordered)
    {data : Octets} {value : Value} (h : schema.decode .ber data = .ok value) :
    ∃ octets, schema.encode value = .ok octets ∧ octets.length ≤ data.length ∧
      ((∃ decoded, schema.decode .der octets = .ok decoded ∧ (decoded == value) = true) ↔
        ∀ bits ∈ value.bitStrings, bits.HasClearUnused) ∧
      ((∃ bits ∈ value.bitStrings, ¬ bits.HasClearUnused) →
        ∃ error position, schema.decode .der octets = .error (.content error position)) := by
  obtain ⟨octets, hrewritten, hrenewed⟩ := exists_renewed hschema schema.name (decode_eq_ok_iff.1 h)
  have hbitStrings {decoded : Value} (hsame : decoded.same value = true)
      (hdecode : schema.decode .der octets = .ok decoded) :
      ∀ bits ∈ value.bitStrings, bits.HasClearUnused := by
    rw [← Value.bitStrings_of_same hsame]
    exact (decode_eq_ok_iff.1 hdecode).admitted rfl
  refine ⟨octets, encode_eq_ok_iff.2 hrenewed.write, hrewritten.length_le, ⟨?_, fun hclear => ?_⟩, ?_⟩
  · rintro ⟨decoded, hdecode, hsame⟩
    exact hbitStrings hsame hdecode
  · exact ⟨_, decode_eq_ok_iff.2 (hrenewed.derives .der fun _ => hclear), hrenewed.same⟩
  · rintro ⟨bits, hbits, hset⟩
    -- BER reads the octets, so that DER could only agree or refuse some content; it cannot agree.
    have hber := decode_eq_ok_iff.2 (hrenewed.derives .ber nofun)
    obtain heq | ⟨⟨_, position⟩, ⟨error, rfl⟩, hder⟩ := decode_restricts schema octets
    · exact absurd (hbitStrings hrenewed.same (heq.trans hber) bits hbits) hset
    · exact ⟨error, position, hder⟩

/-- A flag and some bits with needlessly long lengths. Encoding shortens the lengths and writes the flag as
    DER asks for, but leaves the unused bits as they are, and so DER refuses them. -/
theorem encode_of_decode_ber_unusedBits :
    ∃ (schema : Schema) (value : Value) (bits : BitString),
      schema.Everywhere Field.Ordered ∧
      schema.decode .ber [0x30, 0x81, 0x08, 0x01, 0x01, 0x7F, 0x03, 0x81, 0x02, 0x04, 0xFF] = .ok value ∧
      bits ∈ value.bitStrings ∧ ¬ bits.HasClearUnused ∧
      schema.encode value = .ok [0x30, 0x07, 0x01, 0x01, 0xFF, 0x03, 0x02, 0x04, 0xFF] ∧
      ∃ error position, schema.decode .der [0x30, 0x07, 0x01, 0x01, 0xFF, 0x03, 0x02, 0x04, 0xFF] =
        .error (.content error position) := by
  have hordered : (sequence "Flags" [.plain "valid" (.primitive .boolean),
      .plain "bits" (.primitive .bitString)]).Everywhere Field.Ordered := by
    refine .sequence (Field.dispatched_of_fixed (by decide) (by simp [Field.plain])).ordered ?_
    simp [Field.plain, FieldType.types, Everywhere.primitive]
  have hdecode : (sequence "Flags" [.plain "valid" (.primitive .boolean),
      .plain "bits" (.primitive .bitString)]).decode .ber
        [0x30, 0x81, 0x08, 0x01, 0x01, 0x7F, 0x03, 0x81, 0x02, 0x04, 0xFF] =
      .ok (.sequence ⟨[("valid", .boolean true), ("bits", .bitString ⟨4, [0xFF]⟩)],
        some ⟨[0x30, 0x81, 0x08, 0x01, 0x01, 0x7F, 0x03, 0x81, 0x02, 0x04, 0xFF]⟩⟩) := by
    cbv
  have hencode : (sequence "Flags" [.plain "valid" (.primitive .boolean),
      .plain "bits" (.primitive .bitString)]).encode
        (.sequence ⟨[("valid", .boolean true), ("bits", .bitString ⟨4, [0xFF]⟩)],
          some ⟨[0x30, 0x81, 0x08, 0x01, 0x01, 0x7F, 0x03, 0x81, 0x02, 0x04, 0xFF]⟩⟩) =
      .ok [0x30, 0x07, 0x01, 0x01, 0xFF, 0x03, 0x02, 0x04, 0xFF] := by
    decide +kernel
  have hset : ¬ (⟨4, [0xFF]⟩ : BitString).HasClearUnused := by decide
  obtain ⟨octets, hoctets, -, -, hrefused⟩ := encode_of_decode_ber hordered hdecode
  obtain rfl := Except.ok.inj (hencode.symm.trans hoctets)
  exact ⟨_, _, _, hordered, hdecode, List.mem_cons_self, hset, hencode,
    hrefused ⟨_, List.mem_cons_self, hset⟩⟩

end Schema

end Asn1
