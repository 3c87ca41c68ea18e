import PongoOS.Der.Grammar

/-!
# Reading back a sequence

`DEREncodeSequence` with the options of its specifications: encodings that are copied,
items that are left out, and the zero in front of a signed integer.  The parser gives
back the items that were written.
-/

namespace PongoOS

variable {src : List DerItem} {spec : DerItemSpec} {specs : List DerItemSpec}
variable {size tag inOutLen bytesLeft : ℕ} {out content rest : List UInt8}
variable {dest : ℕ → DerItem}

/-! ## Writing -/

/-- The content of an item. -/
def derContent (src : List DerItem) (spec : DerItemSpec) : DerItem :=
  let item := src.getD spec.offset []
  if derPrependsZero spec item then 0 :: item else item

/-- What is written for an item. -/
def derWritten (src : List DerItem) (spec : DerItemSpec) : List UInt8 :=
  let item := src.getD spec.offset []
  if spec.has derEncWriteDer then item
  else if spec.has derDecOptional ∧ item.length = 0 then []
  else derTlv spec.tag (derContent src spec)

def derWrittenAll (src : List DerItem) (specs : List DerItemSpec) : List UInt8 :=
  specs.flatMap (derWritten src)

theorem length_derContent : (derContent src spec).length =
    (src.getD spec.offset []).length +
      if derPrependsZero spec (src.getD spec.offset []) then 1 else 0 := by
  unfold derContent
  dsimp only
  split <;> rfl

theorem length_derWritten : (derWritten src spec).length = derItemLength src spec := by
  unfold derWritten derItemLength
  dsimp only
  split_ifs with hraw hnone
  · rfl
  · rfl
  · rw [length_derTlv, length_derContent, if_pos ‹_›]
  · rw [length_derTlv, length_derContent, if_neg ‹_›]

theorem derContentLength_written :
    derContentLength src specs = (derWrittenAll src specs).length % 2 ^ 32 := by
  rw [derContentLength, derWrittenAll, List.length_flatMap]
  exact congrArg (fun l : List ℕ => l.sum % 2 ^ 32)
    (List.map_congr_left fun _ _ => length_derWritten.symm)

/-- An item that is neither copied nor left out is encoded like one without options. -/
theorem derEncodeElement_plain (hraw : spec.has derEncWriteDer = false)
    (hsome : ¬ (spec.has derDecOptional = true ∧ (src.getD spec.offset []).length = 0)) :
    derEncodeElement size src spec out bytesLeft =
      derEncodeElement size [derContent src spec] ⟨0, spec.tag, 0⟩ out bytesLeft := by
  have hzero (option : UInt16) : (⟨0, spec.tag, 0⟩ : DerItemSpec).has option = false :=
    DerItemSpec.has_of_zero rfl option
  have hprepend (item : DerItem) : derPrependsZero ⟨0, spec.tag, 0⟩ item = false := by
    rw [derPrependsZero, hzero, Bool.false_and]
  simp only [derEncodeElement, hraw, hzero, hprepend, hsome, Bool.false_eq_true, if_false,
    false_and, List.getD_cons_zero]
  rfl

theorem derEncodeElement_written (hsize : size < 2 ^ 32)
    (hleft : bytesLeft + out.length = size)
    (hroom : (derWritten src spec).length ≤ bytesLeft) :
    derEncodeElement size src spec out bytesLeft =
      .ok (out ++ derWritten src spec, bytesLeft - (derWritten src spec).length) := by
  unfold derWritten at hroom ⊢
  dsimp only at hroom ⊢
  by_cases hraw : spec.has derEncWriteDer = true
  · rw [if_pos hraw] at hroom ⊢
    rw [derEncodeElement]
    simp only [hraw, if_true]
    rw [derPut_ok (by omega), except_ok_bind, sub32_of_le (by omega) (by omega)]
    rfl
  rw [if_neg hraw] at hroom ⊢
  by_cases hnone : spec.has derDecOptional = true ∧ (src.getD spec.offset []).length = 0
  · rw [if_pos hnone, List.append_nil, List.length_nil, Nat.sub_zero, derEncodeElement]
    simp only [hraw, Bool.false_eq_true, if_false]
    exact if_pos hnone
  · rw [if_neg hnone] at hroom ⊢
    rw [derEncodeElement_plain (Bool.not_eq_true _ ▸ hraw) hnone]
    exact derEncodeElement_ok rfl hsize hleft hroom

/-- The induction is on the items that are left. -/
theorem derEncodeElements_written (hsize : size < 2 ^ 32)
    (hleft : bytesLeft + out.length = size)
    (hroom : (derWrittenAll src specs).length ≤ bytesLeft) :
    derEncodeElements size src specs out bytesLeft =
      .ok (out ++ derWrittenAll src specs) := by
  induction specs generalizing out bytesLeft with
  | nil => exact congrArg Except.ok (List.append_nil out).symm
  | cons spec specs ih =>
      have hcons : derWrittenAll src (spec :: specs) =
          derWritten src spec ++ derWrittenAll src specs := List.flatMap_cons
      rw [hcons, List.length_append] at hroom
      rw [derEncodeElements, derEncodeElement_written hsize hleft (by omega),
        except_ok_bind]
      dsimp only
      rw [ih (by rw [List.length_append]; omega) (by omega), hcons, List.append_assoc]

theorem derEncodeSequence_written (hsize : inOutLen < 2 ^ 32)
    (hroom : (derTlv tag (derWrittenAll src specs)).length ≤ inOutLen) :
    derEncodeSequence tag src specs inOutLen =
      .ok (derTlv tag (derWrittenAll src specs)) := by
  have hlength := length_derTlv tag (derWrittenAll src specs)
  have hpos := derLengthOfLength_pos (n := (derWrittenAll src specs).length)
  have hcontent : derContentLength src specs = (derWrittenAll src specs).length := by
    rw [derContentLength_written]
    exact Nat.mod_eq_of_lt (by omega)
  have hafterTag : sub32 inOutLen (derTagBytes tag).length =
      inOutLen - derLengthOfTag tag := by
    rw [length_derTagBytes, sub32_of_le (by omega) hsize]
  have hafterLength : sub32 (inOutLen - derLengthOfTag tag)
      (derLengthBytes (derWrittenAll src specs).length).length =
        inOutLen - derLengthOfTag tag -
          derLengthOfLength (derWrittenAll src specs).length := by
    rw [length_derLengthBytes, sub32_of_le (by omega) (by omega)]
  have hheader : (derTagBytes tag ++
      derLengthBytes (derWrittenAll src specs).length).length =
        derLengthOfTag tag + derLengthOfLength (derWrittenAll src specs).length := by
    rw [List.length_append, length_derTagBytes, length_derLengthBytes]
  rw [derEncodeSequence, derEncodeTag_ok (by omega), except_ok_bind,
    derPut_ok (by rw [List.length_nil, length_derTagBytes]; omega), except_ok_bind,
    List.nil_append]
  simp only [hafterTag, hcontent]
  rw [if_neg (by rw [length_derTagBytes]; omega), derEncodeLength_ok (by omega),
    except_ok_bind, derPut_ok (by rw [length_derTagBytes, length_derLengthBytes]; omega),
    except_ok_bind]
  simp only [hafterLength]
  rw [if_neg (by omega), derEncodeElements_written hsize (by omega) (by omega),
    except_ok_bind, ← derTlv, Nat.mod_eq_of_lt (by omega)]
  exact congrArg Except.ok List.take_length

/-! ## Reading -/

/-- An item that is left out. -/
def DerItemSpec.Absent (spec : DerItemSpec) (src : List DerItem) : Prop :=
  spec.has derEncWriteDer = false ∧ spec.Optional ∧ src.getD spec.offset [] = []

instance : Decidable (spec.Absent src) := inferInstanceAs (Decidable (_ ∧ _))

/-- What is stored for an item that was written. -/
def derReadBack (src : List DerItem) (spec : DerItemSpec) : DerItem :=
  if spec.has derEncWriteDer then src.getD spec.offset [] else derContent src spec

/-- Every item that was not left out goes where its specification says. -/
def derRead (src : List DerItem) (specs : List DerItemSpec) (dest : ℕ → DerItem) :
    ℕ → DerItem :=
  specs.foldl (fun dest spec =>
    if spec.Absent src then dest
    else Function.update dest spec.offset (derReadBack src spec)) dest

/-- The item can be encoded, and what is copied for it is an encoding. -/
structure DerKept (src : List DerItem) (spec : DerItemSpec) : Prop where
  tag_lt : spec.tag < 2 ^ 64
  length_lt : (derContent src spec).length < 2 ^ 32
  stored : spec.has derDecSkip = false
  options : spec.has derDecSaveDer = spec.has derEncWriteDer
  copied : spec.has derEncWriteDer = true →
    ∃ content, DerEncodes (src.getD spec.offset []) spec.tag content

theorem DerKept.element (h : DerKept src spec) (hpresent : ¬ spec.Absent src)
    (dest : ℕ → DerItem) :
    ∃ e : DerElement, spec.Takes e.tag ∧ e.raw = derWritten src spec ∧
      spec.put e dest = Function.update dest spec.offset (derReadBack src spec) := by
  have hput (e : DerElement) : spec.put e dest = Function.update dest spec.offset
      (if spec.has derEncWriteDer = true then e.raw else e.content) := by
    rw [DerItemSpec.put, h.stored, h.options]
    rfl
  unfold derWritten derReadBack
  dsimp only
  by_cases hraw : spec.has derEncWriteDer = true
  · obtain ⟨content, hencodes⟩ := h.copied hraw
    refine ⟨⟨spec.tag, content, _, hencodes⟩, .inr rfl, ?_, ?_⟩
    · rw [if_pos hraw]
    · rw [hput, if_pos hraw, if_pos hraw]
  · have hsome : ¬ (spec.has derDecOptional = true ∧
        (src.getD spec.offset []).length = 0) := by
      rintro ⟨hoptional, hnone⟩
      exact hpresent ⟨Bool.not_eq_true _ ▸ hraw, hoptional, List.length_eq_zero_iff.mp hnone⟩
    refine ⟨⟨spec.tag, derContent src spec, _, derEncodes_tlv h.tag_lt h.length_lt⟩,
      .inr rfl, ?_, ?_⟩
    · rw [if_neg hraw, if_neg hsome]
    · rw [hput, if_neg hraw, if_neg hraw]

theorem derWritten_absent (h : spec.Absent src) : derWritten src spec = [] := by
  obtain ⟨hraw, hoptional, hnone⟩ := h
  unfold derWritten
  dsimp only
  rw [hraw, hnone, if_neg Bool.false_ne_true]
  exact if_pos ⟨hoptional, rfl⟩

/-- The induction is on the specifications. -/
theorem derFits_written (h : ∀ spec ∈ specs, DerKept src spec) (dest : ℕ → DerItem) :
    ∃ es, DerFits specs es dest (derRead src specs dest) ∧
      derBytes es = derWrittenAll src specs := by
  induction specs generalizing dest with
  | nil => exact ⟨[], .nil dest, rfl⟩
  | cons spec specs ih =>
      rw [List.forall_mem_cons] at h
      have hread : derRead src (spec :: specs) dest = derRead src specs
          (if spec.Absent src then dest
            else Function.update dest spec.offset (derReadBack src spec)) := rfl
      have hwritten : derWrittenAll src (spec :: specs) =
          derWritten src spec ++ derWrittenAll src specs := List.flatMap_cons
      rw [hread, hwritten]
      by_cases habsent : spec.Absent src
      · obtain ⟨es, hfits, hbytes⟩ := ih h.2 dest
        rw [if_pos habsent, derWritten_absent habsent]
        exact ⟨es, .skip habsent.2.1 hfits, hbytes⟩
      · obtain ⟨e, htakes, hraw, hput⟩ := h.1.element habsent dest
        rw [if_neg habsent, ← hput]
        obtain ⟨es, hfits, hbytes⟩ := ih h.2 (spec.put e dest)
        refine ⟨e :: es, .item htakes hfits, ?_⟩
        rw [derBytes, List.flatMap_cons, hraw, ← hbytes]
        rfl

theorem derRead_of_notMem (n : ℕ) (h : ∀ spec ∈ specs, spec.offset ≠ n)
    (dest : ℕ → DerItem) : derRead src specs dest n = dest n := by
  induction specs generalizing dest with
  | nil => rfl
  | cons spec specs ih =>
      rw [List.forall_mem_cons] at h
      have hstep := ih h.2 (if spec.Absent src then dest
        else Function.update dest spec.offset (derReadBack src spec))
      refine hstep.trans ?_
      split
      · rfl
      · exact Function.update_of_ne (Ne.symm h.1) _ _

/-- Items with different offsets do not overwrite each other. -/
theorem derRead_of_mem (hoffsets : (specs.map DerItemSpec.offset).Nodup)
    (hspec : spec ∈ specs) :
    derRead src specs dest spec.offset =
      if spec.Absent src then dest spec.offset else derReadBack src spec := by
  induction specs generalizing dest with
  | nil => cases hspec
  | cons first specs ih =>
      rw [List.map_cons, List.nodup_cons, List.mem_map] at hoffsets
      obtain ⟨hfirst, hothers⟩ := hoffsets
      have hcons : derRead src (first :: specs) dest = derRead src specs
          (if first.Absent src then dest
            else Function.update dest first.offset (derReadBack src first)) := rfl
      rw [hcons]
      rcases List.mem_cons.mp hspec with rfl | hmem
      · rw [derRead_of_notMem _ fun other hother heq => hfirst ⟨other, hother, heq⟩]
        split
        · rfl
        · rw [Function.update_self]
      · have hne : spec.offset ≠ first.offset := fun heq => hfirst ⟨spec, hmem, heq⟩
        rw [ih hothers hmem]
        split
        · split
          · rfl
          · rw [Function.update_of_ne hne]
        · rfl

theorem derParseSequence_written (h : ∀ spec ∈ specs, DerKept src spec)
    (hlength : (derWrittenAll src specs).length < 2 ^ 32) :
    DerSequence specs (derTlv asn1ConstrSequence (derWrittenAll src specs) ++ rest) dest
      (derRead src specs dest) := by
  obtain ⟨es, hfits, hbytes⟩ := derFits_written h dest
  refine ⟨es, _, rest, ?_, rfl, hfits⟩
  rw [hbytes]
  exact derEncodes_tlv (by decide) hlength

/-- What `DEREncodeSequence` writes is read back, whatever is behind it: every item
that was not left out goes to its offset. -/
theorem derEncodeSequence_parse (hspecs : DerUnambiguous specs)
    (hoffsets : (specs.map DerItemSpec.offset).Nodup)
    (h : ∀ spec ∈ specs, DerKept src spec) (hsize : inOutLen < 2 ^ 32)
    (hroom : (derTlv asn1ConstrSequence (derWrittenAll src specs)).length ≤ inOutLen)
    (rest : List UInt8) (dest : ℕ → DerItem) :
    ∃ der dest', derEncodeSequence asn1ConstrSequence src specs inOutLen = .ok der ∧
      derParseSequence (der ++ rest) specs dest = .ok dest' ∧
      ∀ spec ∈ specs, dest' spec.offset =
        if spec.Absent src then dest spec.offset else derReadBack src spec := by
  have hlength := length_derTlv asn1ConstrSequence (derWrittenAll src specs)
  exact ⟨_, _, derEncodeSequence_written hsize hroom,
    (derParseSequence_written h (by omega)).parse hspecs,
    fun _ hspec => derRead_of_mem hoffsets hspec⟩

/-- A number that is there, and bytes that are not. -/
theorem derEncodeSequence_parse_optional :
    ∃ der dest', derEncodeSequence asn1ConstrSequence [[0x05], []]
        [⟨0, 0x02, 0⟩, ⟨1, 0x04, derDecOptional⟩] 16 = .ok der ∧
      derParseSequence (der ++ [0xFF]) [⟨0, 0x02, 0⟩, ⟨1, 0x04, derDecOptional⟩]
        (fun _ => []) = .ok dest' ∧
      ∀ spec ∈ [⟨0, 0x02, 0⟩, ⟨1, 0x04, derDecOptional⟩], dest' spec.offset =
        if spec.Absent [[0x05], []] then [] else derReadBack [[0x05], []] spec := by
  have hkept : ∀ spec ∈ ([⟨0, 0x02, 0⟩, ⟨1, 0x04, derDecOptional⟩] : List DerItemSpec),
      DerKept [[0x05], []] spec := by
    simp only [List.forall_mem_cons, List.not_mem_nil, false_imp_iff, implies_true,
      and_true]
    exact ⟨⟨by decide, by decide, by decide, by decide, fun h => absurd h (by decide)⟩,
      ⟨by decide, by decide, by decide, by decide, fun h => absurd h (by decide)⟩⟩
  exact derEncodeSequence_parse (by decide) (by decide) hkept (by decide)
    (by decide +kernel) [0xFF] _

end PongoOS
