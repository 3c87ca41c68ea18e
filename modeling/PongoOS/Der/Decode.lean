import Mathlib.Logic.Function.Basic
import PongoOS.Der.Encode

/-!
# Decoding DER

The functions of libDER that decode items and parse sequences.  What the encoder
wrote for items is decoded to the same items.
-/

namespace PongoOS

/-! ## Items -/

/-- The digits of a tag, up to the first one without a mark. -/
def derDecodeTagLoop : ℕ → List UInt8 → DerResult (ℕ × List UInt8)
  | _, [] => derError .decodeError
  | tagNumber, tagByte :: der =>
      if der = [] ∨ 2 ^ 57 ≤ tagNumber then derError .decodeError
      else
        let tagNumber := tagNumber * 128 + tagByte.toNat % 128
        if 0x80 ≤ tagByte then derDecodeTagLoop tagNumber der else pure (tagNumber, der)

/-- The number of a tag, in its first byte or behind it. -/
def derDecodeTagNumber (tag1 : UInt8) (der : List UInt8) :
    DerResult (ℕ × List UInt8) :=
  if tag1.toNat % 32 = 0x1F then
    if der.head?.any fun b => b = 0x80 ∨ b < 0x1F then derError .decodeError
    else do
      let (tagNumber, der) ← derDecodeTagLoop 0 der
      if 2 ^ 61 ≤ tagNumber then derError .decodeError else pure (tagNumber, der)
  else pure (tag1.toNat % 32, der)

/-- The length, and what is behind it. -/
def derDecodeLength : List UInt8 → DerResult (ℕ × List UInt8)
  | [] => derError .decodeError
  | len1 :: der =>
      if 0x80 ≤ len1 then
        let n := len1.toNat % 128
        if 4 < n ∨ der.length < n ∨ n = 0 ∨ der.head? = some 0 then derError .decodeError
        else
          let longLen := (shiftIn (der.take n)).toNat
          let der := der.drop n
          if der.length < longLen then derError .decodeError else pure (longLen, der)
      else if der.length < len1.toNat then derError .decodeError
      else pure (len1.toNat, der)

/-- `DERDecodedInfo`, with what is behind the content. -/
structure DerDecoded where
  tag : ℕ
  content : DerItem
  rest : List UInt8
deriving DecidableEq, Repr

/-- `DERDecodeItem`. -/
def derDecodeItem : DerItem → DerResult DerDecoded
  | tag1 :: b :: der => do
      let (tagNumber, der) ← derDecodeTagNumber tag1 (b :: der)
      let (length, der) ← derDecodeLength der
      pure ⟨tag1.toNat / 32 * 2 ^ 61 + tagNumber, der.take length, der.drop length⟩
  | _ => derError .decodeError

/-- `DERParseInteger64`. -/
def derParseInteger64 (contents : DerItem) : DerResult ℕ :=
  match contents with
  | [] => derError .decodeError
  | b :: bs =>
      if 0x80 ≤ b then derError .decodeError
      else if b = 0 ∧ bs.head?.any (fun c => c < 0x80) then derError .decodeError
      else if b = 0 ∧ 9 < contents.length then derError .bufOverflow
      else if b ≠ 0 ∧ 8 < contents.length then derError .bufOverflow
      else pure (contents.foldl (fun value c => (value * 256 + c.toNat) % 2 ^ 64) 0)

/-- `DERParseInteger`. -/
def derParseInteger (contents : DerItem) : DerResult ℕ := do
  let value ← derParseInteger64 contents
  if value / 2 ^ 32 ≠ 0 then derError .bufOverflow else pure value

/-! ## Sequences -/

/-- `DERDecodeSeqNext`; `seq` is what is left of the sequence. -/
def derDecodeSeqNext (seq : List UInt8) : DerResult DerDecoded :=
  if seq = [] then derError .endOfSequence else derDecodeItem seq

/-- `DER_DEC_ASN_ANY`. -/
def derDecAsnAny : UInt16 := 0x0002

/-- `DER_DEC_SKIP`. -/
def derDecSkip : UInt16 := 0x0004

/-- `DER_DEC_SAVE_DER`. -/
def derDecSaveDer : UInt16 := 0x0008

def asn1ConstrSequence : ℕ := 2 ^ 61 + 0x10

/-- The search for a matching tag: the specification, and those behind it. -/
def derMatchSpec (foundTag : ℕ) : List DerItemSpec →
    DerResult (DerItemSpec × List DerItemSpec)
  | [] => derError .unexpectedTag
  | spec :: specs =>
      if spec.has derDecAsnAny ∨ foundTag = spec.tag then pure (spec, specs)
      else if spec.has derDecOptional then derMatchSpec foundTag specs
      else derError .unexpectedTag

/-- What is stored for an item: its content, or all of its encoding. -/
def derStore (spec : DerItemSpec) (seq : List UInt8) (decoded : DerDecoded)
    (dest : ℕ → DerItem) : ℕ → DerItem :=
  if spec.has derDecSkip then dest
  else Function.update dest spec.offset
    (if spec.has derDecSaveDer then seq.take (seq.length - decoded.rest.length)
      else decoded.content)

/-- The main loop of `DERParseSequenceContent`. -/
def derParseLoop : ℕ → List DerItemSpec → List UInt8 → (ℕ → DerItem) →
    DerResult (ℕ → DerItem)
  | _, [], seq, dest => if seq = [] then pure dest else derError .decodeError
  | 0, _ :: _, _, _ => .error .outOfFuel
  | fuel + 1, specs@(_ :: _), seq, dest =>
      match derDecodeSeqNext seq with
      | .error (.code .endOfSequence) =>
          if specs.all fun spec => spec.has derDecOptional then pure dest
          else derError .incompleteSeq
      | .error e => .error e
      | .ok decoded => do
          let (spec, specs) ← derMatchSpec decoded.tag specs
          let dest := derStore spec seq decoded dest
          if specs = [] then
            if decoded.rest = [] then pure dest else derError .decodeError
          else derParseLoop fuel specs decoded.rest dest

/-- `DERParseSequenceContent`; every round takes a specification. -/
def derParseSequenceContent (content : DerItem) (specs : List DerItemSpec)
    (dest : ℕ → DerItem) : DerResult (ℕ → DerItem) :=
  derParseLoop specs.length specs content dest

/-- `DERParseSequence`. -/
def derParseSequence (der : DerItem) (specs : List DerItemSpec)
    (dest : ℕ → DerItem) : DerResult (ℕ → DerItem) := do
  let topDecode ← derDecodeItem der
  if topDecode.tag ≠ asn1ConstrSequence then derError .unexpectedTag
  else derParseSequenceContent topDecode.content specs dest

/-! ## Decoding what was encoded -/

section RoundTrip

variable {tag n k : ℕ} {bytes rest content : List UInt8}

/-- The induction is on the digits that were put in front. -/
theorem derDecodeTagLoop_digits (hn : n < 2 ^ 61) (hbytes : bytes ≠ []) :
    derDecodeTagLoop 0 (derTagLoop n bytes) = derDecodeTagLoop n bytes := by
  induction n using Nat.strong_induction_on generalizing bytes with
  | h n ih =>
      rw [derTagLoop]
      split
      · rename_i hzero
        rw [hzero]
      · have hdigit : (UInt8.ofNat (n % 128 + 0x80)).toNat = n % 128 + 0x80 :=
          UInt8.toNat_ofNat_of_lt' (show n % 128 + 0x80 < 256 by omega)
        have hmarked : (0x80 : UInt8) ≤ UInt8.ofNat (n % 128 + 0x80) := by
          rw [UInt8.le_iff_toNat_le, hdigit]
          exact Nat.le_add_left _ _
        rw [ih (n / 128) (by omega) (by omega) (List.cons_ne_nil _ _), derDecodeTagLoop,
          if_neg (by
            rintro (hnil | hlarge)
            · exact hbytes hnil
            · omega)]
        simp only [if_pos hmarked, hdigit]
        congr 1
        omega

theorem head_derTagLoop (bytes : List UInt8) (hn : n ≠ 0) :
    ∃ b bs, derTagLoop n bytes = b :: bs ∧ 0x80 < b := by
  induction n using Nat.strong_induction_on generalizing bytes with
  | h n ih =>
      rw [derTagLoop, if_neg hn]
      by_cases hlast : n / 128 = 0
      · rw [derTagLoop, if_pos hlast]
        refine ⟨_, _, rfl, ?_⟩
        rw [UInt8.lt_iff_toNat_lt,
          UInt8.toNat_ofNat_of_lt' (show n % 128 + 0x80 < 256 by omega)]
        change 128 < _
        omega
      · exact ih (n / 128) (by omega) _ hlast

theorem derTagLoop_append :
    derTagLoop n bytes ++ rest = derTagLoop n (bytes ++ rest) := by
  induction n using Nat.strong_induction_on generalizing bytes with
  | h n ih =>
      rw [derTagLoop, derTagLoop.eq_def n (bytes ++ rest)]
      split
      · rfl
      · rw [ih (n / 128) (by omega)]
        rfl

theorem derTagBytes_long (h : 0x1F ≤ tag % 2 ^ 61) :
    derTagBytes tag = UInt8.ofNat (tag / 2 ^ 61 * 32 + 0x1F) ::
      derTagLoop (tag % 2 ^ 61 / 128) [UInt8.ofNat (tag % 2 ^ 61 % 128)] := by
  rw [derTagBytes]
  exact if_neg (by rw [derLengthOfTag_eq_one_iff]; omega)

theorem derTagBytes_short (h : tag % 2 ^ 61 < 0x1F) :
    derTagBytes tag = [UInt8.ofNat (tag / 2 ^ 61 * 32 + tag % 2 ^ 61)] := by
  rw [derTagBytes]
  exact if_pos (derLengthOfTag_eq_one_iff.mpr h)

/-- The digits are minimal. -/
theorem head_tagDigits (rest : List UInt8) (hn : 0x1F ≤ n) :
    ∃ b bs, derTagLoop (n / 128) (UInt8.ofNat (n % 128) :: rest) = b :: bs ∧
      b ≠ 0x80 ∧ ¬ b < 0x1F := by
  by_cases hlast : n / 128 = 0
  · rw [derTagLoop, if_pos hlast]
    have hdigit : (UInt8.ofNat (n % 128)).toNat = n :=
      (UInt8.toNat_ofNat_of_lt' (show n % 128 < 256 by omega)).trans (by omega)
    refine ⟨_, _, rfl, ?_, ?_⟩
    · rw [Ne, ← UInt8.toNat_inj, hdigit]
      change n ≠ 128
      omega
    · rw [UInt8.lt_iff_toNat_lt, hdigit]
      exact not_lt.mpr hn
  · obtain ⟨b, bs, hbytes, hmarked⟩ := head_derTagLoop
      (UInt8.ofNat (n % 128) :: rest) hlast
    rw [UInt8.lt_iff_toNat_lt] at hmarked
    refine ⟨b, bs, hbytes, ?_, ?_⟩
    · rintro rfl
      exact lt_irrefl _ hmarked
    · rw [UInt8.lt_iff_toNat_lt, not_lt]
      exact le_trans (show (0x1F : UInt8).toNat ≤ (0x80 : UInt8).toNat by decide)
        (Nat.le_of_lt hmarked)

theorem derDecodeTagLoop_encoded (hn : n < 2 ^ 61) (hrest : rest ≠ []) :
    derDecodeTagLoop 0 (derTagLoop (n / 128) (UInt8.ofNat (n % 128) :: rest)) =
      .ok (n, rest) := by
  have hdigit : (UInt8.ofNat (n % 128)).toNat = n % 128 :=
    UInt8.toNat_ofNat_of_lt' (show n % 128 < 256 by omega)
  have hlast : ¬ (0x80 : UInt8) ≤ UInt8.ofNat (n % 128) := by
    rw [UInt8.le_iff_toNat_le, hdigit]
    change ¬ 128 ≤ n % 128
    omega
  rw [derDecodeTagLoop_digits (by omega) (List.cons_ne_nil _ _), derDecodeTagLoop,
    if_neg (by
      rintro (hnil | hlarge)
      · exact hrest hnil
      · omega)]
  simp only [if_neg hlast, hdigit]
  exact congrArg (fun k => Except.ok (k, rest)) (by omega)

/-- A tag is decoded from its first byte and the digits behind it. -/
theorem derDecodeTagNumber_encoded (htag : tag < 2 ^ 64) (hrest : rest ≠ []) :
    ∃ tag1 bs, derTagBytes tag ++ rest = tag1 :: bs ∧ bs ≠ [] ∧
      tag1.toNat / 32 = tag / 2 ^ 61 ∧
      derDecodeTagNumber tag1 bs = .ok (tag % 2 ^ 61, rest) := by
  by_cases hshort : tag % 2 ^ 61 < 0x1F
  · have htag1 : (UInt8.ofNat (tag / 2 ^ 61 * 32 + tag % 2 ^ 61)).toNat =
        tag / 2 ^ 61 * 32 + tag % 2 ^ 61 :=
      UInt8.toNat_ofNat_of_lt' (show _ < 256 by omega)
    rw [derTagBytes_short hshort]
    refine ⟨_, rest, rfl, hrest, by rw [htag1]; omega, ?_⟩
    rw [derDecodeTagNumber, htag1, if_neg (by omega)]
    exact congrArg (fun k => Except.ok (k, rest)) (by omega)
  · have htag1 : (UInt8.ofNat (tag / 2 ^ 61 * 32 + 0x1F)).toNat =
        tag / 2 ^ 61 * 32 + 0x1F :=
      UInt8.toNat_ofNat_of_lt' (show _ < 256 by omega)
    rw [derTagBytes_long (not_lt.mp hshort), List.cons_append, derTagLoop_append,
      List.singleton_append]
    obtain ⟨b, bs, hbytes, hmark, hlarge⟩ := head_tagDigits rest (not_lt.mp hshort)
    refine ⟨_, _, rfl, hbytes ▸ List.cons_ne_nil b bs, by rw [htag1]; omega, ?_⟩
    rw [derDecodeTagNumber, htag1, if_pos (by omega), if_neg (by
        rw [hbytes]
        simp [hmark, hlarge]),
      derDecodeTagLoop_encoded (by omega) hrest, except_ok_bind]
    exact if_neg (by omega)

/-! ### Lengths -/

theorem bigEndian_derLengthLoop : bigEndian (derLengthLoop n) = n := by
  induction n using Nat.strong_induction_on with
  | h n ih =>
      rw [derLengthLoop]
      split
      · rename_i hzero
        rw [hzero]
        rfl
      · rw [bigEndian_concat, ih (n / 256) (by omega), UInt8.toNat_ofNat']
        omega

theorem head_derLengthLoop (hn : n ≠ 0) : (derLengthLoop n).head? ≠ some 0 := by
  induction n using Nat.strong_induction_on with
  | h n ih =>
      rw [derLengthLoop, if_neg hn]
      by_cases hlast : n / 256 = 0
      · rw [derLengthLoop, if_pos hlast, List.nil_append, List.head?_cons, Ne,
          Option.some_inj, ← UInt8.toNat_inj, UInt8.toNat_ofNat']
        change ¬ n % 256 = 0
        omega
      · have hne : derLengthLoop (n / 256) ≠ [] := by
          rw [← List.length_pos_iff, length_derLengthLoop]
          exact derByteCount_pos hlast
        rw [List.head?_append_of_ne_nil _ hne]
        exact ih (n / 256) (by omega) hlast

theorem derDecodeLength_encoded (hn : n < 2 ^ 32) (hrest : n ≤ rest.length) :
    derDecodeLength (derLengthBytes n ++ rest) = .ok (n, rest) := by
  rw [derLengthBytes]
  split
  · rename_i hshort
    have hbyte : (UInt8.ofNat n).toNat = n :=
      UInt8.toNat_ofNat_of_lt' (show n < 256 by omega)
    have hform : ¬ (0x80 : UInt8) ≤ UInt8.ofNat n := by
      rw [UInt8.le_iff_toNat_le, hbyte]
      exact not_le.mpr hshort
    rw [List.singleton_append, derDecodeLength, if_neg hform, hbyte,
      if_neg (not_lt.mpr hrest)]
    rfl
  · rename_i hlong
    have hcount : derByteCount n ≤ 4 := derByteCount_le (by omega)
    have hpos : 0 < derByteCount n := derByteCount_pos (by omega)
    have hlength := length_derLengthLoop (n := n)
    have hfirst : derLengthOfLength n - 1 = derByteCount n := by
      rw [derLengthOfLength, if_neg hlong, Nat.add_sub_cancel_left]
    have hbyte : (UInt8.ofNat (derByteCount n + 0x80)).toNat = derByteCount n + 0x80 :=
      UInt8.toNat_ofNat_of_lt' (show derByteCount n + 0x80 < 256 by omega)
    have hform : (0x80 : UInt8) ≤ UInt8.ofNat (derByteCount n + 0x80) := by
      rw [UInt8.le_iff_toNat_le, hbyte]
      exact Nat.le_add_left _ _
    have hcut : (derByteCount n + 0x80) % 128 = (derLengthLoop n).length := by
      rw [hlength]
      omega
    have hhead : (derLengthLoop n ++ rest).head? ≠ some 0 := by
      rw [List.head?_append_of_ne_nil _ (by
        rw [← List.length_pos_iff, hlength]
        exact hpos)]
      exact head_derLengthLoop (by omega)
    have hvalue : (shiftIn (derLengthLoop n)).toNat = n := by
      rw [shiftIn_toNat, bigEndian_derLengthLoop]
      exact Nat.mod_eq_of_lt hn
    rw [hfirst, List.cons_append, derDecodeLength, if_pos hform, hbyte]
    simp only [hcut, List.take_left, List.drop_left, hvalue]
    rw [if_neg (by
        rw [List.length_append, hlength]
        rintro (h | h | h | h)
        · omega
        · omega
        · omega
        · exact hhead h), if_neg (not_lt.mpr hrest)]
    rfl

/-! ### Items -/

theorem derDecodeItem_encoded (htag : tag < 2 ^ 64) (hlength : content.length < 2 ^ 32) :
    derDecodeItem (derTlv tag content ++ rest) = .ok ⟨tag, content, rest⟩ := by
  have hne : derLengthBytes content.length ++ (content ++ rest) ≠ [] := by
    have hpos := derLengthOfLength_pos (n := content.length)
    rw [← List.length_pos_iff, List.length_append, length_derLengthBytes]
    omega
  obtain ⟨tag1, bs, hbytes, hbs, hclass, hnumber⟩ := derDecodeTagNumber_encoded htag hne
  obtain ⟨b, bs, rfl⟩ := List.exists_cons_of_ne_nil hbs
  rw [derTlv, List.append_assoc, List.append_assoc, hbytes, derDecodeItem, hnumber,
    except_ok_bind]
  simp only
  rw [derDecodeLength_encoded hlength (by rw [List.length_append]; omega), except_ok_bind,
    hclass]
  simp only [List.take_left, List.drop_left]
  exact congrArg (fun t => Except.ok (DerDecoded.mk t content rest)) (by omega)

theorem derTlv_ne_nil : derTlv tag content ≠ [] := by
  have hpos := derLengthOfLength_pos (n := content.length)
  rw [← List.length_pos_iff, length_derTlv]
  omega

theorem derDecodeSeqNext_encoded (htag : tag < 2 ^ 64)
    (hlength : content.length < 2 ^ 32) :
    derDecodeSeqNext (derTlv tag content ++ rest) = .ok ⟨tag, content, rest⟩ := by
  rw [derDecodeSeqNext, if_neg (List.append_ne_nil_of_left_ne_nil derTlv_ne_nil rest),
    derDecodeItem_encoded htag hlength]

/-! ### Sequences -/

section Sequences

variable {src : List DerItem} {specs : List DerItemSpec} {spec : DerItemSpec}
  {dest : ℕ → DerItem}

/-- Every item is stored where its specification says. -/
def derStored (src : List DerItem) (specs : List DerItemSpec) (dest : ℕ → DerItem) :
    ℕ → DerItem :=
  specs.foldl (fun dest spec =>
    Function.update dest spec.offset (src.getD spec.offset [])) dest

/-- The specifications have no options, and the items can be encoded. -/
def DerPlain (src : List DerItem) (specs : List DerItemSpec) : Prop :=
  ∀ spec ∈ specs, spec.options = 0 ∧ spec.tag < 2 ^ 64 ∧
    (src.getD spec.offset []).length < 2 ^ 32

theorem derMatchSpec_self : derMatchSpec spec.tag (spec :: specs) = .ok (spec, specs) :=
  if_pos (.inr rfl)

theorem derStore_of_zero {seq : List UInt8} {decoded : DerDecoded}
    (h : spec.options = 0) :
    derStore spec seq decoded dest =
      Function.update dest spec.offset decoded.content := by
  simp [derStore, spec.has_of_zero h]

/-- The induction is on the specifications that are left. -/
theorem derParseLoop_encoded (hne : specs ≠ []) (h : DerPlain src specs) :
    derParseLoop specs.length specs (derElements src specs) dest =
      .ok (derStored src specs dest) := by
  induction specs generalizing dest with
  | nil => exact absurd rfl hne
  | cons spec specs ih =>
      obtain ⟨hzero, htag, hlength⟩ := h spec List.mem_cons_self
      rw [List.length_cons, derParseLoop, derElements_cons,
        derDecodeSeqNext_encoded htag hlength]
      simp only [derMatchSpec_self, except_ok_bind, derStore_of_zero hzero]
      by_cases hlast : specs = []
      · rw [if_pos hlast, hlast]
        rfl
      · rw [if_neg hlast,
          ih hlast (fun spec hspec => h spec (List.mem_cons_of_mem _ hspec))]
        rfl

theorem derParseSequence_encoded (hne : specs ≠ []) (h : DerPlain src specs)
    (hlength : (derElements src specs).length < 2 ^ 32) :
    derParseSequence (derTlv asn1ConstrSequence (derElements src specs)) specs dest =
      .ok (derStored src specs dest) := by
  have hdecode : derDecodeItem (derTlv asn1ConstrSequence (derElements src specs) ++ []) =
      _ := derDecodeItem_encoded (show asn1ConstrSequence < 2 ^ 64 by decide) hlength
  rw [List.append_nil] at hdecode
  rw [derParseSequence, hdecode, except_ok_bind]
  simp only [ne_eq, not_true_eq_false, if_false]
  exact derParseLoop_encoded hne h

end Sequences

end RoundTrip

end PongoOS
