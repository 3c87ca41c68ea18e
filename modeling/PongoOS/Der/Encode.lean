import PongoOS.Support.ByteMemory

/-!
# Encoding DER

The functions of libDER that encode items and sequences.  They write to a buffer
and are told how large it is; tags have 64 bits and lengths 32.
-/

namespace PongoOS

/-- `DERReturn`, without success. -/
inductive DerReturn where
  | endOfSequence
  | unexpectedTag
  | decodeError
  | unimplemented
  | incompleteSeq
  | paramErr
  | bufOverflow
deriving DecidableEq, Repr

/-- Why a call gave nothing: it returned an error, or it wrote behind its buffer. -/
inductive DerStop where
  | code (r : DerReturn)
  | outOfBounds
  | outOfFuel
deriving DecidableEq, Repr

abbrev DerResult (α : Type) := Except DerStop α

def derError {α : Type} (r : DerReturn) : DerResult α := .error (.code r)

/-- The bytes of a `DERItem`. -/
abbrev DerItem := List UInt8

/-! ## Tags -/

/-- The length of the long form without its first byte. -/
def derTagDigits (n : ℕ) : ℕ := if n = 0 then 0 else derTagDigits (n / 128) + 1

def derLengthOfTag (tag : ℕ) : ℕ :=
  let n := tag % 2 ^ 61
  if 0x1F ≤ n then 1 + derTagDigits n else 1

/-- The digits of `n`, with a mark on each, in front of `bytes`. -/
def derTagLoop (n : ℕ) (bytes : List UInt8) : List UInt8 :=
  if n = 0 then bytes
  else derTagLoop (n / 128) (UInt8.ofNat (n % 128 + 0x80) :: bytes)

/-- The class and the method are the highest three bits of the first byte. -/
def derTagBytes (tag : ℕ) : List UInt8 :=
  let n := tag % 2 ^ 61
  let tag1 := tag / 2 ^ 61 * 32
  if derLengthOfTag tag = 1 then [UInt8.ofNat (tag1 + n)]
  else UInt8.ofNat (tag1 + 0x1F) :: derTagLoop (n / 128) [UInt8.ofNat (n % 128)]

/-- `DEREncodeTag`; `inOutLen` is the room that is left. -/
def derEncodeTag (tag inOutLen : ℕ) : DerResult (List UInt8) :=
  if inOutLen < derLengthOfTag tag then derError .bufOverflow else pure (derTagBytes tag)

/-! ## Lengths -/

def derByteCount (n : ℕ) : ℕ := if n = 0 then 0 else derByteCount (n / 256) + 1

def derLengthOfLength (n : ℕ) : ℕ := if n < 0x80 then 1 else 1 + derByteCount n

/-- The bytes of the long form. -/
def derLengthLoop (n : ℕ) : List UInt8 :=
  if n = 0 then [] else derLengthLoop (n / 256) ++ [UInt8.ofNat n]

def derLengthBytes (n : ℕ) : List UInt8 :=
  if n < 0x80 then [UInt8.ofNat n]
  else UInt8.ofNat (derLengthOfLength n - 1 + 0x80) :: derLengthLoop n

/-- `DEREncodeLength`. -/
def derEncodeLength (n inOutLen : ℕ) : DerResult (List UInt8) :=
  if inOutLen < derLengthOfLength n then derError .bufOverflow
  else pure (derLengthBytes n)

/-! ## Items -/

/-- Bytes are written behind `out`, in a buffer of `size` bytes. -/
def derPut (size : ℕ) (out bytes : List UInt8) : DerResult (List UInt8) :=
  if out.length + bytes.length ≤ size then pure (out ++ bytes) else .error .outOfBounds

def derLengthOfItem (tag n : ℕ) : ℕ :=
  (derLengthOfTag tag + derLengthOfLength n + n) % 2 ^ 32

/-- `DEREncodeItem`, for a buffer of `inOutLen` bytes. -/
def derEncodeItem (tag : ℕ) (src : DerItem) (inOutLen : ℕ) : DerResult DerItem :=
  let total := derLengthOfItem tag src.length
  if inOutLen < total then derError .bufOverflow
  else do
    let bytes ← derEncodeTag tag total
    let out ← derPut inOutLen [] bytes
    let bytesLeft := sub32 total bytes.length
    let bytes ← derEncodeLength src.length bytesLeft
    let out ← derPut inOutLen out bytes
    let out ← derPut inOutLen out src
    pure (out.take total)

/-! ## Sequences -/

/-- `DERItemSpec`; `offset` counts elements. -/
structure DerItemSpec where
  offset : ℕ
  tag : ℕ
  options : UInt16
deriving DecidableEq, Repr

/-- `DER_DEC_OPTIONAL`. -/
def derDecOptional : UInt16 := 0x0001

/-- `DER_ENC_SIGNED_INT`. -/
def derEncSignedInt : UInt16 := 0x0100

/-- `DER_ENC_WRITE_DER`. -/
def derEncWriteDer : UInt16 := 0x0200

def DerItemSpec.has (spec : DerItemSpec) (option : UInt16) : Bool :=
  spec.options &&& option != 0

/-- A zero is put in front of a signed integer. -/
def derPrependsZero (spec : DerItemSpec) (item : DerItem) : Bool :=
  spec.has derEncSignedInt && item.head?.any fun b => 0x80 ≤ b

/-- What one item adds to `contentLen`. -/
def derItemLength (src : List DerItem) (spec : DerItemSpec) : ℕ :=
  let item := src.getD spec.offset []
  if spec.has derEncWriteDer then item.length
  else if spec.has derDecOptional ∧ item.length = 0 then 0
  else
    let n := item.length + if derPrependsZero spec item then 1 else 0
    derLengthOfTag spec.tag + derLengthOfLength n + n

/-- `DERContentLengthOfEncodedSequence`. -/
def derContentLength (src : List DerItem) (specs : List DerItemSpec) : ℕ :=
  (specs.map (derItemLength src)).sum % 2 ^ 32

/-- One item of a sequence, with what is left of the buffer. -/
def derEncodeElement (size : ℕ) (src : List DerItem) (spec : DerItemSpec)
    (out : List UInt8) (bytesLeft : ℕ) : DerResult (List UInt8 × ℕ) :=
  let item := src.getD spec.offset []
  if spec.has derEncWriteDer then do
    let out ← derPut size out item
    pure (out, sub32 bytesLeft item.length)
  else if spec.has derDecOptional ∧ item.length = 0 then pure (out, bytesLeft)
  else do
    let bytes ← derEncodeTag spec.tag bytesLeft
    let out ← derPut size out bytes
    let bytesLeft := sub32 bytesLeft bytes.length
    let content := if derPrependsZero spec item then 0 :: item else item
    let bytes ← derEncodeLength content.length bytesLeft
    let out ← derPut size out bytes
    let bytesLeft := sub32 bytesLeft bytes.length
    let out ← derPut size out content
    pure (out, sub32 bytesLeft content.length)

/-- The loop over the items. -/
def derEncodeElements (size : ℕ) (src : List DerItem) :
    List DerItemSpec → List UInt8 → ℕ → DerResult (List UInt8)
  | [], out, _ => pure out
  | spec :: specs, out, bytesLeft => do
      let (out, bytesLeft) ← derEncodeElement size src spec out bytesLeft
      derEncodeElements size src specs out bytesLeft

/-- `DEREncodeSequence`, for a buffer of `inOutLen` bytes. -/
def derEncodeSequence (topTag : ℕ) (src : List DerItem) (specs : List DerItemSpec)
    (inOutLen : ℕ) : DerResult DerItem := do
  let bytes ← derEncodeTag topTag inOutLen
  let out ← derPut inOutLen [] bytes
  let bytesLeft := sub32 inOutLen bytes.length
  if inOutLen ≤ out.length then derError .bufOverflow
  else
    let contentLen := derContentLength src specs
    let bytes ← derEncodeLength contentLen bytesLeft
    let out ← derPut inOutLen out bytes
    let bytesLeft := sub32 bytesLeft bytes.length
    if inOutLen < out.length + contentLen then derError .bufOverflow
    else
      let out ← derEncodeElements inOutLen src specs out bytesLeft
      pure (out.take (out.length % 2 ^ 32))

/-! ## What is encoded -/

/-- An item as it should be encoded: tag, length and content. -/
def derTlv (tag : ℕ) (content : DerItem) : List UInt8 :=
  derTagBytes tag ++ derLengthBytes content.length ++ content

section Lengths

variable {tag n k : ℕ} {bytes content : List UInt8}

theorem length_derTagLoop :
    (derTagLoop n bytes).length = derTagDigits n + bytes.length := by
  induction n using Nat.strong_induction_on generalizing bytes with
  | h n ih =>
      rw [derTagLoop, derTagDigits]
      split
      · rw [Nat.zero_add]
      · rw [ih (n / 128) (by omega), List.length_cons]
        omega

theorem derTagDigits_pos (hn : n ≠ 0) : derTagDigits n = derTagDigits (n / 128) + 1 := by
  conv_lhs => rw [derTagDigits, if_neg hn]

theorem derLengthOfTag_eq_one_iff : derLengthOfTag tag = 1 ↔ tag % 2 ^ 61 < 0x1F := by
  unfold derLengthOfTag
  dsimp only
  split
  · rename_i hlong
    rw [derTagDigits_pos (by omega)]
    omega
  · simp only [true_iff]
    omega

theorem length_derTagBytes : (derTagBytes tag).length = derLengthOfTag tag := by
  unfold derTagBytes
  dsimp only
  split
  · rename_i hshort
    rw [hshort]
    rfl
  · rename_i hlong
    rw [derLengthOfTag_eq_one_iff, not_lt] at hlong
    rw [List.length_cons, length_derTagLoop, List.length_singleton, derLengthOfTag,
      if_pos hlong, derTagDigits_pos (n := tag % 2 ^ 61) (by omega)]
    omega

theorem length_derLengthLoop : (derLengthLoop n).length = derByteCount n := by
  induction n using Nat.strong_induction_on with
  | h n ih =>
      rw [derLengthLoop, derByteCount]
      split
      · rfl
      · rw [List.length_append, ih (n / 256) (by omega), List.length_singleton]

theorem length_derLengthBytes : (derLengthBytes n).length = derLengthOfLength n := by
  unfold derLengthBytes derLengthOfLength
  split
  · rfl
  · rw [List.length_cons, length_derLengthLoop, Nat.add_comm]

theorem length_derTlv (tag : ℕ) (content : DerItem) :
    (derTlv tag content).length =
      derLengthOfTag tag + derLengthOfLength content.length + content.length := by
  rw [derTlv, List.length_append, List.length_append, length_derTagBytes,
    length_derLengthBytes]

theorem derByteCount_le (h : n < 256 ^ k) : derByteCount n ≤ k := by
  induction k generalizing n with
  | zero =>
      have hzero : n = 0 := by simpa using h
      rw [hzero, derByteCount, if_pos rfl]
  | succ k ih =>
      rw [derByteCount]
      split
      · exact Nat.zero_le _
      · have hrest : n / 256 < 256 ^ k :=
          Nat.div_lt_of_lt_mul (by rwa [Nat.pow_succ, Nat.mul_comm] at h)
        have hle := ih hrest
        omega

theorem derByteCount_pos (hn : n ≠ 0) : 0 < derByteCount n := by
  rw [derByteCount, if_neg hn]
  exact Nat.succ_pos _

theorem derLengthOfLength_pos : 0 < derLengthOfLength n := by
  unfold derLengthOfLength
  split <;> omega

theorem derLengthOfLength_le (hn : n < 2 ^ 32) : derLengthOfLength n ≤ 5 := by
  have hcount : derByteCount n ≤ 4 := derByteCount_le (by omega)
  unfold derLengthOfLength
  split <;> omega

end Lengths

/-! ## Encoding into a buffer that is large enough -/

section Encoding

variable {tag size inOutLen bytesLeft : ℕ} {content out bytes : List UInt8}
  {src : List DerItem} {specs : List DerItemSpec} {spec : DerItemSpec}

theorem derPut_ok (h : out.length + bytes.length ≤ size) :
    derPut size out bytes = .ok (out ++ bytes) :=
  if_pos h

theorem derEncodeTag_ok (h : derLengthOfTag tag ≤ inOutLen) :
    derEncodeTag tag inOutLen = .ok (derTagBytes tag) :=
  if_neg (not_lt.mpr h)

theorem derEncodeLength_ok {n : ℕ} (h : derLengthOfLength n ≤ inOutLen) :
    derEncodeLength n inOutLen = .ok (derLengthBytes n) :=
  if_neg (not_lt.mpr h)

theorem derEncodeItem_ok (h : (derTlv tag content).length ≤ inOutLen)
    (hsize : inOutLen < 2 ^ 32) :
    derEncodeItem tag content inOutLen = .ok (derTlv tag content) := by
  have hlength := length_derTlv tag content
  have htotal : derLengthOfItem tag content.length = (derTlv tag content).length := by
    rw [derLengthOfItem, hlength]
    exact Nat.mod_eq_of_lt (by omega)
  have hleft : sub32 (derTlv tag content).length (derTagBytes tag).length =
      derLengthOfLength content.length + content.length := by
    rw [length_derTagBytes, sub32_of_le (by omega) (by omega)]
    omega
  rw [derEncodeItem]
  simp only [htotal]
  rw [if_neg (by omega), derEncodeTag_ok (by omega), except_ok_bind,
    derPut_ok (by rw [List.length_nil, length_derTagBytes]; omega), except_ok_bind,
    List.nil_append]
  simp only [hleft]
  rw [derEncodeLength_ok (by omega), except_ok_bind,
    derPut_ok (by rw [length_derTagBytes, length_derLengthBytes]; omega), except_ok_bind,
    derPut_ok (by
      rw [List.length_append, length_derTagBytes, length_derLengthBytes]
      omega), except_ok_bind]
  exact congrArg Except.ok List.take_length

/-- The encodings of all items of a sequence. -/
def derElements (src : List DerItem) (specs : List DerItemSpec) : List UInt8 :=
  specs.flatMap fun spec => derTlv spec.tag (src.getD spec.offset [])

theorem derElements_cons : derElements src (spec :: specs) =
    derTlv spec.tag (src.getD spec.offset []) ++ derElements src specs :=
  List.flatMap_cons

theorem DerItemSpec.has_of_zero (h : spec.options = 0) (option : UInt16) :
    spec.has option = false := by
  simp [DerItemSpec.has, h]

theorem derItemLength_of_zero (h : spec.options = 0) :
    derItemLength src spec = (derTlv spec.tag (src.getD spec.offset [])).length := by
  simp [derItemLength, spec.has_of_zero h, derPrependsZero, length_derTlv]

theorem derContentLength_of_zero (h : ∀ spec ∈ specs, spec.options = 0) :
    derContentLength src specs = (derElements src specs).length % 2 ^ 32 := by
  rw [derContentLength, derElements, List.length_flatMap]
  exact congrArg (fun l : List ℕ => l.sum % 2 ^ 32)
    (List.map_congr_left fun spec hspec => derItemLength_of_zero (h spec hspec))

theorem derEncodeElement_ok (hzero : spec.options = 0) (hsize : size < 2 ^ 32)
    (hleft : bytesLeft + out.length = size)
    (hroom : (derTlv spec.tag (src.getD spec.offset [])).length ≤ bytesLeft) :
    derEncodeElement size src spec out bytesLeft =
      .ok (out ++ derTlv spec.tag (src.getD spec.offset []),
        bytesLeft - (derTlv spec.tag (src.getD spec.offset [])).length) := by
  rw [length_derTlv] at hroom ⊢
  have hprepend (item : DerItem) : derPrependsZero spec item = false := by
    rw [derPrependsZero, spec.has_of_zero hzero, Bool.false_and]
  rw [derEncodeElement]
  generalize src.getD spec.offset [] = item at hroom ⊢
  simp only [spec.has_of_zero hzero, hprepend, Bool.false_eq_true, if_false, false_and]
  have hafterTag : sub32 bytesLeft (derTagBytes spec.tag).length =
      bytesLeft - derLengthOfTag spec.tag := by
    rw [length_derTagBytes, sub32_of_le (by omega) (by omega)]
  have hafterLength : sub32 (bytesLeft - derLengthOfTag spec.tag)
      (derLengthBytes item.length).length =
        bytesLeft - derLengthOfTag spec.tag - derLengthOfLength item.length := by
    rw [length_derLengthBytes, sub32_of_le (by omega) (by omega)]
  have hafterContent : sub32
      (bytesLeft - derLengthOfTag spec.tag - derLengthOfLength item.length)
      item.length = bytesLeft -
        (derLengthOfTag spec.tag + derLengthOfLength item.length + item.length) := by
    rw [sub32_of_le (by omega) (by omega)]
    omega
  rw [derEncodeTag_ok (by omega), except_ok_bind,
    derPut_ok (by rw [length_derTagBytes]; omega), except_ok_bind]
  simp only [hafterTag]
  rw [derEncodeLength_ok (by omega), except_ok_bind,
    derPut_ok (by
      rw [List.length_append, length_derTagBytes, length_derLengthBytes]
      omega), except_ok_bind]
  simp only [hafterLength]
  rw [derPut_ok (by
    rw [List.length_append, List.length_append, length_derTagBytes, length_derLengthBytes]
    omega), except_ok_bind, hafterContent, derTlv, ← List.append_assoc,
    ← List.append_assoc]
  rfl

/-- The induction is on the items that are left. -/
theorem derEncodeElements_ok (hzero : ∀ spec ∈ specs, spec.options = 0)
    (hsize : size < 2 ^ 32) (hleft : bytesLeft + out.length = size)
    (hroom : (derElements src specs).length ≤ bytesLeft) :
    derEncodeElements size src specs out bytesLeft =
      .ok (out ++ derElements src specs) := by
  induction specs generalizing out bytesLeft with
  | nil => exact congrArg Except.ok (List.append_nil out).symm
  | cons spec specs ih =>
      rw [derElements_cons, List.length_append] at hroom
      rw [derEncodeElements, derEncodeElement_ok (hzero spec List.mem_cons_self) hsize hleft
        (by omega), except_ok_bind]
      simp only
      rw [ih (fun spec hspec => hzero spec (List.mem_cons_of_mem _ hspec))
        (by rw [List.length_append]; omega) (by omega), derElements_cons,
        ← List.append_assoc]

theorem derEncodeSequence_ok (hzero : ∀ spec ∈ specs, spec.options = 0)
    (hsize : inOutLen < 2 ^ 32)
    (hroom : (derTlv tag (derElements src specs)).length ≤ inOutLen) :
    derEncodeSequence tag src specs inOutLen =
      .ok (derTlv tag (derElements src specs)) := by
  have hlength := length_derTlv tag (derElements src specs)
  have hpos := derLengthOfLength_pos (n := (derElements src specs).length)
  have hcontent : derContentLength src specs = (derElements src specs).length := by
    rw [derContentLength_of_zero hzero]
    exact Nat.mod_eq_of_lt (by omega)
  have hafterTag : sub32 inOutLen (derTagBytes tag).length =
      inOutLen - derLengthOfTag tag := by
    rw [length_derTagBytes, sub32_of_le (by omega) hsize]
  have hafterLength : sub32 (inOutLen - derLengthOfTag tag)
      (derLengthBytes (derElements src specs).length).length =
        inOutLen - derLengthOfTag tag - derLengthOfLength (derElements src specs).length := by
    rw [length_derLengthBytes, sub32_of_le (by omega) (by omega)]
  rw [derEncodeSequence, derEncodeTag_ok (by omega), except_ok_bind,
    derPut_ok (by rw [List.length_nil, length_derTagBytes]; omega), except_ok_bind,
    List.nil_append]
  simp only [hafterTag, hcontent]
  rw [if_neg (by rw [length_derTagBytes]; omega), derEncodeLength_ok (by omega),
    except_ok_bind,
    derPut_ok (by rw [length_derTagBytes, length_derLengthBytes]; omega), except_ok_bind]
  simp only [hafterLength]
  rw [if_neg (by
      rw [List.length_append, length_derTagBytes, length_derLengthBytes]
      omega),
    derEncodeElements_ok hzero hsize (by
      rw [List.length_append, length_derTagBytes, length_derLengthBytes]
      omega) (by omega), except_ok_bind]
  rw [← derTlv, Nat.mod_eq_of_lt (by omega)]
  exact congrArg Except.ok List.take_length

/-- Nothing longer than the buffer is written to it. -/
theorem length_le_of_derPut {r : List UInt8} (h : derPut size out bytes = .ok r) :
    bytes.length ≤ size := by
  unfold derPut at h
  split at h
  · omega
  · cases h

theorem length_le_of_derEncodeElement {r : List UInt8 × ℕ} (hzero : spec.options = 0)
    (h : derEncodeElement size src spec out bytesLeft = .ok r) :
    (src.getD spec.offset []).length ≤ size := by
  have hprepend (item : DerItem) : derPrependsZero spec item = false := by
    rw [derPrependsZero, spec.has_of_zero hzero, Bool.false_and]
  rw [derEncodeElement] at h
  simp only [spec.has_of_zero hzero, hprepend, Bool.false_eq_true, if_false, false_and,
    except_bind_eq_ok] at h
  obtain ⟨_, -, _, -, _, -, _, -, _, hput, -⟩ := h
  exact length_le_of_derPut hput

theorem length_le_of_derEncodeElements {r : List UInt8}
    (hzero : ∀ spec ∈ specs, spec.options = 0)
    (h : derEncodeElements size src specs out bytesLeft = .ok r) :
    ∀ spec ∈ specs, (src.getD spec.offset []).length ≤ size := by
  induction specs generalizing out bytesLeft with
  | nil => exact nofun
  | cons spec specs ih =>
      rw [derEncodeElements, except_bind_eq_ok] at h
      obtain ⟨next, hfirst, hrest⟩ := h
      rw [List.forall_mem_cons]
      exact ⟨length_le_of_derEncodeElement (hzero spec List.mem_cons_self) hfirst,
        ih (fun spec hspec => hzero spec (List.mem_cons_of_mem _ hspec)) hrest⟩

theorem length_le_of_derEncodeSequence {r : DerItem}
    (hzero : ∀ spec ∈ specs, spec.options = 0)
    (h : derEncodeSequence tag src specs inOutLen = .ok r) :
    ∀ spec ∈ specs, (src.getD spec.offset []).length ≤ inOutLen := by
  rw [derEncodeSequence, except_bind_eq_ok] at h
  obtain ⟨_, -, h⟩ := h
  rw [except_bind_eq_ok] at h
  obtain ⟨_, -, h⟩ := h
  dsimp only at h
  split at h
  · cases h
  · rw [except_bind_eq_ok] at h
    obtain ⟨_, -, h⟩ := h
    rw [except_bind_eq_ok] at h
    obtain ⟨_, -, h⟩ := h
    split at h
    · cases h
    · rw [except_bind_eq_ok] at h
      obtain ⟨_, helements, -⟩ := h
      exact length_le_of_derEncodeElements hzero helements

end Encoding

end PongoOS
