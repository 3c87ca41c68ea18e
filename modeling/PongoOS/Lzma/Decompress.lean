import PongoOS.Lzma.Determined

/-!
# Decompression

The Linux loader hands an upload to the decoder.  The decoder returns, whatever
the upload is, and stays inside of the buffers.  What it returns depends on the
upload only.
-/

namespace PongoOS

open RangeCoder BitTree

namespace Lzma

/-! ## Single symbols -/

namespace LzmaDec

variable {p : LzmaDec} {src : ByteMemory} {limit n : ℕ}

/-- A new decoder whose range coder starts with zeros. -/
def zeros : LzmaDec :=
  (init ⟨3, 0, 2, 4096⟩ 4096 fun _ => 0).initStateReal.initRc

theorem zeros_prepared : zeros.Prepared 4096 0 n where
  tempBuf := rfl
  flushed := rfl
  initialized := rfl
  size := rfl
  free := by decide
  pos_le := Nat.zero_le _
  inDic :=
    have h : (init ⟨3, 0, 2, 4096⟩ 4096 fun _ => 0).Waiting 4096 0 0 :=
      init_waiting (by decide) (by norm_num)
    h.inDic.withInput _ _ _ _
  indexed := ⟨by decide, by decide⟩
  valid := ⟨by unfold minRange; decide, by decide, by decide⟩
  normal := by unfold topValue; decide

/-- `LZMA_REQUIRED_INPUT_MAX` bytes are enough for a symbol and for the
normalization behind it. -/
theorem symbol_lzmaRequiredInputMax (h : p.Ready limit) (hp : p.Indexed)
    (hc : p.coder.Valid) (hlower : topValue ≤ p.coder.range) :
    ((p.symbolRun src limit).2.2.normalize src).pos ≤
      p.coder.pos + lzmaRequiredInputMax :=
  (symbolRun_round h hp hc).twenty hlower

/-- A decoder behind five bytes, with a small range and a code that only yields
ones. -/
def behindFive : LzmaDec :=
  { zeros with
    dicPos := 5
    processedPos := 5
    coder := ⟨topValue, topValue - 1, 17⟩
    state := 7
    rep3 := 5 }

theorem behindFive_ready : behindFive.Ready 4096 where
  size := by norm_num [behindFive, zeros, init, initStateReal, initRc]
  room := by decide
  processed := by decide
  processed_lt := by norm_num [behindFive]
  checked := by decide
  checked_lt := by norm_num [behindFive, zeros, init, initStateReal, initRc]
  rep0 := ⟨by decide, by decide⟩
  rep1 := ⟨by decide, by decide⟩
  rep2 := ⟨by decide, by decide⟩
  rep3 := ⟨by decide, by decide⟩
  matched := fun _ => by decide
  remain := fun h => absurd rfl h
  free := by decide
  pos_le := by decide
  le_size := by decide

/-- The longest repetition, at the oldest of the four distances. -/
theorem symbol_lzmaRequiredInputMax_repetition :
    (behindFive.symbolRun (fun _ => 0xff) 4096).1.toOption.map (fun a => a.1.dicPos) =
        some (5 + 273) ∧
      ((behindFive.symbolRun (fun _ => 0xff) 4096).2.2.normalize fun _ => 0xff).pos ≤
        17 + 20 :=
  ⟨by decide +kernel, symbol_lzmaRequiredInputMax behindFive_ready
    ⟨by decide, by decide⟩ ⟨by decide, by decide, by decide⟩ le_rfl⟩

/-- Whatever the bits are, the probabilities of a symbol were allocated, and each of
them is adapted at most once. -/
theorem symbol_probs (hp : p.Indexed) :
    (p.symbol limit).Sat fun _ is _ =>
      is.Nodup ∧ ∀ i ∈ is, i < lzmaPropsGetNumProbs p.prop :=
  Sat.mono (fun _ _ _ h => ⟨h.1.nodup, h.1.mem⟩) (symbol_sat hp)

theorem symbol_probs_zeros :
    (zeros.symbol 4096).Sat fun _ is _ =>
      is.Nodup ∧ ∀ i ∈ is, i < lzmaPropsGetNumProbs zeros.prop :=
  symbol_probs (zeros_prepared (n := 0)).indexed

/-- The trial of a symbol finds enough bytes exactly if decoding the symbol takes no
others, and it tells where the coder comes to. -/
theorem tryDummy_iff {a : LzmaDec × Bool} {c : Coder} (hp : p.Indexed)
    (hpos : p.coder.pos ≤ n) (hok : (p.symbolRun src limit).1 = .ok a) :
    (∃ r, p.tryDummy src p.coder.pos n = .ok (r, c)) ↔
      c = (p.symbolRun src limit).2.2.normalize src ∧ c.pos ≤ n := by
  constructor
  · rintro ⟨r, htry⟩
    obtain ⟨hc, hle⟩ := (symbolRun_of_tryDummy limit hp hpos htry).2 a hok
    exact ⟨hc.symm, hle⟩
  · rintro ⟨rfl, hle⟩
    obtain ⟨b, hcheck⟩ := symbol_follows.check_of_le (symbol_fresh hp) (fun _ _ => rfl)
      hok (le_normalize_pos.trans hle)
    refine ⟨.ok b, ?_⟩
    unfold symbolRun at hle ⊢
    rw [tryDummy, hcheck, except_ok_bind]
    dsimp only
    rw [checkedNormalize_of_le hle]
    rfl

theorem tryDummy_iff_zeros :
    ∃ a, (zeros.symbolRun (fun _ => 0) 4096).1 = .ok a ∧
      ∀ c, (∃ r, zeros.tryDummy (fun _ => 0) 0 1 = .ok (r, c)) ↔
        c = ((zeros.symbolRun (fun _ => 0) 4096).2.2.normalize fun _ => 0) ∧ c.pos ≤ 1 := by
  have hok : (zeros.symbolRun (fun _ => 0) 4096).1.isOk = true := by decide +kernel
  cases hrun : (zeros.symbolRun (fun _ => 0) 4096).1 with
  | error e =>
      rw [hrun] at hok
      cases hok
  | ok a =>
      exact ⟨a, rfl, fun c => tryDummy_iff (zeros_prepared (n := 0)).indexed
        (Nat.zero_le 1) hrun⟩

end LzmaDec

/-! ## Properties -/

theorem lzmaPropsDecode_valid {data : ByteMemory} {size : ℕ} {prop : LzmaProps}
    (h : lzmaPropsDecode data size = .ok prop) : ValidProps prop := by
  unfold lzmaPropsDecode at h
  split at h
  · cases h
  · dsimp only at h
    split at h
    · cases h
    · rename_i hd
      cases h
      have hsize := ByteMemory.u32_lt (m := data) (a := 1)
      refine ⟨?_, ?_, ?_, max_lt hsize ?_⟩
      · dsimp only
        omega
      · dsimp only
        omega
      · dsimp only
        omega
      · unfold lzmaDicMin
        norm_num

/-! ## The decompressor -/

section Decompress

variable {malloc : ℕ → Bool} {dirty dirty' upload upload' src src' : ByteMemory}
variable {prop : LzmaProps} {limit n destSize count : ℕ}

/-- Any properties that were decoded lead to a call that returns.  Neither the
dictionary nor the input is left, and the range coder takes its bytes. -/
theorem decodeToDic_inBounds {data : ByteMemory} {size fuel : ℕ}
    (hprop : lzmaPropsDecode data size = .ok prop) (hlimit : limit < 2 ^ 64)
    (hfuel : limit + 3 ≤ fuel) :
    ∃ e, (LzmaDec.init prop limit dirty).decodeToDic fuel limit src n = .ok e ∧
      e.dec.dicPos ≤ limit ∧ min rcInitSize n ≤ e.read ∧ e.read ≤ n :=
  LzmaDec.decodeToDic_result dirty src n (lzmaPropsDecode_valid hprop) hlimit hfuel

theorem decodeToDic_inBounds_zeros :
    ∃ e, (LzmaDec.init ⟨0, 0, 0, 4096⟩ 16 fun _ => 0).decodeToDic 19 16 (fun _ => 0) 7 =
        .ok e ∧ e.dec.dicPos ≤ 16 ∧ min rcInitSize 7 ≤ e.read ∧ e.read ≤ 7 :=
  have hprop : lzmaPropsDecode (fun _ => 0) 5 = .ok ⟨0, 0, 0, 4096⟩ := rfl
  decodeToDic_inBounds hprop (by norm_num) le_rfl

theorem lzmaLib_decodeToDic (malloc : ℕ → Bool) (dirty : ByteMemory) (prop : LzmaProps)
    (limit : ℕ) (src : ByteMemory) (n : ℕ) :
    ((lzmaLib malloc dirty).decodeToDic prop limit src n).dic.length ≤ limit ∧
      min rcInitSize n ≤ ((lzmaLib malloc dirty).decodeToDic prop limit src n).read ∧
      ((lzmaLib malloc dirty).decodeToDic prop limit src n).read ≤ n := by
  unfold lzmaLib
  dsimp only
  by_cases hvalid : ValidProps prop ∧ limit < 2 ^ 64
  · rw [if_pos hvalid]
    obtain ⟨e, hcall, hpos, hstart, hread⟩ :=
      LzmaDec.decodeToDic_result dirty src n hvalid.1 hvalid.2 le_rfl
    rw [hcall]
    dsimp only
    rw [ByteMemory.length_bytesAt]
    exact ⟨hpos, hstart, hread⟩
  · rw [if_neg hvalid]
    exact ⟨Nat.zero_le _, min_le_right _ _, le_rfl⟩

theorem lzmaLib_lawful (malloc : ℕ → Bool) (dirty : ByteMemory) :
    (lzmaLib malloc dirty).Lawful where
  starts prop limit src n hn := by
    have hstart := (lzmaLib_decodeToDic malloc dirty prop limit src n).2.1
    rwa [min_eq_left hn] at hstart
  within prop limit src n := (lzmaLib_decodeToDic malloc dirty prop limit src n).2.2

theorem lzmaLib_same (hagree : ∀ i < n, src' i = src i) :
    (lzmaLib malloc dirty').decodeToDic prop limit src' n =
      (lzmaLib malloc dirty).decodeToDic prop limit src n := by
  unfold lzmaLib
  dsimp only
  by_cases hvalid : ValidProps prop ∧ limit < 2 ^ 64
  · rw [if_pos hvalid, if_pos hvalid]
    obtain ⟨e, e', hcall, hcall', hsame⟩ := LzmaDec.decodeToDic_same dirty dirty' hvalid.1
      hvalid.2 le_rfl hagree
    have hpos : e'.dec.dicPos = e.dec.dicPos := by rw [hsame.dec.eq]
    have hdic : e'.dec.dic.bytesAt 0 e.dec.dicPos = e.dec.dic.bytesAt 0 e.dec.dicPos :=
      ByteMemory.bytesAt_congr fun i hi => hsame.dec.dic _ (by omega)
    rw [hcall, hcall']
    dsimp only
    rw [hpos, hdic, hsame.res, hsame.status, hsame.read]
  · rw [if_neg hvalid, if_neg hvalid]

theorem unlzmaDecompress_output_le :
    (unlzmaDecompress (lzmaLib malloc dirty) destSize upload count).output.length ≤
      destSize := by
  rw [unlzmaDecompress_eq, lzmaDecode]
  by_cases hshort : sub64 count 13 < rcInitSize
  · rw [if_pos hshort]
    exact Nat.zero_le _
  · rw [if_neg hshort]
    cases lzmaDecAllocateProbs (lzmaLib malloc dirty) upload 13 with
    | error res => exact Nat.zero_le _
    | ok prop => exact (lzmaLib_decodeToDic malloc dirty prop _ _ _).1

/-- The image that is decompressed fits into `destSize` bytes.  The reads stay in
the upload, except that the header is taken for granted. -/
theorem unlzmaDecompress_inBounds (hcount : count < 2 ^ 64) :
    (unlzmaDecompress (lzmaLib malloc dirty) destSize upload count).output.length ≤
        destSize ∧
      ((∀ r ∈ (unlzmaDecompress (lzmaLib malloc dirty) destSize upload count).reads,
          r.1 + r.2 ≤ count) ↔
        13 ≤ count ∨ lzmaPropsSize ≤ count ∧
          ∃ res, lzmaDecAllocateProbs (lzmaLib malloc dirty) upload 13 =
            .error res) := by
  refine ⟨unlzmaDecompress_output_le, ?_⟩
  by_cases hheader : 13 ≤ count
  · have hreads := unlzmaDecompress_reads upload destSize
      (lzmaLib_lawful malloc dirty) hcount hheader
    exact ⟨fun _ => .inl hheader, fun _ => hreads⟩
  have hsize : ¬ sub64 count 13 < rcInitSize := by
    unfold sub64 rcInitSize
    omega
  rw [unlzmaDecompress_eq, lzmaDecode, if_neg hsize]
  cases hprobs : lzmaDecAllocateProbs (lzmaLib malloc dirty) upload 13 with
  | error res => simp [hheader]
  | ok prop =>
      have hstarts := (lzmaLib_lawful malloc dirty).starts prop destSize
        (fun k => upload (13 + k)) _ (Nat.le_of_not_lt hsize)
      unfold rcInitSize at hstarts
      refine iff_of_false (fun hreads => ?_) ?_
      · have hread := hreads _ (List.mem_cons_of_mem _ List.mem_cons_self)
        dsimp only at hread
        omega
      · rintro (hle | ⟨-, res, hres⟩)
        · exact hheader hle
        · cases hres

theorem unlzmaDecompress_inBounds_zeros :
    (unlzmaDecompress (lzmaLib (fun _ => true) fun _ => 0) 16 (fun _ => 0)
        20).output.length ≤ 16 ∧
      ((∀ r ∈ (unlzmaDecompress (lzmaLib (fun _ => true) fun _ => 0) 16 (fun _ => 0)
            20).reads, r.1 + r.2 ≤ 20) ↔
        13 ≤ 20 ∨ lzmaPropsSize ≤ 20 ∧
          ∃ res, lzmaDecAllocateProbs (lzmaLib (fun _ => true) fun _ => 0) (fun _ => 0)
            13 = .error res) :=
  unlzmaDecompress_inBounds (by norm_num)

/-- What is decompressed depends on the bytes of the upload only: not on the bytes
behind it, and not on what was in the buffer. -/
theorem unlzmaDecompress_determined (hheader : 13 ≤ count) (hcount : count < 2 ^ 64)
    (hagree : ∀ i < count, upload' i = upload i) :
    unlzmaDecompress (lzmaLib malloc dirty') destSize upload' count =
      unlzmaDecompress (lzmaLib malloc dirty) destSize upload count := by
  have hprobs : lzmaDecAllocateProbs (lzmaLib malloc dirty') upload' 13 =
      lzmaDecAllocateProbs (lzmaLib malloc dirty) upload 13 := by
    have hsize : upload'.u32 1 = upload.u32 1 :=
      congrArg littleEndian (ByteMemory.bytesAt_congr fun i hi => hagree _ (by omega))
    unfold lzmaDecAllocateProbs lzmaPropsDecode
    rw [hsize, hagree 0 (by omega)]
    rfl
  have hcall : ∀ prop, (lzmaLib malloc dirty').decodeToDic prop destSize
        (fun k => upload' (13 + k)) (count - 13) =
      (lzmaLib malloc dirty).decodeToDic prop destSize (fun k => upload (13 + k))
        (count - 13) :=
    fun prop => lzmaLib_same fun i hi => hagree _ (by omega)
  rw [unlzmaDecompress_eq, unlzmaDecompress_eq, sub64_of_le hheader hcount, lzmaDecode,
    lzmaDecode, hprobs]
  simp only [hcall]

theorem unlzmaDecompress_determined_zeros :
    unlzmaDecompress (lzmaLib (fun _ => true) fun _ => 1) 16
        (fun i => if i < 20 then 0 else 1) 20 =
      unlzmaDecompress (lzmaLib (fun _ => true) fun _ => 0) 16 (fun _ => 0) 20 :=
  unlzmaDecompress_determined (by norm_num) (by norm_num) fun _ hi => if_pos hi

end Decompress

end Lzma

end PongoOS
