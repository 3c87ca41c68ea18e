import PongoOS.Support.A64
import PongoOS.Xnu.JitInstructions

/-!
# What the encoders of the just-in-time compiler encode

The words are decoded and executed as the processor does it.  A branch is encoded
by the distance of its target in words, and a constant by its chunks that are not
zero.
-/

namespace PongoOS

open A64

/-! ## Branches -/

/-- `target - insn_stream`, for pointers to words. -/
def wordDistance (source target : BitVec 64) : ℤ := (target - source).toInt / 4

section Branches

variable {d : ℤ} {source target : BitVec 64}

/-- The lowest bits of a distance that was cut to 32 bits. -/
theorem setWidth_ofInt {k : ℕ} (hk : k ≤ 32) :
    (UInt32.ofInt d).toBitVec.setWidth k = BitVec.ofInt k d := by
  have hcut : ((UInt32.ofInt d).toBitVec.toNat : ℤ) = d % 2 ^ 32 := by
    rw [UInt32.toNat_toBitVec, UInt32.ofInt, UInt32.toNat_ofNat']
    omega
  have hdvd : ((2 : ℤ) ^ k) ∣ 2 ^ 32 := pow_dvd_pow 2 hk
  have hne : (2 : ℤ) ^ k ≠ 0 := pow_ne_zero k two_ne_zero
  refine BitVec.eq_of_toNat_eq (Int.natCast_inj.mp ?_)
  rw [BitVec.toNat_setWidth, BitVec.toNat_ofInt, Int.natCast_mod, hcut, Int.toNat_of_nonneg
    (by exact_mod_cast Int.emod_nonneg d hne)]
  push_cast
  exact Int.emod_emod_of_dvd d hdvd

theorem b_word {x : BitVec 32} :
    x &&& 0x03ffffff ||| 0x14000000 = (Insn.b (x.setWidth 26)).encode := by
  have hmask : (0x03ffffff : BitVec 32) = (BitVec.allOnes 26).setWidth 32 := rfl
  have hopcode : (0x14000000 : BitVec 32) = 0b000101#6 ++ 0#26 := rfl
  rw [hmask, hopcode]
  refine BitVec.eq_of_getLsbD_eq fun i hi => ?_
  simp only [Insn.encode, BitVec.getLsbD_or, BitVec.getLsbD_and, BitVec.getLsbD_setWidth,
    BitVec.getLsbD_allOnes, BitVec.getLsbD_append (n := 6) (m := 26), hi]
  by_cases hlow : i < 26 <;> simp [hlow]

theorem bCond_word {x : BitVec 32} {cond : BitVec 4} :
    x <<< 5 &&& 0xFFFFE0 ||| (0b01010100#8 ++ 0#20 ++ cond) =
      (Insn.bCond (x.setWidth 19) cond).encode := by
  have hmask : (0xFFFFE0 : BitVec 32) = (BitVec.allOnes 19 ++ 0#5).setWidth 32 := rfl
  rw [hmask]
  refine BitVec.eq_of_getLsbD_eq fun i hi => ?_
  simp only [Insn.encode, BitVec.getLsbD_or, BitVec.getLsbD_and, BitVec.getLsbD_setWidth,
    BitVec.getLsbD_shiftLeft, BitVec.getLsbD_allOnes, BitVec.getLsbD_append (n := 19) (m := 5),
    BitVec.getLsbD_append (n := 28) (m := 4), BitVec.getLsbD_append (n := 8) (m := 20),
    BitVec.getLsbD_append (n := 27) (m := 1), BitVec.getLsbD_append (n := 8) (m := 19), hi]
  grind

theorem xnuPfB_encodes :
    (xnuPfB d).toBitVec = (Insn.b (BitVec.ofInt 26 d)).encode := by
  rw [← setWidth_ofInt (by decide : 26 ≤ 32), ← b_word]
  rfl

theorem xnuPfBEq_encodes :
    (xnuPfBEq d).toBitVec = (Insn.bCond (BitVec.ofInt 19 d) condEq).encode := by
  rw [← setWidth_ofInt (by decide : 19 ≤ 32), ← bCond_word]
  rfl

theorem xnuPfBNe_encodes :
    (xnuPfBNe d).toBitVec = (Insn.bCond (BitVec.ofInt 19 d) condNe).encode := by
  rw [← setWidth_ofInt (by decide : 19 ≤ 32), ← bCond_word]
  rfl

/-- Pointers to words are a whole number of words apart. -/
theorem four_mul_wordDistance (hsource : source.toNat % 4 = 0)
    (htarget : target.toNat % 4 = 0) :
    BitVec.ofInt 64 (4 * wordDistance source target) = target - source := by
  have hdvd : (4 : ℤ) ∣ (target - source).toInt := by
    rw [BitVec.toInt_sub, Int.bmod_def]
    rw [BitVec.toInt_eq_toNat_cond, BitVec.toInt_eq_toNat_cond]
    omega
  rw [wordDistance, Int.mul_ediv_cancel' hdvd, BitVec.ofInt_toInt]

/-- The branch at `source` that is encoded with the distance to `target`. -/
theorem add_branchOffset {k : ℕ} (hk : 0 < k)
    (hsource : source.toNat % 4 = 0) (htarget : target.toNat % 4 = 0)
    (hfits : FitsSigned k (wordDistance source target)) :
    source + branchOffset (BitVec.ofInt k (wordDistance source target)) = target := by
  rw [branchOffset_ofInt hk hfits, four_mul_wordDistance hsource htarget, BitVec.add_comm,
    BitVec.sub_add_cancel]

end Branches

/-! ## Constants -/

section Constants

variable {reg : UInt8} {value : UInt64}

/-- A register number as a field. -/
def regField (reg : UInt8) : BitVec 5 := reg.toBitVec.setWidth 5

theorem movInsn_toBitVec {opcode c : UInt64} {op : BitVec 11} {imm16 : BitVec 16}
    (hopcode : opcode.toBitVec = (op ++ 0#16).setWidth 64)
    (hc : c.toBitVec = imm16.setWidth 64) :
    (movInsn opcode reg c).toBitVec = op ++ imm16 ++ regField reg := by
  have hreg : ((reg &&& 0x1f).toUInt64).toBitVec = (regField reg).setWidth 64 := by
    have hmask : (0x1f : UInt8).toBitVec = (BitVec.allOnes 5).setWidth 8 := rfl
    rw [UInt8.toBitVec_toUInt64, UInt8.toBitVec_and, hmask]
    refine BitVec.eq_of_getLsbD_eq fun i hi => ?_
    simp only [regField, BitVec.getLsbD_and, BitVec.getLsbD_setWidth,
      BitVec.getLsbD_allOnes, hi]
    grind
  have hword : (movInsn opcode reg c).toBitVec =
      (((op ++ 0#16).setWidth 64 ||| imm16.setWidth 64) <<< 5 |||
        (regField reg).setWidth 64 : BitVec 64).setWidth 32 := by
    rw [← hopcode, ← hc, ← hreg]
    rfl
  rw [hword]
  refine BitVec.eq_of_getLsbD_eq fun i hi => ?_
  simp only [BitVec.getLsbD_or, BitVec.getLsbD_setWidth, BitVec.getLsbD_shiftLeft,
    BitVec.getLsbD_append (n := 11) (m := 16), BitVec.getLsbD_append (n := 27) (m := 5), hi]
  grind

/-- A chunk, as it is computed. -/
theorem chunk_toBitVec {k : UInt64} {hw : BitVec 2} (hk : k.toNat = 16 * hw.toNat) :
    (value >>> k &&& 0xFFFF).toBitVec = (chunk value.toBitVec hw).setWidth 64 := by
  have hmask : (0xFFFF : UInt64).toBitVec = (BitVec.allOnes 16).setWidth 64 := rfl
  have hshift : (k.toBitVec % 64).toNat = 16 * hw.toNat := by
    rw [BitVec.toNat_umod, UInt64.toNat_toBitVec, hk]
    exact Nat.mod_eq_of_lt (show 16 * hw.toNat < 64 by omega)
  rw [UInt64.toBitVec_and, UInt64.toBitVec_shiftRight, hmask, BitVec.ushiftRight_eq',
    hshift]
  refine BitVec.eq_of_getLsbD_eq fun i hi => ?_
  simp only [chunk, BitVec.getLsbD_and, BitVec.getLsbD_ushiftRight,
    BitVec.getLsbD_setWidth, BitVec.getLsbD_extractLsb', BitVec.getLsbD_allOnes, hi]
  grind

theorem chunk_eq_zero_iff {c : UInt64} {imm16 : BitVec 16}
    (hc : c.toBitVec = imm16.setWidth 64) : c = 0 ↔ imm16 = 0 := by
  rw [← UInt64.toBitVec_inj, hc]
  constructor
  · intro hzero
    have hcut := congrArg (BitVec.setWidth 16) hzero
    rwa [BitVec.setWidth_setWidth_of_le _ (by decide), BitVec.setWidth_eq] at hcut
  · rintro rfl
    rfl

theorem movk_words {opcode c : UInt64} {hw : BitVec 2}
    (hopcode : opcode.toBitVec = (0b111100101#9 ++ hw ++ 0#16).setWidth 64)
    (hc : c.toBitVec = (chunk value.toBitVec hw).setWidth 64) :
    (if c ≠ 0 then [movInsn opcode reg c] else []).map UInt32.toBitVec =
      movkWords value.toBitVec (regField reg) hw := by
  have hzero := chunk_eq_zero_iff hc
  unfold movkWords
  by_cases hchunk : c = 0
  · rw [if_neg (not_not.mpr hchunk), if_neg (not_not.mpr (hzero.mp hchunk))]
    rfl
  · rw [if_pos hchunk, if_pos (fun h => hchunk (hzero.mpr h)), List.map_singleton,
      movInsn_toBitVec hopcode hc]
    rfl

theorem xnuPfImm64Load_words :
    (xnuPfImm64Load reg value).map UInt32.toBitVec =
      loadWords value.toBitVec (regField reg) := by
  have hmovz : (0x6940000 : UInt64).toBitVec =
      ((0b110100101#9 ++ 0#2) ++ 0#16).setWidth 64 := rfl
  have hmovk1 : (0x7950000 : UInt64).toBitVec =
      (0b111100101#9 ++ (1 : BitVec 2) ++ 0#16).setWidth 64 := rfl
  have hmovk2 : (0x7960000 : UInt64).toBitVec =
      (0b111100101#9 ++ (2 : BitVec 2) ++ 0#16).setWidth 64 := rfl
  have hmovk3 : (0x7970000 : UInt64).toBitVec =
      (0b111100101#9 ++ (3 : BitVec 2) ++ 0#16).setWidth 64 := rfl
  have h0 : (value >>> 0 &&& 0xFFFF).toBitVec =
      (chunk value.toBitVec 0).setWidth 64 := chunk_toBitVec rfl
  rw [UInt64.shiftRight_zero] at h0
  rw [xnuPfImm64Load, List.map_append, List.map_append, List.map_append,
    movk_words hmovk1 (chunk_toBitVec rfl), movk_words hmovk2 (chunk_toBitVec rfl),
    movk_words hmovk3 (chunk_toBitVec rfl), List.map_singleton,
    movInsn_toBitVec hmovz h0]
  rfl

end Constants

/-! ## The encoders -/

/-- The words leave `value` in the register, and change no other register. -/
structure LoadsConstant (reg : UInt8) (value : UInt64) (ws : List UInt32) : Prop where
  length_le : ws.length ≤ 4
  run : ∀ s, ∃ s', A64.run (ws.map UInt32.toBitVec) s = some s' ∧
    s'.x (regField reg) = value.toBitVec ∧
    (∀ r ≠ regField reg, s'.x r = s.x r) ∧
    s'.pc = s.pc + 4 * BitVec.ofNat 64 ws.length

/-- The word is a branch of `source` to `target`. -/
def BranchesTo (word : UInt32) (source : BitVec 64) (cond : Option (BitVec 4))
    (target : BitVec 64) : Prop :=
  ∃ i, decode word.toBitVec = some i ∧ i.branch source = some (cond, target)

theorem regField_ne {reg : UInt8} (h : reg < 31) : regField reg ≠ 31 := by
  intro heq
  have hlt : reg.toNat < 31 := h
  have hnat := congrArg BitVec.toNat heq
  rw [regField, BitVec.toNat_setWidth, UInt8.toNat_toBitVec] at hnat
  have hvalue : (31 : BitVec 5).toNat = 31 := rfl
  omega

theorem xnuPfImm64Load_loads {reg : UInt8} {value : UInt64} (h : reg < 31) :
    LoadsConstant reg value (xnuPfImm64Load reg value) := by
  have hwords : (xnuPfImm64Load reg value).map UInt32.toBitVec = _ :=
    xnuPfImm64Load_words
  have hlength : (xnuPfImm64Load reg value).length =
      (loadWords value.toBitVec (regField reg)).length := by
    rw [← hwords, List.length_map]
  refine ⟨hlength ▸ length_loadWords, fun s => ?_⟩
  refine ⟨_, hwords ▸ run_loadWords (regField_ne h), moved_x_self,
    fun r hr => moved_x_of_ne hr, ?_⟩
  rw [List.length_map]
  rfl

/-- What the processor does with the words of the encoders. -/
theorem jitEncoders_correct (reg : UInt8) (value : UInt64) (source target : BitVec 64)
    (hreg : reg < 31) (hsource : source.toNat % 4 = 0) (htarget : target.toNat % 4 = 0) :
    LoadsConstant reg value (xnuPfImm64Load reg value) ∧
      (FitsSigned 26 (wordDistance source target) →
        BranchesTo (xnuPfB (wordDistance source target)) source none target) ∧
      (FitsSigned 19 (wordDistance source target) →
        BranchesTo (xnuPfBEq (wordDistance source target)) source (some condEq) target ∧
        BranchesTo (xnuPfBNe (wordDistance source target)) source (some condNe)
          target) := by
  refine ⟨xnuPfImm64Load_loads hreg, fun hfits => ?_, fun hfits => ⟨?_, ?_⟩⟩
  · refine ⟨_, xnuPfB_encodes ▸ decode_encode _, ?_⟩
    rw [Insn.branch, add_branchOffset (by decide) hsource htarget hfits]
  · refine ⟨_, xnuPfBEq_encodes ▸ decode_encode _, ?_⟩
    rw [Insn.branch, add_branchOffset (by decide) hsource htarget hfits]
  · refine ⟨_, xnuPfBNe_encodes ▸ decode_encode _, ?_⟩
    rw [Insn.branch, add_branchOffset (by decide) hsource htarget hfits]

/-- A branch back by two words, and a constant with a chunk of zeros. -/
theorem jitEncoders_correct_back :
    LoadsConstant 3 0xFFFF0000D503201F (xnuPfImm64Load 3 0xFFFF0000D503201F) ∧
      BranchesTo (xnuPfB (-2)) 0x100000008 none 0x100000000 ∧
      BranchesTo (xnuPfBEq (-2)) 0x100000008 (some condEq) 0x100000000 ∧
      BranchesTo (xnuPfBNe (-2)) 0x100000008 (some condNe) 0x100000000 := by
  obtain ⟨hload, hb, hcond⟩ := jitEncoders_correct 3 0xFFFF0000D503201F 0x100000008
    0x100000000 (by decide) (by decide) (by decide)
  exact ⟨hload, hb (by decide), hcond (by decide)⟩

end PongoOS
