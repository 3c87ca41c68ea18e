import Mathlib.Data.BitVec
import Mathlib.Logic.Function.Basic
import Mathlib.Tactic.Common

/-!
# Branches and moves of the A64 instruction set

An instruction is decoded from its word and executed on the registers, the program
counter and the condition flags.
-/

namespace PongoOS.A64

/-! ## Words -/

/-- `B`, `B.cond`, and the 64-bit forms of `MOVZ` and `MOVK`, with the fields of
their words. -/
inductive Insn where
  | b (imm26 : BitVec 26)
  | bCond (imm19 : BitVec 19) (cond : BitVec 4)
  | movz (hw : BitVec 2) (imm16 : BitVec 16) (rd : BitVec 5)
  | movk (hw : BitVec 2) (imm16 : BitVec 16) (rd : BitVec 5)
deriving DecidableEq, Repr

/-- The instruction of a word, if it is one of the four. -/
def decode (w : BitVec 32) : Option Insn :=
  if w.extractLsb' 26 6 = 0b000101#6 then
    some (.b (w.extractLsb' 0 26))
  else if w.extractLsb' 24 8 = 0b01010100#8 ∧ w.extractLsb' 4 1 = 0#1 then
    some (.bCond (w.extractLsb' 5 19) (w.extractLsb' 0 4))
  else if w.extractLsb' 23 9 = 0b110100101#9 then
    some (.movz (w.extractLsb' 21 2) (w.extractLsb' 5 16) (w.extractLsb' 0 5))
  else if w.extractLsb' 23 9 = 0b111100101#9 then
    some (.movk (w.extractLsb' 21 2) (w.extractLsb' 5 16) (w.extractLsb' 0 5))
  else none

/-- The word of an instruction. -/
def Insn.encode : Insn → BitVec 32
  | .b imm26 => 0b000101#6 ++ imm26
  | .bCond imm19 cond => 0b01010100#8 ++ imm19 ++ 0#1 ++ cond
  | .movz hw imm16 rd => 0b110100101#9 ++ hw ++ imm16 ++ rd
  | .movk hw imm16 rd => 0b111100101#9 ++ hw ++ imm16 ++ rd

/-- Words of moves have other bits where branches have their opcodes. -/
theorem decode_encode (i : Insn) : decode i.encode = some i := by
  cases i with
  | b imm26 =>
      simp [decode, Insn.encode,
        BitVec.extractLsb'_append_eq_ite (v := 6) (w := 26)]
  | bCond imm19 cond =>
      simp +decide [decode, Insn.encode,
        BitVec.extractLsb'_append_eq_ite (v := 28) (w := 4),
        BitVec.extractLsb'_append_eq_ite (v := 27) (w := 1),
        BitVec.extractLsb'_append_eq_ite (v := 8) (w := 19)]
  | movz hw imm16 rd =>
      simp +decide [decode, Insn.encode,
        BitVec.extractLsb'_append_eq_ite (v := 27) (w := 5),
        BitVec.extractLsb'_append_eq_ite (v := 11) (w := 16),
        BitVec.extractLsb'_append_eq_ite (v := 9) (w := 2)]
  | movk hw imm16 rd =>
      simp +decide [decode, Insn.encode,
        BitVec.extractLsb'_append_eq_ite (v := 27) (w := 5),
        BitVec.extractLsb'_append_eq_ite (v := 11) (w := 16),
        BitVec.extractLsb'_append_eq_ite (v := 9) (w := 2)]

/-! ## Execution -/

/-- The registers; number 31 is the zero register. -/
structure Cpu where
  pc : BitVec 64
  x : BitVec 5 → BitVec 64
  n : Bool
  z : Bool
  c : Bool
  v : Bool

namespace Cpu

def setX (s : Cpu) (rd : BitVec 5) (value : BitVec 64) : Cpu :=
  if rd = 31 then s else { s with x := Function.update s.x rd value }

theorem setX_of_ne {s : Cpu} {rd : BitVec 5} {value : BitVec 64} (h : rd ≠ 31) :
    s.setX rd value = { s with x := Function.update s.x rd value } :=
  if_neg h

def next (s : Cpu) : Cpu := { s with pc := s.pc + 4 }

/-- The condition of a conditional branch: each of eight, or its opposite. -/
def holds (s : Cpu) (cond : BitVec 4) : Bool :=
  let base := match (cond.extractLsb' 1 3).toNat with
    | 0 => s.z
    | 1 => s.c
    | 2 => s.n
    | 3 => s.v
    | 4 => s.c && !s.z
    | 5 => s.n == s.v
    | 6 => s.n == s.v && !s.z
    | _ => true
  if cond.getLsbD 0 ∧ cond ≠ 0b1111 then !base else base

end Cpu

def condEq : BitVec 4 := 0

def condNe : BitVec 4 := 1

/-- A distance in words, as the bytes that are added to the program counter. -/
def branchOffset {k : ℕ} (imm : BitVec k) : BitVec 64 :=
  (imm ++ 0#2).signExtend 64

/-- The signed numbers of `k` bits. -/
def FitsSigned (k : ℕ) (d : ℤ) : Prop := -2 ^ (k - 1) ≤ d ∧ d < 2 ^ (k - 1)

instance (k : ℕ) (d : ℤ) : Decidable (FitsSigned k d) :=
  inferInstanceAs (Decidable (_ ∧ _))

section Offsets

variable {k : ℕ} {d : ℤ}

theorem ofInt_append_zeros : BitVec.ofInt k d ++ 0#2 = BitVec.ofInt (k + 2) (4 * d) := by
  have hquarter : (4 * d) % 2 ^ (k + 2) = 4 * (d % 2 ^ k) := by
    rw [pow_add, mul_comm ((2 : ℤ) ^ k), show (2 : ℤ) ^ 2 = 4 by rfl]
    exact Int.mul_emod_mul_of_pos d _ (by decide)
  have hnonneg : 0 ≤ d % 2 ^ k := Int.emod_nonneg d (pow_ne_zero k two_ne_zero)
  refine BitVec.eq_of_toNat_eq ?_
  rw [BitVec.toNat_append, BitVec.toNat_ofInt, BitVec.toNat_ofInt]
  push_cast
  rw [hquarter, Nat.or_zero, Nat.shiftLeft_eq]
  omega

theorem branchOffset_ofInt (hk : 0 < k) (h : FitsSigned k d) :
    branchOffset (BitVec.ofInt k d) = BitVec.ofInt 64 (4 * d) := by
  obtain ⟨hlow, hhigh⟩ := h
  have hbound : (2 : ℤ) ^ (k + 2 - 1) = 4 * 2 ^ (k - 1) := by
    rw [show k + 2 - 1 = k - 1 + 2 by omega, pow_add, mul_comm]
    rfl
  rw [branchOffset, ofInt_append_zeros, BitVec.signExtend,
    BitVec.toInt_ofInt_eq_self (by omega) (by omega) (by omega)]

end Offsets

/-- Sixteen bits of a register are replaced. -/
def insertChunk (r : BitVec 64) (hw : BitVec 2) (imm16 : BitVec 16) : BitVec 64 :=
  r &&& ~~~((BitVec.allOnes 16).setWidth 64 <<< (16 * hw.toNat)) |||
    imm16.setWidth 64 <<< (16 * hw.toNat)

def exec : Insn → Cpu → Cpu
  | .b imm26, s => { s with pc := s.pc + branchOffset imm26 }
  | .bCond imm19 cond, s =>
      if s.holds cond then { s with pc := s.pc + branchOffset imm19 } else s.next
  | .movz hw imm16 rd, s =>
      (s.setX rd (imm16.setWidth 64 <<< (16 * hw.toNat))).next
  | .movk hw imm16 rd, s => (s.setX rd (insertChunk (s.x rd) hw imm16)).next

/-- Where a branch at `pc` goes, and its condition if it has one. -/
def Insn.branch (pc : BitVec 64) : Insn → Option (Option (BitVec 4) × BitVec 64)
  | .b imm26 => some (none, pc + branchOffset imm26)
  | .bCond imm19 cond => some (some cond, pc + branchOffset imm19)
  | _ => none

/-- The word at the program counter is executed. -/
def step (s : Cpu) (w : BitVec 32) : Option Cpu :=
  (decode w).map fun i => exec i s

/-- Words that do not branch are executed one after the other. -/
def run (ws : List (BitVec 32)) (s : Cpu) : Option Cpu := ws.foldlM step s

theorem step_encode {i : Insn} {s : Cpu} : step s i.encode = some (exec i s) := by
  rw [step, decode_encode, Option.map_some]

theorem run_append {ws ws' : List (BitVec 32)} {s : Cpu} :
    run (ws ++ ws') s = (run ws s).bind (run ws') := by
  rw [run, List.foldlM_append]
  rfl

theorem run_encode {i : Insn} {s : Cpu} : run [i.encode] s = some (exec i s) := by
  rw [run, List.foldlM_cons, step_encode]
  rfl

/-! ## Building a constant -/

/-- The lowest bits of a constant. -/
def low (k : ℕ) (value : BitVec 64) : BitVec 64 := (value.setWidth k).setWidth 64

/-- Sixteen bits of a constant. -/
def chunk (value : BitVec 64) (hw : BitVec 2) : BitVec 16 :=
  value.extractLsb' (16 * hw.toNat) 16

section Constants

variable {value : BitVec 64} {hw : BitVec 2} {k i : ℕ}

theorem getLsbD_low (hi : i < 64) :
    (low k value).getLsbD i = (decide (i < k) && value.getLsbD i) := by
  simp only [low, BitVec.getLsbD_setWidth, hi, decide_true, Bool.true_and]

theorem low_all : low 64 value = value := by simp [low]

theorem low_first : low 16 value = (chunk value 0).setWidth 64 := by
  refine BitVec.eq_of_getLsbD_eq fun i hi => ?_
  simp only [getLsbD_low hi, chunk, BitVec.getLsbD_setWidth,
    BitVec.getLsbD_extractLsb', hi, decide_true, Bool.true_and]
  have hstart : 16 * (0 : BitVec 2).toNat + i = i := Nat.zero_add i
  rw [hstart]

theorem insertChunk_low :
    insertChunk (low (16 * hw.toNat) value) hw (chunk value hw) =
      low (16 * hw.toNat + 16) value := by
  refine BitVec.eq_of_getLsbD_eq fun i hi => ?_
  simp only [insertChunk, BitVec.getLsbD_or, BitVec.getLsbD_and, BitVec.getLsbD_not,
    BitVec.getLsbD_shiftLeft, BitVec.getLsbD_setWidth, BitVec.getLsbD_allOnes,
    getLsbD_low hi, chunk, BitVec.getLsbD_extractLsb', hi]
  grind

/-- A chunk of zeros need not be inserted. -/
theorem low_of_chunk_zero (h : chunk value hw = 0) :
    low (16 * hw.toNat + 16) value = low (16 * hw.toNat) value := by
  refine BitVec.eq_of_getLsbD_eq fun i hi => ?_
  rw [getLsbD_low hi, getLsbD_low hi]
  by_cases hin : 16 * hw.toNat ≤ i ∧ i < 16 * hw.toNat + 16
  · have hbit := congrArg (fun b => b.getLsbD (i - 16 * hw.toNat)) h
    simp only [chunk, BitVec.getLsbD_extractLsb', Nat.add_sub_cancel' hin.1] at hbit
    grind
  · grind

end Constants

/-- `words` moves were executed, and the register has `value`. -/
def Cpu.moved (s : Cpu) (rd : BitVec 5) (value : BitVec 64) (words : ℕ) : Cpu :=
  { s with
    pc := s.pc + 4 * BitVec.ofNat 64 words
    x := Function.update s.x rd value }

/-- The word that inserts a chunk, unless the chunk is zero. -/
def movkWords (value : BitVec 64) (rd : BitVec 5) (hw : BitVec 2) :
    List (BitVec 32) :=
  if chunk value hw ≠ 0 then [(Insn.movk hw (chunk value hw) rd).encode] else []

/-- The lowest chunk is moved, and the others are inserted. -/
def loadWords (value : BitVec 64) (rd : BitVec 5) : List (BitVec 32) :=
  [(Insn.movz 0 (chunk value 0) rd).encode] ++ movkWords value rd 1 ++
    movkWords value rd 2 ++ movkWords value rd 3

section Moves

variable {s : Cpu} {rd : BitVec 5} {value : BitVec 64} {hw : BitVec 2} {k : ℕ}

theorem moved_x_self : (s.moved rd value k).x rd = value := Function.update_self ..

theorem moved_x_of_ne {r : BitVec 5} (h : r ≠ rd) :
    (s.moved rd value k).x r = s.x r :=
  Function.update_of_ne h ..

theorem exec_movz_first (hrd : rd ≠ 31) :
    exec (.movz 0 (chunk value 0) rd) s = s.moved rd (low 16 value) 1 := by
  rw [exec, Cpu.setX_of_ne hrd, low_first]
  simp [Cpu.next, Cpu.moved]

theorem exec_movk_chunk (hrd : rd ≠ 31) :
    exec (.movk hw (chunk value hw) rd) (s.moved rd (low (16 * hw.toNat) value) k) =
      s.moved rd (low (16 * hw.toNat + 16) value) (k + 1) := by
  rw [exec, Cpu.setX_of_ne hrd, moved_x_self, insertChunk_low]
  simp [Cpu.next, Cpu.moved, BitVec.ofNat_add, BitVec.mul_add, BitVec.add_assoc]

theorem run_movkWords (hrd : rd ≠ 31) :
    run (movkWords value rd hw) (s.moved rd (low (16 * hw.toNat) value) k) =
      some (s.moved rd (low (16 * hw.toNat + 16) value)
        (k + (movkWords value rd hw).length)) := by
  unfold movkWords
  split
  · exact run_encode.trans (congrArg some (exec_movk_chunk hrd))
  · rename_i hzero
    rw [low_of_chunk_zero (not_not.mp hzero)]
    rfl

theorem run_loadWords (hrd : rd ≠ 31) :
    run (loadWords value rd) s =
      some (s.moved rd value (loadWords value rd).length) := by
  have hfirst : run [(Insn.movz 0 (chunk value 0) rd).encode] s =
      some (s.moved rd (low (16 * (1 : BitVec 2).toNat) value) 1) :=
    run_encode.trans (congrArg some (exec_movz_first hrd))
  have hsecond {k : ℕ} : run (movkWords value rd 1)
      (s.moved rd (low (16 * (1 : BitVec 2).toNat) value) k) = some (s.moved rd
        (low (16 * (2 : BitVec 2).toNat) value) (k + (movkWords value rd 1).length)) :=
    run_movkWords hrd
  have hthird {k : ℕ} : run (movkWords value rd 2)
      (s.moved rd (low (16 * (2 : BitVec 2).toNat) value) k) = some (s.moved rd
        (low (16 * (3 : BitVec 2).toNat) value) (k + (movkWords value rd 2).length)) :=
    run_movkWords hrd
  have hlast {k : ℕ} : run (movkWords value rd 3)
      (s.moved rd (low (16 * (3 : BitVec 2).toNat) value) k) = some (s.moved rd
        (low 64 value) (k + (movkWords value rd 3).length)) :=
    run_movkWords hrd
  rw [loadWords, run_append, run_append, run_append, hfirst, Option.bind_some, hsecond,
    Option.bind_some, hthird, Option.bind_some, hlast, low_all]
  simp only [List.length_append, List.length_singleton]

theorem length_loadWords : (loadWords value rd).length ≤ 4 := by
  have hmovk (hw : BitVec 2) : (movkWords value rd hw).length ≤ 1 := by
    unfold movkWords
    split <;> simp
  have h1 := hmovk 1
  have h2 := hmovk 2
  have h3 := hmovk 3
  simp only [loadWords, List.length_append, List.length_singleton]
  omega

end Moves

end PongoOS.A64
