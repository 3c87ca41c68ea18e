import Mathlib.Data.List.Basic
import Mathlib.Tactic.Common
import PongoOS.Xnu.Patchfinder

/-!
# The instructions of the just-in-time compiler

The compiler writes words to a buffer.  A place in the buffer is counted in words
from its start; what is in front of the buffer has negative numbers.
-/

namespace PongoOS

/-- The words that are written, and where. -/
abbrev JitWrites := List (ℤ × UInt32)

/-- The words from `at` on. -/
def wordsAt (start : ℤ) (ws : List UInt32) : JitWrites :=
  ws.zipIdx.map fun (word, i) => (start + i, word)

/-- The places that are written. -/
def JitWrites.places (w : JitWrites) : List ℤ := w.map Prod.fst

/-! ## Encoders -/

/-- `NOP`. -/
def nopInsn : UInt32 := 0xd503201f

/-- `xnu_pf_b_emit`, for a target that is `delta` words away. -/
def xnuPfB (delta : ℤ) : UInt32 :=
  UInt32.ofInt delta &&& 0x03ffffff ||| 0x14000000

/-- `xnu_pf_b_eq_emit`. -/
def xnuPfBEq (delta : ℤ) : UInt32 :=
  (UInt32.ofInt delta <<< 5) &&& 0xFFFFE0 ||| 0x54000000

/-- `xnu_pf_b_ne_emit`. -/
def xnuPfBNe (delta : ℤ) : UInt32 :=
  (UInt32.ofInt delta <<< 5) &&& 0xFFFFE0 ||| 0x54000001

/-- `xnu_pf_cmp_emit`. -/
def xnuPfCmp (reg1 reg2 : UInt8) : UInt32 :=
  (0xEB00001F : UInt32) ||| (reg1 &&& 0x1F).toUInt32 <<< 5 |||
    (reg2 &&& 0x1F).toUInt32 <<< 16

/-- `xnu_pf_and_emit`. -/
def xnuPfAnd (reg1 reg2 reg3 : UInt8) : UInt32 :=
  (0x8A000000 : UInt32) ||| (reg1 &&& 0x1F).toUInt32 ||| (reg2 &&& 0x1F).toUInt32 <<< 5 |||
    (reg3 &&& 0x1F).toUInt32 <<< 16

/-- One of the four instructions that load a constant. -/
def movInsn (opcode : UInt64) (reg : UInt8) (chunk : UInt64) : UInt32 :=
  ((opcode ||| chunk) <<< 5 ||| (reg &&& 0x1f).toUInt64).toUInt32

/-- `xnu_pf_imm64_load_emit`. -/
def xnuPfImm64Load (reg : UInt8) (value : UInt64) : List UInt32 :=
  let chunk1 := value >>> 16 &&& 0xFFFF
  let chunk2 := value >>> 32 &&& 0xFFFF
  let chunk3 := value >>> 48 &&& 0xFFFF
  [movInsn 0x6940000 reg (value &&& 0xFFFF)] ++
    (if chunk1 ≠ 0 then [movInsn 0x7950000 reg chunk1] else []) ++
    (if chunk2 ≠ 0 then [movInsn 0x7960000 reg chunk2] else []) ++
    (if chunk3 ≠ 0 then [movInsn 0x7970000 reg chunk3] else [])

/-! ## The code of `xnu.S` -/

/-- The pieces of `xnu.S`, one word for each instruction.  A piece that ends behind
an `.align 3` has an even number of words. -/
structure JitAsm where
  head : List UInt32
  headLoad : AccessType → List UInt32
  iterLoad : AccessType → List UInt32
  iterEnd : List UInt32
  slowpath : List UInt32
  head_length : head.length = 10
  headLoad_length : ∀ t, (headLoad t).length = 11
  iterLoad_length : ∀ t, (iterLoad t).length = 10
  iterEnd_length : iterEnd.length = 8
  slowpath_length : slowpath.length = 12

/-- `pf_jit_slowpath_next - pf_jit_slowpath_start`: the code and two pointers. -/
def slowpathStubSize : ℕ := 16

/-- The words of a pointer. -/
def pointerWords (p : UInt64) : List UInt32 :=
  [p.toUInt32, (p >>> 32).toUInt32]

/-! ## Places -/

section Places

variable {start : ℤ} {ws : List UInt32} {a : ℤ}

theorem mem_places_wordsAt :
    a ∈ (wordsAt start ws).places ↔ start ≤ a ∧ a < start + ws.length := by
  simp only [JitWrites.places, wordsAt, List.map_map, List.mem_map,
    Function.comp_apply, Prod.exists]
  constructor
  · rintro ⟨word, i, hmem, rfl⟩
    have hlt := (List.getElem?_eq_some_iff.1
      (List.mk_mem_zipIdx_iff_getElem?.1 hmem)).1
    omega
  · rintro ⟨hle, hlt⟩
    have hindex : (a - start).toNat < ws.length := by omega
    exact ⟨ws[(a - start).toNat], (a - start).toNat,
      List.mk_mem_zipIdx_iff_getElem?.2 (List.getElem?_eq_getElem hindex),
      by omega⟩

theorem mem_places_singleton {b : ℤ} {word : UInt32} :
    a ∈ JitWrites.places [(b, word)] ↔ a = b :=
  List.mem_singleton

theorem places_append {w w' : JitWrites} :
    (w ++ w').places = w.places ++ w'.places :=
  List.map_append

end Places

end PongoOS
