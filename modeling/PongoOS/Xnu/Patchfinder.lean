import Mathlib.Logic.Function.Basic
import PongoOS.Support.ByteMemory

/-!
# The patchfinder without the just-in-time compiler

A patch of a patchset is a pattern with a callback.  Applying the patchset to a
range visits the elements of the range one by one and calls the callbacks of the
patches whose pattern is there.  A callback may write to memory and enable or
disable patches.
-/

namespace PongoOS

/-! ## Patches -/

/-- `accesstype`. -/
inductive AccessType where
  | bits8
  | bits16
  | bits32
  | bits64
deriving DecidableEq, Repr

/-- The bytes of an element. -/
def AccessType.width : AccessType → ℕ
  | .bits8 => 1
  | .bits16 => 2
  | .bits32 => 4
  | .bits64 => 8

/-- The element at an address. -/
def element (t : AccessType) (m : ByteMemory) (addr : ℕ) : UInt64 :=
  UInt64.ofNat (littleEndian (m.bytesAt addr t.width))

/-- What a callback can change: memory, and fields of the patches, which go by
their addresses. -/
structure PfWorld where
  mem : ByteMemory
  shouldMatch : ℕ → Bool
  hasFired : ℕ → Bool

/-- One of `pairs`. -/
structure PfPair where
  value : UInt64
  mask : UInt64
deriving DecidableEq, Repr

/-- `struct xnu_pf_maskmatch`. -/
structure PfPatch where
  addr : ℕ
  callback : ℕ → PfWorld → Bool × PfWorld
  isRequired : Bool
  name : String
  pairs : List PfPair

/-- `xnu_pf_range_t`. -/
structure PfRange where
  cacheableBase : ℕ
  size : ℕ
deriving DecidableEq, Repr

/-- A run of the patchfinder, with the patches whose callbacks were called and
where. -/
structure PfScan where
  world : PfWorld
  calls : List (ℕ × ℕ)

/-- `xnu_pf_patchset_t`. -/
structure PfPatchset where
  patches : List PfPatch
  jitMatcher : Option (ℕ → ℕ → PfScan → PfScan)
  accesstype : AccessType
  isRequired : Bool

/-! ## Matching -/

/-- The body of `xnu_pf_maskmatch_match_8` and its three copies.  Patterns of fewer
than eight pairs are compared with what was read before. -/
def maskmatchMatch (t : AccessType) (p : PfPatch) (preread : List UInt64)
    (m : ByteMemory) (stream : ℕ) : Bool :=
  p.pairs.zipIdx.all fun (pair, i) =>
    (if p.pairs.length < 8 then preread.getD i 0
      else element t m (stream + i * t.width)) &&& pair.mask == pair.value

def xnuPfMaskmatchMatch8 := maskmatchMatch .bits8

def xnuPfMaskmatchMatch16 := maskmatchMatch .bits16

def xnuPfMaskmatchMatch32 := maskmatchMatch .bits32

def xnuPfMaskmatchMatch64 := maskmatchMatch .bits64

/-- The callback is called. -/
def PfPatch.call (p : PfPatch) (stream : ℕ) (s : PfScan) : PfScan :=
  let (fired, world) := p.callback stream s.world
  { world :=
      if fired then
        { world with hasFired := Function.update world.hasFired p.addr true }
      else world
    calls := s.calls ++ [(p.addr, stream)] }

def xnuPfMaskmatchMatch (t : AccessType) (p : PfPatch) (preread : List UInt64)
    (stream : ℕ) (s : PfScan) : PfScan :=
  let val :=
    match t with
    | .bits8 => xnuPfMaskmatchMatch8 p preread s.world.mem stream
    | .bits16 => xnuPfMaskmatchMatch16 p preread s.world.mem stream
    | .bits32 => xnuPfMaskmatchMatch32 p preread s.world.mem stream
    | .bits64 => xnuPfMaskmatchMatch64 p preread s.world.mem stream
  if val then p.call stream s else s

/-! ## The loops -/

/-- What is done at one element, with the window of elements that were read. -/
def applyAt (t : AccessType) (patches : List PfPatch) (base : ℕ)
    (s : PfScan × List UInt64) (index : ℕ) : PfScan × List UInt64 :=
  let stream := base + index * t.width
  let scan := patches.foldl (fun scan p =>
    if scan.world.shouldMatch p.addr then xnuPfMaskmatchMatch t p s.2 stream scan
    else scan) s.1
  (scan, s.2.tail ++
    [element t scan.world.mem (base + (index + 8) % 2 ^ 32 * t.width)])

/-- The body of `xnu_pf_apply_8` and its three copies. -/
def applyIters (t : AccessType) (iters : ℕ) (range : PfRange)
    (patches : List PfPatch) (w : PfWorld) : PfScan :=
  let reads := (List.range 8).map fun i =>
    element t w.mem (range.cacheableBase + i * t.width)
  ((List.range iters).foldl (applyAt t patches range.cacheableBase)
    (⟨w, []⟩, reads)).1

def xnuPfApply8 (range : PfRange) : List PfPatch → PfWorld → PfScan :=
  applyIters .bits8 (range.size % 2 ^ 32) range

def xnuPfApply16 (range : PfRange) : List PfPatch → PfWorld → PfScan :=
  applyIters .bits16 ((range.size >>> 1) % 2 ^ 32) range

def xnuPfApply32 (range : PfRange) : List PfPatch → PfWorld → PfScan :=
  applyIters .bits32 ((range.size >>> 2) % 2 ^ 32) range

def xnuPfApply64 (range : PfRange) : List PfPatch → PfWorld → PfScan :=
  applyIters .bits64 ((range.size >>> 2) % 2 ^ 32) range

/-- Returns what was called, and whether a required patch is missing. -/
def xnuPfApply (range : PfRange) (ps : PfPatchset) (w : PfWorld) :
    PfScan × Outcome Unit :=
  let scan :=
    match ps.jitMatcher with
    | some jit =>
        jit range.cacheableBase (range.cacheableBase + range.size) ⟨w, []⟩
    | none =>
        match ps.accesstype with
        | .bits8 => xnuPfApply8 range ps.patches w
        | .bits16 => xnuPfApply16 range ps.patches w
        | .bits32 => xnuPfApply32 range ps.patches w
        | .bits64 => xnuPfApply64 range ps.patches w
  let missing := ps.patches.find? fun p =>
    p.isRequired && !scan.world.hasFired p.addr
  (scan,
    match ps.isRequired, missing with
    | true, some p => .error (.panic ("Missing patch: " ++ p.name))
    | _, _ => .ok ())

end PongoOS
