import Mathlib.Data.Finset.Basic
import PongoOS.Mm.MapRange

/-!
# Address spaces

`struct vm_space` with its table pages, its address space identifier and the
bitmap of its managed range.  The structures come from `malloc`: `live` is the
set of addresses where one is allocated, and the functions that allocate take
the address they are given as an argument.  TLB maintenance leaves no trace in
the model.
-/

namespace PongoOS

/-- `TASK_REFCOUNT_GLOBAL`: an object with this count is never freed. -/
def refcountGlobal : ℕ := 0x7fffffff

def vmSpaceBase : ℕ := 0xfffffffe00000000
def vmSpaceSize : ℕ := 0x100000000
def vmSpaceEnd : ℕ := vmSpaceBase + vmSpaceSize

/-- `PAGING_INFO_ALLOC_ON_FAULT_MAGIC`. -/
def allocOnFaultMagic : ℕ := 0xefef0008

/-- `err_t`. -/
inductive KernResult where
  | success
  | failure
  | vmOom
deriving DecidableEq, Repr

/-- `vm_flags_t`. -/
structure VmFlags where
  fixed : Bool
  nomap : Bool
deriving DecidableEq, Repr

namespace Mm

/-! ## Table pages -/

def granule (s : Mm) : Granule := if s.is16k then .kb16 else .kb4

@[simps]
def setTtbFreelist (s : Mm) (n : ℕ) : Mm := { s with ttbFreelist := n }

/-- `ttbpage_free`: the first word of a page on the list is the next one. -/
def ttbpageFree (page : ℕ) (s : Mm) : Mm :=
  (s.store page s.ttbFreelist).setTtbFreelist (phystokv page)

/-- `ttbpage_alloc`.  Without a recycled page a whole page is taken; under the
4 KiB granule its other three quarters go to the list. -/
def ttbpageAlloc (s : Mm) : Outcome (ℕ × Mm) :=
  if s.ttbFreelist ≠ 0 then do
    let page ← vatophysStatic s.ttbFreelist
    pure (page, (s.setTtbFreelist (s.mem page)).bzero page s.granule.pgsz)
  else do
    let (page, s₁) ← s.ppageAlloc
    if s.is16k then pure (page, s₁)
    else
      pure (page, ttbpageFree (page + 0x3000)
        (ttbpageFree (page + 0x2000) (ttbpageFree (page + 0x1000) s₁)))

/-- One entry of a table of level `k`.  `walk` is the call for the table it
links. -/
def ttbpageFreeEntry (g : Granule) (walk : ℕ → Mm → Outcome Mm) (k base i : ℕ)
    (s : Mm) : Outcome Mm :=
  let tte := s.mem (base + 8 * i)
  if ¬ Tte.valid tte then pure s
  else if Tte.table tte ∧ k ≠ 0 then do
    let s₁ ← walk (Tte.oaAddr tte) s
    pure (ttbpageFree (Tte.oaAddr tte) s₁)
  else if Tte.table tte ↔ k = 0 then
    physDereference (pageFloor (Tte.oaAddr tte))
      (pageSpan (Tte.oaAddr tte) (2 ^ (g.ttBits + 3 + k * g.ttBits))) s
  else pure s

/-- `ttbpage_free_walk_recursive`, with `levels = k`. -/
def ttbpageFreeWalkRecursive (g : Granule) : ℕ → ℕ → Mm → Outcome Mm
  | 0, base, s =>
      Outcome.forRange (ttbpageFreeEntry g (fun _ s => .ok s) 0 base) 0
        (g.pgsz / 8) s
  | k + 1, base, s =>
      Outcome.forRange
        (ttbpageFreeEntry g (ttbpageFreeWalkRecursive g k) (k + 1) base) 0
        (g.pgsz / 8) s

/-- `ttbpage_free_walk`. -/
def ttbpageFreeWalk (base : ℕ) (s : Mm) : Outcome Mm := do
  let g := s.granule
  let bits := 64 - g.tsz - (g.ttBits + 3)
  let s₁ ← ttbpageFreeWalkRecursive g (bits / g.ttBits - 1) base s
  pure (ttbpageFree base s₁)

end Mm

/-! ## State -/

/-- `struct vm_space`.  Its base and its end are the same for all spaces. -/
structure VmSpace where
  ttbr0 : ℕ
  ttbr1 : ℕ
  vmSpaceTable : ℕ → Bool
  refcount : ℕ
  parent : ℕ
  asid : ℕ

/-- The memory manager with its address spaces. -/
structure Vm where
  mm : Mm
  asidTable : ℕ → Bool
  space : ℕ → VmSpace
  live : Finset ℕ

namespace Vm

/-- The address of `kernel_vm_space`. -/
def kernel : ℕ := 0x100000000

@[simps]
def setMm (s : Vm) (mm : Mm) : Vm := { s with mm := mm }

@[simps]
def setAsid (s : Vm) (i : ℕ) (b : Bool) : Vm :=
  { s with asidTable := Function.update s.asidTable i b }

@[simps]
def setSpace (s : Vm) (a : ℕ) (v : VmSpace) : Vm :=
  { s with space := Function.update s.space a v }

@[simps]
def setLive (s : Vm) (l : Finset ℕ) : Vm := { s with live := l }

def setRefcount (s : Vm) (a n : ℕ) : Vm :=
  s.setSpace a { s.space a with refcount := n }

/-! ## Identifiers -/

/-- `asid_alloc`. -/
def asidAlloc (s : Vm) : Outcome (ℕ × Vm) :=
  match (List.range 256).find? fun i => ¬ s.asidTable i with
  | some i => .ok (i * 2 ^ 48, s.setAsid i true)
  | none => .error (.panic
      "asid_alloc: out of ASIDs, are we leaking vm_spaces?")

/-- `asid_free`. -/
def asidFree (asid : ℕ) (s : Vm) : Outcome Vm := do
  let index := asid / 2 ^ 48 % 0x100
  panicIf (¬ s.asidTable index) "ASID was not allocated?!"
  pure (s.setAsid index false)

/-! ## Lifetime -/

/-- `vm_reference`. -/
def vmReference (a : ℕ) (s : Vm) : Vm :=
  if a = 0 then s
  else if (s.space a).refcount = refcountGlobal then s
  else s.setRefcount a (((s.space a).refcount + 1) % 2 ^ 32)

/-- `vm_create`.  `a` is the address that `malloc` returns. -/
def vmCreate (parent a : ℕ) (s : Vm) : Outcome Vm := do
  let ttbr0 :=
    if parent ≠ 0 then (s.space parent).ttbr0 else (s.space kernel).ttbr0
  let (ttbr1, mm) ← s.mm.ttbpageAlloc
  let (asid, s₁) ← (s.setMm mm).asidAlloc
  let s₂ := s₁.vmReference parent
  pure ((s₂.setLive (insert a s₂.live)).setSpace a
    { ttbr0 := ttbr0
      ttbr1 := ttbr1
      vmSpaceTable := fun _ => false
      refcount := 1
      parent := parent
      asid := asid })

/-- `vm_release` with a bound on the length of the parent chain. -/
def vmRelease : ℕ → ℕ → Vm → Outcome Vm
  | 0, _, _ => .error .outOfFuel
  | fuel + 1, a, s =>
      if a = 0 then .ok s
      else if (s.space a).refcount = refcountGlobal then .ok s
      else do
        let refcount := (s.space a).refcount
        let s₁ := s.setRefcount a ((refcount + 0xffffffff) % 2 ^ 32)
        if refcount = 1 then do
          panicIf ((s₁.space a).parent = a) "circular reference"
          let s₂ ← vmRelease fuel (s₁.space a).parent s₁
          let mm ← s₂.mm.ttbpageFreeWalk
            ((s₂.space a).ttbr1 &&& 0xfffffffff000)
          let s₃ ← (s₂.setMm mm).asidFree (s₂.space a).asid
          pure (s₃.setLive (s₃.live.erase a))
        else pure s₁

/-! ## Mappings -/

/-- `vm_space_map_page_physical_prot`. -/
def vmSpaceMapPagePhysicalProt (a vaddr physical : ℕ) (prot : Prot) (s : Vm) :
    Outcome Vm := do
  let prot := { prot with kernOnly := prot.kernOnly || a == kernel }
  let args : MapArgs :=
    { tt0 := (s.space a).ttbr1
      sh := if prot.device then 3 else 2
      attridx := if prot.device then 0 else 1
      overwrite := true
      pagingInfo := if prot.pagingInfo then physical else 0
      prot := { prot with device := false }
      isTt1 := true }
  let pa := if prot.pagingInfo then 0 else physical
  if vaddr / 2 ^ 60 % 8 ≠ 0 then do
    panicIf (physical % 0x4000 ≠ 0 ∧ ¬ prot.pagingInfo)
      "passed unaligned PA %llx to vm_space_map_page_physical_prot"
    let mm ← Mm.mapRangeMap Mm.ttbpageAlloc s.mm.granule args vaddr pa 0x4000
      s.mm
    -- consume reference (map_range_map will take a reference if successful)
    let mm ←
      (if prot.pagingInfo then pure mm
      else Mm.physDereference physical 0x4000 mm : Outcome Mm)
    pure (s.setMm mm)
  else do
    let mm ← Mm.mapRangeMap Mm.ttbpageAlloc s.mm.granule
      { args with tt0 := (s.space a).ttbr0, isTt1 := false } vaddr pa 0x4000
      s.mm
    pure (s.setMm mm)

/-- `vm_space_table[i >> 3] |= 1 << (i & 7)` and its inverse. -/
def setTableBit (a i : ℕ) (b : Bool) (s : Vm) : Vm :=
  s.setSpace a
    { s.space a with
      vmSpaceTable := Function.update (s.space a).vmSpaceTable i b }

/-- `((size + PAGE_MASK) & ~PAGE_MASK) / PAGE_SIZE`. -/
def sizePages (size : ℕ) : ℕ := (size + 0x3fff) % 2 ^ 64 / pageSize

/-- The scan for free pages, `n` pages from page `i` on.  `found` is the number
of free pages just before page `i` and `base` the first of them. -/
def vmScan (table : ℕ → Bool) (pagecount : ℕ) : ℕ → ℕ → ℕ → ℕ → Option ℕ
  | 0, _, _, _ => none
  | n + 1, i, found, base =>
      let base' := if ¬ table i ∧ found = 0 then i else base
      let found' := if table i then 0 else (found + 1) % 2 ^ 32
      if found' = pagecount then some base'
      else vmScan table pagecount n ((i + 1) % 2 ^ 32) found' base'

/-- `for (uint32_t i = base; i < base + count; i++)`: how often it runs. -/
def loopLength (base count : ℕ) : ℕ := (base + count) % 2 ^ 32 - base

def allOnFaultProt : Prot := ⟨false, false, false, false, false, true⟩

def noProt : Prot := ⟨false, false, false, false, false, false⟩

/-- Reserve page `i` of the managed range. -/
def vmAllocatePage (a : ℕ) (flags : VmFlags) (i : ℕ) (s : Vm) :
    Outcome Vm := do
  let s₁ ←
    (if flags.nomap then pure s
    else s.vmSpaceMapPagePhysicalProt a
      (vmSpaceBase + i * pageSize % 2 ^ 32) allocOnFaultMagic allOnFaultProt
        : Outcome Vm)
  pure (s₁.setTableBit a i true)

/-- `vm_allocate`, with the value left in `*addr`. -/
def vmAllocate (a addr size : ℕ) (flags : VmFlags) (s : Vm) :
    Outcome (KernResult × ℕ × Vm) :=
  let pagecount := sizePages size % 2 ^ 32
  if pagecount = 0 then .ok (.success, addr, s)
  else
    let scanSize :=
      if flags.fixed then
        if vmSpaceEnd < sub64 addr vmSpaceBase then 0
        else sizePages size
      else vmSpaceSize / pageSize
    -- `i` has 32 bits: it never gets to a larger `scanSize`, and a run that
    -- two rounds over all its values do not find is never found
    match vmScan (s.space a).vmSpaceTable pagecount
        (if scanSize < 2 ^ 32 then scanSize else 2 ^ 33) 0 0 0 with
    | some base => do
        let s₁ ← Outcome.forRange (fun i => vmAllocatePage a flags i) base
          (loopLength base pagecount) s
        pure (.success, vmSpaceBase + base * pageSize % 2 ^ 32, s₁)
    | none =>
        if scanSize < 2 ^ 32 then .ok (.vmOom, 0, s) else .error .outOfFuel

/-- Release page `i` of the managed range. -/
def vmDeallocatePage (a i : ℕ) (s : Vm) : Outcome Vm := do
  let s₁ ← s.vmSpaceMapPagePhysicalProt a
    (vmSpaceBase + i * pageSize % 2 ^ 32) 0 noProt
  pure (s₁.setTableBit a i false)

/-- `vm_deallocate`. -/
def vmDeallocate (a addr size : ℕ) (s : Vm) : Outcome (KernResult × Vm) :=
  let offset := sub64 addr vmSpaceBase
  if vmSpaceEnd < (offset + size) % 2 ^ 64 then .ok (.vmOom, s)
  else
    let base := offset / pageSize % 2 ^ 32
    let n := loopLength base (sizePages size % 2 ^ 32)
    if (List.range' base n).all (s.space a).vmSpaceTable then do
      let s₁ ← Outcome.forRange (fun i => vmDeallocatePage a i) base n s
      pure (.success, s₁)
    else .ok (.failure, s)

end Vm

end PongoOS
