import PongoOS.Mm.State

/-!
# The physical page allocator

The functions of `mm.c` that own the page reference counters and the list of
free pages.  A free page stores its successor in its first word and its
predecessor in its second word.  Each loop over pages is a counted loop whose
body is a definition of its own.

The bound checks are those of the source: an index is refused when it is
greater than `ppages`, so index `ppages` itself, one past the last page,
passes.  `ppageList` is total, and `ppageList ppages` stands for whatever word
follows the array.
-/

namespace PongoOS

/-- `if (c) panic(msg)`. -/
def panicIf (c : Prop) [Decidable c] (msg : String) : Outcome Unit :=
  if c then .error (.panic msg) else .ok ()

@[simp] theorem panicIf_eq_ok {c : Prop} [Decidable c] {msg : String}
    {u : Unit} : panicIf c msg = .ok u ↔ ¬ c := by
  unfold panicIf
  split <;> simp_all

theorem panicIf_eq_error {c : Prop} [Decidable c] {msg : String} {e : Stop} :
    panicIf c msg = .error e ↔ c ∧ .panic msg = e := by
  unfold panicIf
  split <;> simp_all

namespace Mm

/-! ## Reading and writing a counter -/

def physGetEntry (s : Mm) (pa : ℕ) : Outcome ℕ := do
  let off := sub64 pa s.boot.physBase
  panicIf (off % pageSize ≠ 0)
    "phys_get_entry only works with aligned PAs (pa: %llx)"
  panicIf (s.ppages < off / pageSize) "OOB phys_get_entry: 0x%llx"
  pure (s.ppageList (off / pageSize))

def physSetEntry (s : Mm) (pa val : ℕ) : Outcome Mm := do
  let off := sub64 pa s.boot.physBase
  panicIf (off % pageSize ≠ 0)
    "phys_get_entry only works with aligned PAs (pa: %llx)"
  panicIf (s.ppages < off / pageSize) "OOB phys_set_entry: 0x%llx"
  pure (s.setEntry (off / pageSize) val)

/-! ## The list of free pages -/

def physUnlinkPage (i : ℕ) (s : Mm) : Outcome Mm := do
  panicIf (s.ppages < i) "OOB phys_unlink_contiguous: 0x%llx"
  let pa := s.pageAddr i
  let entry ← s.physGetEntry pa
  panicIf (refBits entry ≠ pageFree)
    "phys_unlink_contiguous: ppage (pa: %llx) is not free!"
  let paNext := s.mem pa
  let paPrev := s.mem (pa + 8)
  let s₁ ←
    (if paNext ≠ 0 then do
      let entry ← s.physGetEntry paNext
      panicIf (refBits entry ≠ pageFree)
        "phys_unlink_contiguous: ppage (next: %llx) is not free!"
      pure (s.store (paNext + 8) paPrev)
    else pure s : Outcome Mm)
  if paPrev ≠ 0 then do
    let entry ← s₁.physGetEntry paPrev
    panicIf (refBits entry ≠ pageFree)
      "phys_unlink_contiguous: ppage (prev: %llx) is not free!"
    pure (s₁.store paPrev paNext)
  else pure { s₁ with paHead := paNext }

def physUnlinkContiguous (pa size : ℕ) (s : Mm) : Outcome Mm :=
  if pa = 0 then .ok s
  else if pa < s.boot.physBase then .ok s
  else do
    let off := pa - s.boot.physBase
    let fpages := (size + 0x3fff) % 2 ^ 64 / pageSize
    panicIf (off % pageSize ≠ 0)
      "phys_unlink_contiguous only works with aligned PAs"
    Outcome.forRange physUnlinkPage (off / pageSize) fpages s

/-- The freed page becomes the head of the list. -/
def physPageWasFreed (pa : ℕ) (s : Mm) : Mm :=
  let s₁ := if s.paHead ≠ 0 then s.store (s.paHead + 8) pa else s
  let s₂ := (s₁.store pa s.paHead).store (pa + 8) 0
  { s₂ with paHead := pa, freePages := inc64 s.freePages }

/-! ## Wiring, freeing and counting references -/

def markPhysWiredPage (i : ℕ) (s : Mm) : Outcome Mm := do
  let entry ← s.physGetEntry (s.pageAddr i)
  panicIf (refBits entry ≠ pageFree)
    "mark_phys_wired: ppage (pa: %llx) is not free!"
  panicIf (s.ppages < i) "OOB mark_phys_wired: 0x%llx"
  let s₁ := s.setEntry i (withRefBits (s.ppageList i) pageWired)
  pure ((s₁.setFreePages (dec64 s.freePages)).setWiredPages
    (inc64 s.wiredPages))

def markPhysWired (pa size : ℕ) (s : Mm) : Outcome Mm := do
  let off := sub64 pa s.boot.physBase
  panicIf (off % pageSize ≠ 0)
    "mark_phys_wired only works with aligned PAs (pa: %llx)"
  Outcome.forRange markPhysWiredPage (off / pageSize) (size / pageSize) s

def physForceFreePage (i : ℕ) (s : Mm) : Outcome Mm := do
  panicIf (s.ppages < i) "OOB phys_force_free: 0x%llx"
  let s₁ :=
    if s.count i = pageWired then s.setWiredPages (dec64 s.wiredPages) else s
  let s₂ :=
    if s.count i ≠ pageFree then s₁.physPageWasFreed (s.pageAddr i) else s₁
  pure (s₂.setEntry i pageFree)

def physForceFree (pa size : ℕ) (s : Mm) : Outcome Mm := do
  let off := sub64 pa s.boot.physBase
  panicIf (off % pageSize ≠ 0) "phys_force_free only works with aligned PAs"
  Outcome.forRange physForceFreePage (off / pageSize) (size / pageSize) s

def physReferencePage (i : ℕ) (s : Mm) : Outcome Mm := do
  panicIf (s.ppages < i) "OOB phys_reference: 0x%llx"
  if s.count i ≠ pageWired then
    let s₁ :=
      if s.count i = pageFree then s.setFreePages (dec64 s.freePages) else s
    pure (s₁.setEntry i
      (withRefBits (s.ppageList i) (s.ppageList i + 1)))
  else pure s

def physReference (pa size : ℕ) (s : Mm) : Outcome Mm :=
  if pa = 0 then .ok s
  else if pa < s.boot.physBase then .ok s
  else do
    let off := pa - s.boot.physBase
    panicIf (off % pageSize ≠ 0) "phys_reference only works with aligned PAs"
    Outcome.forRange physReferencePage (off / pageSize) (size / pageSize) s

def physDereferencePage (i : ℕ) (s : Mm) : Outcome Mm := do
  panicIf (s.ppages < i) "OOB phys_dereference: 0x%llx"
  panicIf (s.count i = pageFree)
    "phys_dereference called on PAGE_FREE page @ 0x%llx"
  let s₁ := s.setEntry i
    (withRefBits (s.ppageList i) (s.ppageList i + 0xffffffff))
  pure (if s₁.count i = pageFree then s₁.physPageWasFreed (s.pageAddr i)
    else s₁)

def physDereference (pa size : ℕ) (s : Mm) : Outcome Mm :=
  if pa = 0 then .ok s
  else if pa < s.boot.physBase then .ok s
  else do
    let off := pa - s.boot.physBase
    panicIf (off % pageSize ≠ 0)
      "phys_dereference only works with aligned PAs (was passed %llx)"
    Outcome.forRange physDereferencePage (off / pageSize) (size / pageSize) s

/-! ## Initialisation -/

/-- The loop of `alloc_init` that wires pages `0, ..., n - 1`. -/
def wirePages : ℕ → Mm → Mm
  | 0, s => s
  | n + 1, s =>
      let s₁ := wirePages n s
      (s₁.setEntry n pageWired).setWiredPages (inc64 s₁.wiredPages)

/-- The end of the `ppage_list` array, rounded up to a page. -/
def earlyHeapEnd (s : Mm) : ℕ :=
  (s.earlyHeapBase + 4 * (s.boot.memSize / pageSize) + 0x3fff)
    / pageSize * pageSize

def initialStaticBase (s : Mm) : ℕ :=
  sub64 (s.boot.topOfKernelData + kCacheableView) 0x800000000
    / pageSize * pageSize

def staticWindowEnd : ℕ := 0x417fe0000

def allocStaticHardcap (s : Mm) : ℕ :=
  (s.initialStaticBase + 1024 * 1024 * 64) % 2 ^ 64

def allocHeapBase (s : Mm) : ℕ :=
  (s.earlyHeapEnd + 0x7fff) / pageSize * pageSize

/-- In C `-` binds tighter than `&`, so `& (~0x3fff) - 1024*1024` is one mask:
it clears the page offset and bit 20. -/
def allocHeapEnd (s : Mm) : ℕ :=
  (phystokv s.boot.physBase + s.boot.memSize + 0x3fff) &&&
    0xffffffffffefc000

@[simps]
def setPpages (s : Mm) (n : ℕ) : Mm := { s with ppages := n }

@[simps]
def setStaticWindow (s : Mm) (base windowEnd : ℕ) : Mm :=
  { s with
    allocStaticBase := base
    allocStaticCurrent := base
    allocStaticEnd := windowEnd }

@[simps]
def setAllocStaticEnd (s : Mm) (e : ℕ) : Mm := { s with allocStaticEnd := e }

/-- `alloc_init` up to the point where it starts to free pages. -/
def afterWiring (s : Mm) : Mm :=
  let ppages := s.boot.memSize / pageSize
  (wirePages ppages (s.setPpages ppages)).setStaticWindow
    s.initialStaticBase staticWindowEnd

/-- `alloc_init`, in a build without an autoboot block. -/
def allocInit (s : Mm) : Outcome Mm :=
  if s.allocStaticBase ≠ 0 then .ok s
  else do
    let s₁ ←
      (if s.allocStaticHardcap < staticWindowEnd then do
        let pa ← vatophysStatic s.allocStaticHardcap
        let s₁ ← physForceFree pa
          (staticWindowEnd - s.allocStaticHardcap) s.afterWiring
        pure (s₁.setAllocStaticEnd s.allocStaticHardcap)
      else pure s.afterWiring : Outcome Mm)
    let pa ← vatophysStatic s.allocHeapBase
    physForceFree pa (sub64 s.allocHeapEnd s.allocHeapBase) s₁

/-! ## Allocation -/

/-- Drop the head of the list; its successor has no predecessor now. -/
def popHead (s : Mm) : Mm :=
  let s₁ := { s with paHead := s.mem s.paHead }
  if s₁.paHead ≠ 0 then s₁.store (s₁.paHead + 8) 0 else s₁

/-- `ppage_alloc`, with the page it returns. -/
def ppageAlloc (s : Mm) : Outcome (ℕ × Mm) := do
  let s₀ ← (if s.allocStaticBase = 0 then s.allocInit else pure s : Outcome Mm)
  if s₀.paHead ≠ 0 then do
    let rv := s₀.paHead
    let s₁ ← physReference rv pageSize (s₀.popHead.bzero rv pageSize)
    pure (rv, s₁)
  else .error (.panic "ppage_alloc: OOM")

/-- The scan of `alloc_phys` from page `i` over the next `n` pages.  `found` is
the length of the run of free pages that ends just before page `i`, and `rv`
the address where it began. -/
def allocPhysScan (s : Mm) (npages : ℕ) : ℕ → ℕ → ℕ → ℕ → Option ℕ
  | _, 0, _, _ => none
  | i, n + 1, found, rv =>
      let rv' :=
        if s.ppageList i = pageFree ∧ found = 0 then s.pageAddr i else rv
      let found' := if s.ppageList i = pageFree then found + 1 else 0
      if found' = npages then some rv'
      else allocPhysScan s npages (i + 1) n found' rv'

/-- The pages that `alloc_phys(size)` looks for.  `size` is a 32-bit argument
and is rounded up in 32 bits. -/
def allocPhysPages (size : ℕ) : ℕ := (size + 0x3fff) % 2 ^ 32 / pageSize

/-- `alloc_phys`, with the base of the run it returns. -/
def allocPhys (size : ℕ) (s : Mm) : Outcome (ℕ × Mm) := do
  let s₀ ← (if s.allocStaticBase = 0 then s.allocInit else pure s : Outcome Mm)
  let npages := allocPhysPages size
  if npages * pageSize = pageSize then s₀.ppageAlloc
  else
    match s₀.allocPhysScan npages 0 s₀.ppages 0 0 with
    | none => .error (.panic "alloc_phys: OOM")
    | some rv => do
        panicIf (rv = 0) "alloc_phys: returning NULL?? (size %llx, npages %llx, found_pages %llx)"
        let s₁ ← physUnlinkContiguous rv (npages * pageSize) s₀
        let s₂ ← physReference rv (npages * pageSize) s₁
        pure (rv, s₂)

def freePhys (pa size : ℕ) (s : Mm) : Outcome Mm := physDereference pa size s

def ppageFree (page : ℕ) (s : Mm) : Outcome Mm :=
  physDereference page pageSize s

def pageFreeKva (page : ℕ) (s : Mm) : Outcome Mm := do
  let pa ← vatophysStatic page
  physDereference pa pageSize s

end Mm

end PongoOS
