import Mathlib.Logic.Function.Basic
import Mathlib.Tactic.Simps.Basic
import PongoOS.Support.Outcome
import PongoOS.Support.Words

/-!
# The memory manager's state

`Mm` collects the globals of the memory manager: the page reference counters
`ppage_list` with their totals, the head of the list of free pages, the bounds
of the static window, and the physical memory itself, in which the links of
the free list and the translation tables are stored.

Addresses and counters are natural numbers; where the code relies on 64-bit
wrap-around the wrap is written out.  Memory is read in 64-bit words, named by
the byte address of the word.  There is one core and every function below runs
with interrupts masked, so `disable_interrupts` and `enable_interrupts` leave
no trace here.
-/

namespace PongoOS

/-! ## Constants -/

/-- `PAGE_SIZE`: 16 KiB, whatever the translation granule. -/
def pageSize : ℕ := 0x4000

def kCacheableView : ℕ := 0x400000000

def pageFree : ℕ := 0
def pageWired : ℕ := 0xffffff

/-- The `PAGE_REFBITS` of a `ppage_list` entry. -/
def refBits (entry : ℕ) : ℕ := entry % 0x1000000

/-- `(entry & ~PAGE_REFBITS) | (count & PAGE_REFBITS)`. -/
def withRefBits (entry count : ℕ) : ℕ :=
  entry / 0x1000000 * 0x1000000 + count % 0x1000000

@[simp] theorem refBits_withRefBits (entry count : ℕ) :
    refBits (withRefBits entry count) = refBits count := by
  unfold refBits withRefBits
  omega

@[simp] theorem refBits_pageFree : refBits pageFree = pageFree := rfl

@[simp] theorem refBits_pageWired : refBits pageWired = pageWired := rfl

/-! ## State -/

/-- The fields of `gBootArgs` used by the memory manager.  The loader describes
RAM that does not start at address zero and does not wrap around the address
space. -/
structure BootArgs where
  physBase : ℕ
  memSize : ℕ
  topOfKernelData : ℕ
  physBase_pos : 0 < physBase
  ram_fits : physBase + memSize < 2 ^ 64

structure Mm where
  boot : BootArgs
  earlyHeapBase : ℕ
  is16k : Bool
  mem : ℕ → ℕ
  ppageList : ℕ → ℕ
  ppages : ℕ
  paHead : ℕ
  freePages : ℕ
  wiredPages : ℕ
  allocStaticBase : ℕ
  allocStaticCurrent : ℕ
  allocStaticEnd : ℕ
  ttbFreelist : ℕ
  ttbAllocBase : ℕ

namespace Mm

/-- A 64-bit store to physical memory. -/
def store (s : Mm) (addr val : ℕ) : Mm :=
  { s with mem := Function.update s.mem addr val }

/-- `bzero` of `len` bytes. -/
def bzero (s : Mm) (addr len : ℕ) : Mm :=
  { s with mem := fun a => if addr ≤ a ∧ a < addr + len then 0 else s.mem a }

def setEntry (s : Mm) (i entry : ℕ) : Mm :=
  { s with ppageList := Function.update s.ppageList i entry }

@[simps]
def setTtbAllocBase (s : Mm) (n : ℕ) : Mm := { s with ttbAllocBase := n }

@[simps]
def setFreePages (s : Mm) (n : ℕ) : Mm := { s with freePages := n }

@[simps]
def setWiredPages (s : Mm) (n : ℕ) : Mm := { s with wiredPages := n }

/-- The physical address of page `i`: `(i << 14) + gBootArgs->physBase`. -/
def pageAddr (s : Mm) (i : ℕ) : ℕ := s.boot.physBase + i * pageSize

/-- The `PAGE_REFBITS` of page `i`. -/
def count (s : Mm) (i : ℕ) : ℕ := refBits (s.ppageList i)

section Fields

variable (s : Mm) (a v : ℕ)

@[simp] theorem store_ppageList : (s.store a v).ppageList = s.ppageList := rfl
@[simp] theorem store_boot : (s.store a v).boot = s.boot := rfl
@[simp] theorem store_ppages : (s.store a v).ppages = s.ppages := rfl
@[simp] theorem store_paHead : (s.store a v).paHead = s.paHead := rfl
@[simp] theorem store_freePages : (s.store a v).freePages = s.freePages := rfl
@[simp] theorem store_wiredPages :
    (s.store a v).wiredPages = s.wiredPages := rfl
@[simp] theorem store_is16k : (s.store a v).is16k = s.is16k := rfl
@[simp] theorem store_ttbFreelist :
    (s.store a v).ttbFreelist = s.ttbFreelist := rfl
@[simp] theorem store_allocStaticBase :
    (s.store a v).allocStaticBase = s.allocStaticBase := rfl
@[simp] theorem store_pageAddr (i : ℕ) :
    (s.store a v).pageAddr i = s.pageAddr i := rfl
@[simp] theorem store_count (i : ℕ) : (s.store a v).count i = s.count i := rfl

@[simp] theorem store_mem_self : (s.store a v).mem a = v := by
  simp [store]

theorem store_mem_of_ne {b : ℕ} (hb : b ≠ a) :
    (s.store a v).mem b = s.mem b := by
  simp [store, hb]

@[simp] theorem setEntry_mem : (s.setEntry a v).mem = s.mem := rfl
@[simp] theorem setEntry_boot : (s.setEntry a v).boot = s.boot := rfl
@[simp] theorem setEntry_ppages : (s.setEntry a v).ppages = s.ppages := rfl
@[simp] theorem setEntry_paHead : (s.setEntry a v).paHead = s.paHead := rfl
@[simp] theorem setEntry_freePages :
    (s.setEntry a v).freePages = s.freePages := rfl
@[simp] theorem setEntry_wiredPages :
    (s.setEntry a v).wiredPages = s.wiredPages := rfl
@[simp] theorem setEntry_is16k : (s.setEntry a v).is16k = s.is16k := rfl
@[simp] theorem setEntry_pageAddr (i : ℕ) :
    (s.setEntry a v).pageAddr i = s.pageAddr i := rfl
@[simp] theorem setEntry_count_self :
    (s.setEntry a v).count a = refBits v := by
  simp [setEntry, count]

theorem setEntry_count_of_ne {i : ℕ} (hi : i ≠ a) :
    (s.setEntry a v).count i = s.count i := by
  simp [setEntry, count, hi]

theorem setEntry_ppageList_self : (s.setEntry a v).ppageList a = v := by
  simp [setEntry]

theorem setEntry_ppageList_of_ne {i : ℕ} (hi : i ≠ a) :
    (s.setEntry a v).ppageList i = s.ppageList i := by
  simp [setEntry, hi]

@[simp] theorem bzero_boot : (s.bzero a v).boot = s.boot := rfl
@[simp] theorem bzero_ppages : (s.bzero a v).ppages = s.ppages := rfl
@[simp] theorem bzero_is16k : (s.bzero a v).is16k = s.is16k := rfl
@[simp] theorem bzero_ppageList :
    (s.bzero a v).ppageList = s.ppageList := rfl
@[simp] theorem bzero_wiredPages :
    (s.bzero a v).wiredPages = s.wiredPages := rfl
@[simp] theorem bzero_ttbFreelist :
    (s.bzero a v).ttbFreelist = s.ttbFreelist := rfl
@[simp] theorem bzero_allocStaticBase :
    (s.bzero a v).allocStaticBase = s.allocStaticBase := rfl
@[simp] theorem bzero_pageAddr (i : ℕ) :
    (s.bzero a v).pageAddr i = s.pageAddr i := rfl
@[simp] theorem bzero_count (i : ℕ) : (s.bzero a v).count i = s.count i := rfl

@[simp] theorem setFreePages_count (i : ℕ) :
    (s.setFreePages a).count i = s.count i := rfl
@[simp] theorem setFreePages_pageAddr (i : ℕ) :
    (s.setFreePages a).pageAddr i = s.pageAddr i := rfl
@[simp] theorem setWiredPages_count (i : ℕ) :
    (s.setWiredPages a).count i = s.count i := rfl
@[simp] theorem setWiredPages_pageAddr (i : ℕ) :
    (s.setWiredPages a).pageAddr i = s.pageAddr i := rfl

theorem bzero_mem_of_notMem {addr len b : ℕ}
    (hb : ¬ (addr ≤ b ∧ b < addr + len)) :
    (s.bzero addr len).mem b = s.mem b := by
  simp [bzero, hb]

theorem bzero_mem_of_mem {addr len b : ℕ}
    (hb : addr ≤ b ∧ b < addr + len) : (s.bzero addr len).mem b = 0 := by
  simp [bzero, hb]

end Fields

end Mm

/-! ## The two views of RAM -/

/-- `phystokv`: the cacheable mapping of a physical address. -/
def phystokv (paddr : ℕ) : ℕ := sub64 (paddr + kCacheableView) 0x800000000

def staticToPhys (kva : ℕ) : ℕ := kva - kCacheableView + 0x800000000

/-- `vatophys_static`: back from the cacheable mapping. -/
def vatophysStatic (kva : ℕ) : Outcome ℕ :=
  if kCacheableView ≤ kva ∧ kva < kCacheableView + 0x100000000 then
    .ok (staticToPhys kva)
  else
    .error (.panic
      "vatophys_static must be called on kCacheableView map addresses")

theorem vatophysStatic_ok {kva pa : ℕ} :
    vatophysStatic kva = .ok pa ↔
      (kCacheableView ≤ kva ∧ kva < kCacheableView + 0x100000000) ∧
        staticToPhys kva = pa := by
  unfold vatophysStatic
  split
  · rename_i hview
    simp [hview]
  · rename_i hview
    simp [hview]

end PongoOS
