import PongoOS.Support.Run
import PongoOS.Mm.Boot

/-!
# Runs of the page allocator

From `alloc_init` on, any sequence of calls keeps the free list well formed, as
long as no `phys_dereference` reaches the word behind the last counter.  The
bound check of the source lets that index pass, and a call that uses it can put
an address that is no page of RAM on the free list.  Where RAM ends within a page,
`alloc_init` does so.
-/

namespace PongoOS

namespace Mm

/-! ## Calls -/

/-- What the users of the allocator do: they call it, and they write to pages
that are not free. -/
inductive PageOp where
  | ppageAlloc
  | allocPhys (size : ℕ)
  | physDereference (pa size : ℕ)
  | physReference (pa size : ℕ)
  | physForceFree (pa size : ℕ)
  | write (addr val : ℕ)

namespace PageOp

def run : PageOp → Mm → Outcome Mm
  | ppageAlloc, s => do
      let r ← s.ppageAlloc
      pure r.2
  | allocPhys size, s => do
      let r ← Mm.allocPhys size s
      pure r.2
  | physDereference pa size, s => Mm.physDereference pa size s
  | physReference pa size, s => Mm.physReference pa size s
  | physForceFree pa size, s => Mm.physForceFree pa size s
  | write addr val, s => .ok (s.store addr val)

end PageOp

/-- A call on `[pa, pa + size)` works on counter `i`. -/
def Touches (s : Mm) (pa size i : ℕ) : Prop :=
  s.boot.physBase ≤ pa ∧ (pa - s.boot.physBase) / pageSize ≤ i ∧
    i < (pa - s.boot.physBase) / pageSize + size / pageSize

namespace PageOp

/-- References are taken on pages that are not free, `phys_force_free` is
called on pages of RAM, and nobody writes to a free page. -/
def Allowed (s : Mm) : PageOp → Prop
  | ppageAlloc => True
  | allocPhys _ => True
  | physDereference _ _ => True
  | physReference pa size => ∀ i, s.Touches pa size i → s.count i ≠ pageFree
  | physForceFree pa size => s.InRam pa size
  | write addr _ => s.OutsideFree addr

/-- No dereference reaches the word behind the last counter. -/
def BelowEnd (s : Mm) : PageOp → Prop
  | physDereference pa size => ¬ s.ReachesEnd pa size
  | _ => True

end PageOp

/-- One call that returns. -/
def PageStep (s : Mm) (op : PageOp) (s' : Mm) : Prop :=
  op.Allowed s ∧ op.run s = .ok s'

/-- One call that returns and stays below the end of the counters. -/
def PageStepBelowEnd (s : Mm) (op : PageOp) (s' : Mm) : Prop :=
  PageStep s op s' ∧ op.BelowEnd s

/-! ## One step -/

theorem FreeListSans.physReference {s s' : Mm} {l : List ℕ} {X : Finset ℕ}
    {pa size : ℕ} (h : FreeListSans s l X)
    (hbusy : ∀ i, s.Touches pa size i → s.count i ≠ pageFree)
    (hok : physReference pa size s = .ok s') : FreeListSans s' l X := by
  by_cases hignored : pa = 0 ∨ pa < s.boot.physBase
  · rw [physReference_ignored hignored] at hok
    cases hok
    exact h
  push Not at hignored
  obtain ⟨hpa, hram⟩ := hignored
  obtain ⟨-, hloop⟩ := (physReference_iff hpa hram).mp hok
  refine (Outcome.forRange_invariant
    (P := fun j a => FreeListSans a l X ∧
      ∀ k, j ≤ k → a.ppageList k = s.ppageList k)
    (fun j a b hij hjn ha hab => ?_) ⟨h, fun _ _ => rfl⟩ hloop).1
  obtain ⟨hlist, hsame⟩ := ha
  have hj : a.count j ≠ pageFree := by
    rw [count, hsame j le_rfl]
    exact hbusy j ⟨hram, hij, hjn⟩
  refine ⟨hlist.physReferencePage_busy hj hab, fun k hk => ?_⟩
  rw [← hsame k (by omega)]
  obtain ⟨-, ⟨-, rfl⟩ | ⟨-, -, rfl⟩ | ⟨hfree, -⟩⟩ := physReferencePage_ok hab
  · rfl
  · exact setEntry_ppageList_of_ne a j _ (by omega)
  · exact absurd hfree hj

theorem FreeListSans.store {s : Mm} {l : List ℕ} {X : Finset ℕ}
    (h : FreeListSans s l X) {addr : ℕ} (haddr : s.OutsideFree addr)
    (val : ℕ) : FreeListSans (s.store addr val) l X := by
  refine h.congr_mem ?_ ?_
  · intro i hi _ hfree
    refine store_mem_of_ne s addr val fun heq => haddr i hi hfree ?_
    rw [← heq]
    exact s.inPage_pageAddr i
  · intro i hi _ hfree
    refine store_mem_of_ne s addr val fun heq => haddr i hi hfree ?_
    rw [← heq]
    exact s.inPage_pageAddr_add_eight i

/-- The allocator is initialised and its free list is well formed. -/
structure AllocatorInv (s : Mm) : Prop where
  initialised : s.allocStaticBase ≠ 0
  freeList : s.FreeListWf

theorem PageOp.run_ppageAlloc {s s' : Mm} :
    PageOp.ppageAlloc.run s = .ok s' ↔ ∃ rv, s.ppageAlloc = .ok (rv, s') := by
  simp only [PageOp.run, Outcome.bind_eq_ok, Outcome.pure_eq_ok, Prod.exists,
    exists_eq_right]

theorem PageOp.run_allocPhys {s s' : Mm} {size : ℕ} :
    (PageOp.allocPhys size).run s = .ok s' ↔
      ∃ rv, Mm.allocPhys size s = .ok (rv, s') := by
  simp only [PageOp.run, Outcome.bind_eq_ok, Outcome.pure_eq_ok, Prod.exists,
    exists_eq_right]

theorem AllocatorInv.step {s s' : Mm} {op : PageOp} (h : s.AllocatorInv)
    (hstep : PageStepBelowEnd s op s') : s'.AllocatorInv := by
  obtain ⟨⟨hallowed, hok⟩, hend⟩ := hstep
  obtain ⟨hinit, l, hl⟩ := h
  cases op with
  | ppageAlloc =>
      obtain ⟨rv, hok⟩ := PageOp.run_ppageAlloc.mp hok
      obtain ⟨i, -, htakes, -, hlist⟩ := hl.ppageAlloc hinit hok
      exact ⟨htakes.layout.allocStaticBase ▸ hinit, hlist⟩
  | allocPhys size =>
      obtain ⟨rv, hok⟩ := PageOp.run_allocPhys.mp hok
      obtain ⟨i, -, htakes, hlist⟩ := hl.allocPhys hinit hok
      exact ⟨htakes.layout.allocStaticBase ▸ hinit, hlist⟩
  | physDereference pa size =>
      exact ⟨(SameLayout.physDereference hok).allocStaticBase ▸ hinit,
        hl.physDereference hend hok⟩
  | physReference pa size =>
      exact ⟨(SameLayout.physReference hok).allocStaticBase ▸ hinit,
        l, hl.physReference hallowed hok⟩
  | physForceFree pa size =>
      exact ⟨(SameLayout.physForceFree hok).allocStaticBase ▸ hinit,
        hl.physForceFree hallowed hok⟩
  | write addr val =>
      obtain rfl := Except.ok.inj hok
      exact ⟨hinit, l, hl.store hallowed val⟩

/-! ## Runs from `alloc_init` -/

/-- `s` is reached after `alloc_init` by calls that all stay below the end of
the counters. -/
def ReachableBelowEnd (s : Mm) : Prop :=
  ∃ (s₀ s₁ : Mm) (ops : List PageOp), s₀.Fresh ∧ s₀.InitRangesInRam ∧ s₀.allocInit = .ok s₁ ∧
    Run PageStepBelowEnd s₁ ops s

theorem ReachableBelowEnd.inv {s : Mm} (h : s.ReachableBelowEnd) :
    s.AllocatorInv := by
  obtain ⟨s₀, s₁, ops, hfresh, hram, hinit, hrun⟩ := h
  have hstart : s₁.AllocatorInv :=
    ⟨allocInit_allocStaticBase hfresh.allocStaticBase hinit,
      hfresh.allocInit hram hinit⟩
  exact hrun.invariant (fun _ _ _ ha hab => ha.step hab) hstart

/-- The page at `rv` is a free page of RAM. -/
def FreePageAt (s : Mm) (rv : ℕ) : Prop :=
  ∃ i, i < s.ppages ∧ rv = s.pageAddr i ∧ s.count i = pageFree

theorem AllocatorInv.ppageAlloc_free {s s' : Mm} {rv : ℕ}
    (h : s.AllocatorInv) (hok : s.ppageAlloc = .ok (rv, s')) :
    s.FreePageAt rv := by
  obtain ⟨hinit, l, hl⟩ := h
  obtain ⟨i, hrv, htakes, -, -⟩ := hl.ppageAlloc hinit hok
  exact ⟨i, Nat.lt_of_succ_le htakes.ram, hrv,
    htakes.wasFree i le_rfl (Nat.lt_succ_self i)⟩

theorem pageAddr_add (s : Mm) (i k : ℕ) :
    s.pageAddr i + k * pageSize = s.pageAddr (i + k) := by
  unfold pageAddr
  rw [Nat.add_mul, Nat.add_assoc]

theorem AllocatorInv.allocPhys_free {s s' : Mm} {size rv k : ℕ}
    (h : s.AllocatorInv) (hok : allocPhys size s = .ok (rv, s'))
    (hk : k < allocPhysPages size) :
    s.FreePageAt (rv + k * pageSize) := by
  obtain ⟨hinit, l, hl⟩ := h
  obtain ⟨i, hrv, htakes, -⟩ := hl.allocPhys hinit hok
  have hram := htakes.ram
  refine ⟨i + k, by omega, ?_, htakes.wasFree _ (by omega) (by omega)⟩
  rw [hrv (by omega), pageAddr_add]

/-- In every run whose calls stay below the end of the counters the free list
is well formed, and only free pages are handed out. -/
theorem freeList_of_reachable {s : Mm} (h : s.ReachableBelowEnd) :
    s.FreeListWf ∧
      (∀ rv s', s.ppageAlloc = .ok (rv, s') → s.FreePageAt rv) ∧
      (∀ size rv s', allocPhys size s = .ok (rv, s') →
        ∀ k, k < allocPhysPages size → s.FreePageAt (rv + k * pageSize)) :=
  ⟨h.inv.freeList, fun _ _ hok => h.inv.ppageAlloc_free hok,
    fun _ _ _ hok _ hk => h.inv.allocPhys_free hok hk⟩

theorem bootExample_reachable {s : Mm} (hinit : bootExample.allocInit = .ok s) :
    s.ReachableBelowEnd :=
  ⟨bootExample, s, [], bootExample_fresh, bootExample_ranges, hinit,
    Run.nil s⟩

/-- The page at the head of the list is allocated and given back. -/
theorem allocate_and_give_back {s : Mm} {i : ℕ} (h : s.AllocatorInv)
    (hhead : s.paHead = s.pageAddr i) :
    ∃ s', Run PageStepBelowEnd s
      [.ppageAlloc, .physDereference (s.pageAddr i) pageSize] s' := by
  obtain ⟨hinit, l, hl⟩ := h
  obtain ⟨rv, s₁, halloc⟩ :=
    ppageAlloc_returns hl hinit (hhead ▸ s.pageAddr_ne_zero i)
  obtain ⟨j, rfl, htakes, -, -⟩ := hl.ppageAlloc hinit halloc
  obtain rfl : i = j :=
    pageAddr_inj.mp (hhead.symm.trans (FreeListSans.ppageAlloc_ok hinit halloc).2.1.symm)
  have hram : i < s₁.ppages := htakes.layout.ppages ▸ htakes.ram
  have hone : s₁.count i = 1 := htakes.taken i le_rfl (Nat.lt_succ_self i)
  obtain ⟨s₂, hpage⟩ :=
    physDereferencePage_returns hram.le (by rw [hone]; decide)
  have haddr : s₁.pageAddr i = s.pageAddr i := htakes.layout.pageAddr i
  have hindex : (s.pageAddr i - s₁.boot.physBase) / pageSize = i := by
    rw [← haddr, pageAddr_sub_physBase, mul_pageSize_div]
  refine ⟨s₂, .cons ⟨⟨trivial, PageOp.run_ppageAlloc.mpr ⟨_, halloc⟩⟩, trivial⟩
    (.single ⟨⟨trivial, ?_⟩, ?_⟩)⟩
  · refine (physDereference_iff (s.pageAddr_ne_zero i) ?_).mpr ⟨?_, ?_⟩
    · rw [← haddr]
      exact Nat.le_add_right _ _
    · rw [← haddr, pageAddr_sub_physBase, mul_pageSize_mod]
    · rw [hindex, Nat.div_self (by decide)]
      exact Outcome.forRange_succ_ok.mpr ⟨s₂, hpage, rfl⟩
  · rintro ⟨-, -, hbeyond⟩
    rw [hindex, Nat.div_self (by decide)] at hbeyond
    omega

/-- After a boot, the last page of RAM is allocated and given back. -/
theorem freeList_of_bootExample :
    ∃ s s', bootExample.allocInit = .ok s ∧ Run PageStepBelowEnd s
        [.ppageAlloc, .physDereference 0x87fffc000 pageSize] s' ∧
      s'.FreeListWf := by
  obtain ⟨s, hinit, hhead, -⟩ := bootExample_allocInit
  have hboot : s.boot = bootExample.boot := by
    rw [(allocInit_layout rfl hinit).boot, afterWiring_boot]
  have haddr : s.pageAddr 0x1ffff = 0x87fffc000 := by
    rw [pageAddr, hboot]
    decide
  rw [← haddr] at hhead
  obtain ⟨s', hrun⟩ := allocate_and_give_back (bootExample_reachable hinit).inv hhead
  rw [haddr] at hrun
  have hreach : s'.ReachableBelowEnd :=
    ⟨bootExample, s, _, bootExample_fresh, bootExample_ranges, hinit, hrun⟩
  exact ⟨s, s', hinit, hrun, (freeList_of_reachable hreach).1⟩

theorem not_freeListWf_of_head {s : Mm} (hhead : s.paHead = s.pageAddr s.ppages) :
    ¬ s.FreeListWf := by
  rintro ⟨l, hl⟩
  obtain ⟨i, hi, -, -, haddr, -⟩ :=
    hl.head_page (hhead ▸ s.pageAddr_ne_zero _)
  rw [hhead, pageAddr_inj] at haddr
  omega

/-- With 4 KiB pages and 2 GiB + 4 KiB of RAM, `alloc_init` itself frees the page
behind the last counter, of which only the first 4 KiB are RAM. -/
theorem allocInit_end_breaks_freeList :
    ∃ s : Mm, partialPage.Fresh ∧ partialPage.allocInit = .ok s ∧
      s.paHead = s.pageAddr s.ppages ∧ ¬ s.FreeListWf := by
  obtain ⟨s, hinit, hhead⟩ := partialPage_allocInit
  have hlayout := allocInit_layout (s := partialPage) rfl hinit
  have hend : s.paHead = s.pageAddr s.ppages := by
    rw [hhead, pageAddr, hlayout.ppages, hlayout.boot, afterWiring_ppages,
      afterWiring_boot]
    decide
  exact ⟨s, partialPage_fresh, hinit, hend, not_freeListWf_of_head hend⟩

end Mm

end PongoOS
