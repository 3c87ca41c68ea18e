import Mathlib.Order.Interval.Set.Disjoint
import PongoOS.Mm.BumpAllocation

/-!
# The partition of RAM by `alloc_init`

Of the static window 64 MiB are kept, and what follows the array `ppage_list` is
freed up to 1 MiB before the end of RAM.  The mask that subtracts this MiB clears
bit 20 of the end instead, so the last MiB is kept only where the bit was set.
-/

namespace PongoOS

open DoublyLinked

namespace Mm

/-! ## Regions of RAM -/

/-- The physical address behind an address of the cacheable view. -/
def viewToPhys (kva : ℕ) : ℕ := kva + 0x400000000

/-- The bytes of the page at `pa`. -/
def pageBytes (pa : ℕ) : Set ℕ := Set.Ico pa (pa + pageSize)

def ramEnd (s : Mm) : ℕ := s.boot.physBase + s.boot.memSize

def ramRegion (s : Mm) : Set ℕ := Set.Ico s.boot.physBase s.ramEnd

def lastMiB (s : Mm) : Set ℕ := Set.Ico (s.ramEnd - 2 ^ 20) s.ramEnd

/-- What `alloc_static` hands out. -/
def staticRegion (s : Mm) : Set ℕ :=
  Set.Ico (viewToPhys s.allocStaticBase) (viewToPhys s.allocStaticEnd)

/-- Where the array ends that `alloc_init` puts at `early_heap_base`. -/
def ppageListEnd (s : Mm) : ℕ :=
  s.earlyHeapBase + 4 * (s.boot.memSize / pageSize)

def ppageListRegion (s : Mm) : Set ℕ :=
  Set.Ico (viewToPhys s.earlyHeapBase) (viewToPhys s.ppageListEnd)

/-- What `alloc_init`, which takes `s` to `s'`, keeps. -/
def keptRegion (s s' : Mm) : Set ℕ :=
  s'.staticRegion ∪ s.ppageListRegion ∪ s.lastMiB

/-- The static window and the array are in RAM, the array behind the window. -/
structure InitLayout (s : Mm) : Prop where
  fresh : s.Fresh
  aligned : s.boot.physBase % pageSize = 0
  top_lt : s.initialStaticBase < staticWindowEnd
  window_ge : s.boot.physBase ≤ viewToPhys s.initialStaticBase
  window_le : viewToPhys staticWindowEnd ≤ s.ramEnd
  heap_above : staticWindowEnd ≤ s.earlyHeapBase
  array_le : viewToPhys s.ppageListEnd ≤ s.ramEnd

/-- Free are pages in RAM that are not kept, among them all from the heap's base
to the last MiB. -/
structure InitialPartition (s s' : Mm) : Prop where
  free : ∃ l, Chain s'.nextLink s'.prevLink 0 0 l s'.paHead ∧
    (∀ pa ∈ l, pageBytes pa ⊆ s.ramRegion ∧ Disjoint (pageBytes pa) (s.keptRegion s')) ∧
    ∀ i < s'.ppages, viewToPhys s.allocHeapBase ≤ s'.pageAddr i →
      s'.pageAddr i + pageSize ≤ s.ramEnd - 2 ^ 20 → s'.pageAddr i ∈ l
  wired : ∀ i < s'.ppages,
    ¬ Disjoint (pageBytes (s'.pageAddr i)) (s.keptRegion s') →
      s'.count i = pageWired

/-- The end of RAM, rounded up to a page. -/
def ramTop (s : Mm) : ℕ := (s.ramEnd + 0x3fff) / pageSize * pageSize

/-- Where `alloc_init` stops freeing pages. -/
def heapTop (s : Mm) : ℕ := s.ramTop - s.ramTop / 2 ^ 20 % 2 * 2 ^ 20

/-- The last MiB is kept: bit 20 of the end of RAM is set, or no page is freed
behind the array, which may also be one that counts as free already.  What is
freed of the static window ends before the last MiB. -/
structure LastMiBKept (s : Mm) : Prop where
  window : s.allocStaticHardcap < staticWindowEnd →
    viewToPhys staticWindowEnd + 2 ^ 20 ≤ s.ramEnd
  heap : (s.ramEnd % pageSize = 0 ∧ s.ramEnd / 2 ^ 20 % 2 = 1) ∨
    viewToPhys s.allocHeapBase = s.heapTop ∨
    (s.ramEnd < viewToPhys s.allocHeapBase + pageSize ∧
      viewToPhys s.allocHeapBase + pageSize = s.heapTop ∧
      s.count (s.boot.memSize / pageSize) = pageFree)

end Mm

theorem and_heapMask (x : ℕ) :
    x &&& 0xffffffffffefc000 =
      x % 2 ^ 64 / 2 ^ 14 * 2 ^ 14 - x / 2 ^ 20 % 2 * 2 ^ 20 := by
  have hhigh : (x &&& 0xffffffffffefc000) / 2 ^ 21 = x / 2 ^ 21 % 2 ^ 43 := by
    rw [Nat.and_div_two_pow,
      show 0xffffffffffefc000 / 2 ^ 21 = 2 ^ 43 - 1 by decide,
      Nat.and_two_pow_sub_one_eq_mod]
  have hlow : (x &&& 0xffffffffffefc000) % 2 ^ 14 = 0 := by
    rw [Nat.and_mod_two_pow, show 0xffffffffffefc000 % 2 ^ 14 = 0 by decide,
      Nat.and_zero]
  have hmiddle : (x &&& 0xffffffffffefc000) / 2 ^ 14 % 2 ^ 7 =
      x / 2 ^ 14 % 2 ^ 6 := by
    rw [Nat.and_div_two_pow, Nat.and_mod_two_pow,
      show 0xffffffffffefc000 / 2 ^ 14 % 2 ^ 7 = 2 ^ 6 - 1 by decide,
      Nat.and_two_pow_sub_one_eq_mod]
    omega
  omega

namespace Mm

section Numbers

variable {s : Mm}

theorem pageBytes_disjoint_Ico {pa a b : ℕ} :
    Disjoint (pageBytes pa) (Set.Ico a b) ↔ b ≤ a ∨ pa + pageSize ≤ a ∨ b ≤ pa := by
  rw [pageBytes, Set.Ico_disjoint_Ico]
  unfold pageSize
  omega

/-- Behind the array a page is left out. -/
theorem allocHeapBase_eq :
    s.allocHeapBase = (s.ppageListEnd + 0x3fff) / pageSize * pageSize + pageSize := by
  unfold allocHeapBase earlyHeapEnd ppageListEnd pageSize
  omega

theorem viewToPhys_allocHeapEnd (h : s.InitLayout) :
    viewToPhys s.allocHeapEnd = s.heapTop := by
  have hram := s.boot.ram_fits
  have hwindow := h.window_le
  have haligned := h.aligned
  have hend : (phystokv s.boot.physBase + s.boot.memSize + 0x3fff) % 2 ^ 64 =
      s.ramEnd - 0x400000000 + 0x3fff := by
    unfold phystokv sub64 ramEnd kCacheableView viewToPhys staticWindowEnd at *
    omega
  have hbit : (phystokv s.boot.physBase + s.boot.memSize + 0x3fff) / 2 ^ 20 % 2 =
      (s.ramEnd - 0x400000000 + 0x3fff) / 2 ^ 20 % 2 := by
    rw [← hend]
    omega
  unfold allocHeapEnd
  rw [and_heapMask, hend, hbit]
  unfold heapTop ramTop viewToPhys staticWindowEnd pageSize at *
  omega

end Numbers

/-! ## What is freed -/

/-- What `phys_force_free` did to the counters of `n` pages from page `i` on. -/
structure ForceFreed (s s' : Mm) (i n : ℕ) : Prop where
  layout : SameLayout s s'
  bound : 0 < n → i + n ≤ s.ppages + 1
  freed : ∀ k, i ≤ k → k < i + n → s'.ppageList k = pageFree
  others : ∀ k, k < i ∨ i + n ≤ k → s'.ppageList k = s.ppageList k
  head : 0 < n → s.count (i + n - 1) ≠ pageFree →
    s'.paHead = s.pageAddr (i + n - 1)
  list : s.FreeListWf → (∀ k, i ≤ k → k < i + n → s.count k ≠ pageFree →
    k < s.ppages) → s'.FreeListWf

theorem ForceFreed.refl (s : Mm) (i : ℕ) : ForceFreed s s i 0 :=
  ⟨SameLayout.refl s, fun h => absurd h (lt_irrefl 0), fun k hik hki => by omega,
    fun _ _ => rfl, fun h => absurd h (lt_irrefl 0), fun h _ => h⟩

theorem ForceFreed.step {s a b : Mm} {i n : ℕ} (h : ForceFreed s a i n)
    (hok : physForceFreePage (i + n) a = .ok b) : ForceFreed s b i (n + 1) := by
  have hle := (physForceFreePage_ok hok).1
  rw [h.layout.ppages] at hle
  obtain ⟨hfree, hothers, hhead⟩ := physForceFreePage_entry hok
  refine ⟨h.layout.trans (SameLayout.physForceFreePage hok), fun _ => by omega,
    fun k hik hkn => ?_, fun k hk => ?_, fun _ hbusy => ?_,
    fun hlist hram => ?_⟩
  · by_cases hkeq : k = i + n
    · rw [hkeq, hfree]
    · rw [hothers k hkeq]
      exact h.freed k hik (by omega)
  · rw [hothers k (by omega)]
    exact h.others k (by omega)
  · rw [← Nat.add_assoc, Nat.add_sub_cancel] at hbusy ⊢
    rw [hhead, h.layout.pageAddr]
    rwa [count, h.others (i + n) (.inr le_rfl)]
  · obtain ⟨l, hl⟩ := h.list hlist fun k hik hkn => hram k hik (by omega)
    have hcount : a.count (i + n) = s.count (i + n) := by
      rw [count, h.others (i + n) (.inr le_rfl), count]
    by_cases hcountFree : a.count (i + n) = pageFree
    · obtain ⟨-, ⟨-, rfl⟩ | ⟨hbusy, -⟩⟩ := physForceFreePage_ok hok
      · exact ⟨l, hl.setEntry_free hcountFree⟩
      · exact absurd hcountFree hbusy
    · have hlt := hram (i + n) (Nat.le_add_right i n) (by omega)
        (hcount ▸ hcountFree)
      exact hl.physForceFreePage (h.layout.ppages.symm ▸ hlt) hok

theorem physForceFree_forceFreed {s s' : Mm} {i pa size : ℕ}
    (hpa : pa = s.pageAddr i) (hlt : pa < 2 ^ 64)
    (hok : physForceFree pa size s = .ok s') :
    ForceFreed s s' i (size / pageSize) := by
  have hoff : sub64 pa s.boot.physBase = i * pageSize := by
    rw [sub64_of_le (by rw [hpa]; exact Nat.le_add_right _ _) hlt, hpa,
      pageAddr_sub_physBase]
  unfold physForceFree at hok
  simp only [Outcome.bind_eq_ok, hoff, mul_pageSize_div] at hok
  obtain ⟨-, -, hloop⟩ := hok
  have hrun := Outcome.forRange_invariant
    (P := fun j a => ForceFreed s a i (j - i))
    (fun j a b hij _ ha hab => by
      obtain ⟨n, rfl⟩ := Nat.exists_eq_add_of_le hij
      rw [Nat.add_sub_cancel_left] at ha
      rw [Nat.add_assoc, Nat.add_sub_cancel_left]
      exact ha.step hab)
    (by rw [Nat.sub_self]; exact ForceFreed.refl s i) hloop
  rwa [Nat.add_sub_cancel_left] at hrun

/-- The pages that `alloc_init` frees: what is cut off the static window, and the
heap. -/
def Released (s : Mm) (pa : ℕ) : Prop :=
  (viewToPhys s.allocStaticHardcap ≤ pa ∧ pa < viewToPhys staticWindowEnd) ∨
    (viewToPhys s.allocHeapBase ≤ pa ∧ pa < s.heapTop)

structure InitFreed (s s' : Mm) : Prop where
  layout : SameLayout s.afterWiring s'
  base_le : viewToPhys s.allocHeapBase ≤ s.heapTop
  freed : ∀ k, s.Released (s.pageAddr k) → s'.ppageList k = pageFree
  others : ∀ k, ¬ s.Released (s.pageAddr k) →
    s'.ppageList k = s.afterWiring.ppageList k
  head : ∀ k, viewToPhys s.allocHeapBase ≤ s.pageAddr k →
    s.pageAddr k + pageSize = s.heapTop →
      s.afterWiring.count k ≠ pageFree → s'.paHead = s.pageAddr k
  list : (∀ k, s.Released (s.pageAddr k) → s.afterWiring.count k ≠ pageFree →
    k < s.boot.memSize / pageSize) → s'.FreeListWf

theorem exists_pageAddr {s : Mm} {a : ℕ}
    (hbase : s.boot.physBase % pageSize = 0) (ha : a % pageSize = 0)
    (hle : s.boot.physBase ≤ a) : ∃ i, a = s.pageAddr i := by
  refine ⟨(a - s.boot.physBase) / pageSize, ?_⟩
  unfold pageAddr pageSize at *
  omega

/-- The pages between two addresses, as `phys_force_free` counts them. -/
theorem pages_between {s : Mm} {a b i k : ℕ} (ha : a = s.pageAddr i)
    (hle : a ≤ b) (hmod : a % pageSize = b % pageSize) :
    (i ≤ k ∧ k < i + (b - a) / pageSize) ↔
      a ≤ s.pageAddr k ∧ s.pageAddr k < b := by
  unfold pageAddr pageSize at *
  omega

section Freed

variable {s s' : Mm}

theorem InitLayout.hardcap_eq (h : s.InitLayout) :
    s.allocStaticHardcap = s.initialStaticBase + 2 ^ 26 := by
  have htop := h.top_lt
  unfold allocStaticHardcap staticWindowEnd at *
  omega

theorem initialStaticBase_mod : s.initialStaticBase % pageSize = 0 :=
  mul_pageSize_mod _

theorem InitLayout.exists_hardcap (h : s.InitLayout) :
    ∃ c, viewToPhys s.allocStaticHardcap = s.pageAddr c ∧
      viewToPhys s.allocStaticHardcap % pageSize =
        viewToPhys staticWindowEnd % pageSize := by
  have hcap := h.hardcap_eq
  have hmod := s.initialStaticBase_mod
  have hge := h.window_ge
  have haligned : viewToPhys s.allocStaticHardcap % pageSize = 0 := by
    unfold viewToPhys pageSize at *
    omega
  obtain ⟨c, hc⟩ := exists_pageAddr h.aligned haligned
    (by unfold viewToPhys at *; omega)
  exact ⟨c, hc, haligned⟩

/-- What is cut off the static window is freed first. -/
theorem InitLayout.window_freed (h : s.InitLayout) {s₁ : Mm}
    (hcap : (s.allocStaticHardcap < staticWindowEnd ∧
        kCacheableView ≤ s.allocStaticHardcap ∧
        (∃ s₀, physForceFree (staticToPhys s.allocStaticHardcap)
            (staticWindowEnd - s.allocStaticHardcap) s.afterWiring = .ok s₀ ∧
          s₁ = s₀.setAllocStaticEnd s.allocStaticHardcap) ∨
      staticWindowEnd ≤ s.allocStaticHardcap ∧ s₁ = s.afterWiring)) :
    SameLayout s.afterWiring s₁ ∧
      (∀ k, viewToPhys s.allocStaticHardcap ≤ s.pageAddr k →
        s.pageAddr k < viewToPhys staticWindowEnd →
          s₁.ppageList k = pageFree) ∧
      (∀ k, ¬ (viewToPhys s.allocStaticHardcap ≤ s.pageAddr k ∧
        s.pageAddr k < viewToPhys staticWindowEnd) →
          s₁.ppageList k = s.afterWiring.ppageList k) ∧ s₁.FreeListWf := by
  rcases hcap with ⟨hlt, hview, s₀, hfree, rfl⟩ | ⟨hle, rfl⟩
  · have hphys : staticToPhys s.allocStaticHardcap =
        viewToPhys s.allocStaticHardcap := by
      unfold staticToPhys viewToPhys kCacheableView at *
      omega
    have hsize : staticWindowEnd - s.allocStaticHardcap =
        viewToPhys staticWindowEnd - viewToPhys s.allocStaticHardcap :=
      (Nat.add_sub_add_right _ _ _).symm
    obtain ⟨c, hc, hmod⟩ := h.exists_hardcap
    have hforce := physForceFree_forceFreed (s := s.afterWiring) (i := c)
      (by rw [hphys, hc, pageAddr, pageAddr, afterWiring_boot])
      (by rw [hphys]; unfold viewToPhys staticWindowEnd at *; omega) hfree
    rw [hsize] at hforce
    have hle : viewToPhys s.allocStaticHardcap ≤ viewToPhys staticWindowEnd :=
      Nat.add_le_add_right hlt.le _
    have hrange := fun k => pages_between (k := k) hc hle hmod
    refine ⟨hforce.layout.trans (SameLayout.setAllocStaticEnd _ _),
      fun k hle hlt => ?_, fun k hk => ?_, ?_⟩
    · have hin := (hrange k).mpr ⟨hle, hlt⟩
      exact hforce.freed k hin.1 hin.2
    · have hout := mt (hrange k).mp hk
      exact hforce.others k (by omega)
    · obtain ⟨l, hl⟩ := hforce.list ⟨[], h.fresh.afterWiring⟩ fun k hge hlt _ => by
        have hin := (hrange k).mp ⟨hge, hlt⟩
        have hend := h.window_le
        have haligned := h.aligned
        rw [afterWiring_ppages]
        unfold pageAddr ramEnd viewToPhys staticWindowEnd pageSize at *
        omega
      exact ⟨l, hl.setAllocStaticEnd _⟩
  · refine ⟨SameLayout.refl _, fun k hge hlt => ?_, fun _ _ => rfl,
      [], h.fresh.afterWiring⟩
    unfold viewToPhys at *
    omega

theorem InitLayout.heapBase_above (h : s.InitLayout) :
    viewToPhys staticWindowEnd < viewToPhys s.allocHeapBase := by
  have hheap := h.heap_above
  rw [allocHeapBase_eq]
  unfold viewToPhys ppageListEnd pageSize at *
  omega

theorem allocInit_heapBase_lt (hfresh : s.allocStaticBase = 0)
    (hok : s.allocInit = .ok s') : s.allocHeapBase < 0x500000000 := by
  unfold allocInit at hok
  rw [if_neg (not_not_intro hfresh)] at hok
  simp only [Outcome.bind_eq_ok, vatophysStatic_ok] at hok
  obtain ⟨-, -, -, ⟨hview, -⟩, -⟩ := hok
  exact hview.2

/-- The heap begins at most a page behind the end of RAM. -/
theorem InitLayout.heapBase_le (h : s.InitLayout) :
    viewToPhys s.allocHeapBase ≤ s.ramTop + pageSize ∧
      viewToPhys s.allocHeapBase % pageSize = 0 := by
  have harray := h.array_le
  rw [allocHeapBase_eq]
  unfold viewToPhys ramTop pageSize at *
  omega

theorem heapTop_bounds :
    s.ramEnd ≤ s.heapTop + 2 ^ 20 ∧ s.heapTop < s.ramEnd + pageSize ∧
      s.heapTop % pageSize = 0 := by
  unfold heapTop ramTop pageSize
  omega

theorem InitLayout.exists_heapBase (h : s.InitLayout) :
    ∃ i, viewToPhys s.allocHeapBase = s.pageAddr i := by
  refine exists_pageAddr h.aligned h.heapBase_le.2 ?_
  have hwindow := h.window_ge
  have htop := h.top_lt
  have habove := h.heapBase_above
  unfold viewToPhys at *
  omega

theorem InitLayout.staticToPhys_heapBase (h : s.InitLayout) :
    staticToPhys s.allocHeapBase = viewToPhys s.allocHeapBase := by
  have habove := h.heapBase_above
  unfold staticToPhys viewToPhys kCacheableView staticWindowEnd at *
  omega

theorem InitLayout.heapSize (h : s.InitLayout)
    (hle : viewToPhys s.allocHeapBase ≤ s.heapTop) :
    sub64 s.allocHeapEnd s.allocHeapBase =
      s.heapTop - viewToPhys s.allocHeapBase := by
  have hend := viewToPhys_allocHeapEnd h
  have htop := s.heapTop_bounds.2.1
  have hram := s.boot.ram_fits
  have hramEq : s.ramEnd = s.boot.physBase + s.boot.memSize := rfl
  unfold viewToPhys pageSize at *
  rw [sub64_of_le (by omega) (by omega)]
  omega

/-- A range that ends before it begins wraps around, and is too long. -/
theorem InitLayout.heapBase_le_heapTop (h : s.InitLayout) {ppages i : ℕ}
    (hppages : ppages = s.boot.memSize / pageSize)
    (hi : viewToPhys s.allocHeapBase = s.pageAddr i)
    (hbound : 0 < sub64 s.allocHeapEnd s.allocHeapBase / pageSize →
      i + sub64 s.allocHeapEnd s.allocHeapBase / pageSize ≤ ppages + 1) :
    viewToPhys s.allocHeapBase ≤ s.heapTop := by
  by_contra hlt
  obtain ⟨htopGe, htopLt, htopMod⟩ := s.heapTop_bounds
  obtain ⟨hbaseLe, -⟩ := h.heapBase_le
  have habove := h.heapBase_above
  have hend := viewToPhys_allocHeapEnd h
  have hram := s.boot.ram_fits
  have hramEq : s.ramEnd = s.boot.physBase + s.boot.memSize := rfl
  have hsize : sub64 s.allocHeapEnd s.allocHeapBase =
      2 ^ 64 - (viewToPhys s.allocHeapBase - s.heapTop) := by
    unfold sub64 viewToPhys ramTop pageSize at *
    omega
  rw [hsize] at hbound
  unfold pageAddr at hi
  unfold viewToPhys ramTop staticWindowEnd pageSize at *
  omega

theorem allocInit_freed (h : s.InitLayout) (hok : s.allocInit = .ok s') :
    InitFreed s s' := by
  have hview := allocInit_heapBase_lt h.fresh.allocStaticBase hok
  obtain ⟨s₁, hcap, hheap⟩ := allocInit_ok h.fresh.allocStaticBase hok
  obtain ⟨hlayout, hwindow, hother, hlist⟩ := h.window_freed hcap
  have habove := h.heapBase_above
  have hboot : s₁.boot = s.boot := hlayout.boot.trans s.afterWiring_boot
  have hppages : s₁.ppages = s.boot.memSize / pageSize :=
    hlayout.ppages.trans s.afterWiring_ppages
  have hphys := h.staticToPhys_heapBase
  obtain ⟨i, hi⟩ := h.exists_heapBase
  have hforce := physForceFree_forceFreed (s := s₁) (i := i)
    (by rw [hphys, hi, pageAddr, pageAddr, hboot])
    (by rw [hphys]; unfold viewToPhys; omega) hheap
  have hle : viewToPhys s.allocHeapBase ≤ s.heapTop :=
    h.heapBase_le_heapTop hppages hi hforce.bound
  rw [h.heapSize hle] at hforce
  have hrange := fun k => pages_between (k := k) hi hle
    (h.heapBase_le.2.trans s.heapTop_bounds.2.2.symm)
  have hcount : ∀ k, viewToPhys s.allocHeapBase ≤ s.pageAddr k →
      s₁.count k = s.afterWiring.count k := by
    intro k hge
    rw [count, hother k (by omega), count]
  refine ⟨hlayout.trans hforce.layout, hle, ?_, ?_, ?_, fun hram => ?_⟩
  · rintro k (⟨hge, hlt⟩ | ⟨hge, hlt⟩)
    · by_cases hin : viewToPhys s.allocHeapBase ≤ s.pageAddr k
      · omega
      · rw [hforce.others k (by have hk := hrange k; omega)]
        exact hwindow k hge hlt
    · have hin := (hrange k).mpr ⟨hge, hlt⟩
      exact hforce.freed k hin.1 hin.2
  · intro k hk
    unfold Released at hk
    rw [not_or] at hk
    rw [hforce.others k (by have hk' := hrange k; omega)]
    exact hother k hk.1
  · intro k hge hlast hbusy
    have hk : k = i + (s.heapTop - viewToPhys s.allocHeapBase) / pageSize - 1 ∧
        0 < (s.heapTop - viewToPhys s.allocHeapBase) / pageSize := by
      have hin := (hrange k).mpr ⟨hge, by unfold pageSize at *; omega⟩
      have hnext : s.pageAddr (k + 1) = s.heapTop := by
        rw [← hlast]
        unfold pageAddr pageSize
        omega
      have hout := mt (hrange (k + 1)).mp (by omega)
      omega
    have hhead := hforce.head hk.2
    rw [← hk.1, hcount k hge, pageAddr, hboot] at hhead
    exact hhead hbusy
  · refine hforce.list hlist fun k hge hlt hbusy => ?_
    have hin := (hrange k).mp ⟨hge, hlt⟩
    rw [hcount k hin.1] at hbusy
    rw [hppages]
    exact hram k (.inr hin) hbusy

end Freed

/-! ## The partition -/

section Partition

variable {s s' : Mm}

theorem InitFreed.count (h : InitFreed s s') {k : ℕ} (hk : k < s'.ppages) :
    (s.Released (s.pageAddr k) → s'.count k = pageFree) ∧
      (¬ s.Released (s.pageAddr k) → s'.count k = pageWired) := by
  rw [h.layout.ppages, afterWiring_ppages] at hk
  refine ⟨fun hreleased => ?_, fun hkept => ?_⟩
  · rw [Mm.count, h.freed k hreleased, refBits_pageFree]
  · rw [Mm.count, h.others k hkept]
    exact s.afterWiring_count hk

/-- The static region begins and ends with a page. -/
theorem staticRegion_allocInit (h : s.InitLayout) (hok : s.allocInit = .ok s') :
    s'.staticRegion = Set.Ico (viewToPhys s.initialStaticBase)
      (min (viewToPhys s.allocStaticHardcap) (viewToPhys staticWindowEnd)) := by
  obtain ⟨-, hbase, hend, -⟩ := allocInit_window h.fresh.allocStaticBase hok
  rw [staticRegion, hbase, hend, h.hardcap_eq]
  refine congrArg (Set.Ico _) ?_
  unfold viewToPhys
  omega

theorem pageBytes_disjoint_kept (h : s.InitLayout) (hok : s.allocInit = .ok s')
    {pa : ℕ} :
    Disjoint (pageBytes pa) (s.keptRegion s') ↔
      (pa + pageSize ≤ viewToPhys s.initialStaticBase ∨
        min (viewToPhys s.allocStaticHardcap) (viewToPhys staticWindowEnd) ≤ pa) ∧
      (s.ppageListEnd = s.earlyHeapBase ∨
        pa + pageSize ≤ viewToPhys s.earlyHeapBase ∨
        viewToPhys s.ppageListEnd ≤ pa) ∧
      (pa + pageSize ≤ s.ramEnd - 2 ^ 20 ∨ s.ramEnd ≤ pa) := by
  have hcap := h.hardcap_eq
  have htop := h.top_lt
  have hwin := h.window_le
  rw [keptRegion, Set.disjoint_union_right, Set.disjoint_union_right,
    staticRegion_allocInit h hok, ppageListRegion, lastMiB,
    pageBytes_disjoint_Ico, pageBytes_disjoint_Ico, pageBytes_disjoint_Ico, and_assoc]
  unfold viewToPhys ppageListEnd at *
  omega

/-- A page that is freed meets only the last MiB. -/
theorem InitLayout.released_apart (h : s.InitLayout) (hok : s.allocInit = .ok s')
    {k : ℕ} (hreleased : s.Released (s.pageAddr k)) :
    Disjoint (pageBytes (s.pageAddr k)) (s.keptRegion s') ↔
      s.pageAddr k + pageSize ≤ s.ramEnd - 2 ^ 20 ∨ s.ramEnd ≤ s.pageAddr k := by
  rw [pageBytes_disjoint_kept h hok]
  have hwindow : min (viewToPhys s.allocStaticHardcap)
      (viewToPhys staticWindowEnd) ≤ s.pageAddr k := by
    have habove := h.heapBase_above
    unfold Released at hreleased
    omega
  have harray : s.pageAddr k + pageSize ≤ viewToPhys s.earlyHeapBase ∨
      viewToPhys s.ppageListEnd ≤ s.pageAddr k := by
    rcases hreleased with ⟨-, hlt⟩ | ⟨hge, -⟩
    · refine .inl (Nat.le_trans ?_ (Nat.add_le_add_right h.heap_above _))
      have haligned := h.aligned
      unfold pageAddr viewToPhys staticWindowEnd pageSize at *
      omega
    · refine .inr (Nat.le_trans ?_ hge)
      rw [allocHeapBase_eq]
      unfold viewToPhys pageSize
      omega
  constructor
  · exact fun hapart => hapart.2.2
  · exact fun hlast => ⟨.inr hwindow, .inr harray, hlast⟩

theorem InitFreed.pageAddr (h : InitFreed s s') (k : ℕ) :
    s'.pageAddr k = s.pageAddr k := by
  rw [Mm.pageAddr, Mm.pageAddr, h.layout.boot, afterWiring_boot]

theorem lt_ppages_iff {k : ℕ} :
    k < s.boot.memSize / pageSize ↔ s.pageAddr k + pageSize ≤ s.ramEnd := by
  unfold pageAddr ramEnd pageSize
  omega

/-- A page that is freed is not one of the last MiB. -/
theorem InitialPartition.released_le (hp : s.InitialPartition s')
    (h : s.InitLayout) (hok : s.allocInit = .ok s') {k : ℕ}
    (hk : s.pageAddr k + pageSize ≤ s.ramEnd)
    (hreleased : s.Released (s.pageAddr k)) :
    s.pageAddr k + pageSize ≤ s.ramEnd - 2 ^ 20 := by
  have hfreed := allocInit_freed h hok
  have hlt : k < s'.ppages := by
    rw [hfreed.layout.ppages, afterWiring_ppages]
    exact lt_ppages_iff.mpr hk
  by_contra hlast
  have hmeets : ¬ Disjoint (pageBytes (s.pageAddr k)) (s.keptRegion s') := by
    rw [h.released_apart hok hreleased]
    unfold pageSize at *
    omega
  have hwired := hp.wired k hlt (by rwa [hfreed.pageAddr])
  rw [(hfreed.count hlt).1 hreleased] at hwired
  exact absurd hwired (by decide)

theorem InitialPartition.window (hp : s.InitialPartition s')
    (h : s.InitLayout) (hok : s.allocInit = .ok s')
    (hcap : s.allocStaticHardcap < staticWindowEnd) :
    viewToPhys staticWindowEnd + 2 ^ 20 ≤ s.ramEnd := by
  have hcapEq := h.hardcap_eq
  have hmod := s.initialStaticBase_mod
  have hge := h.window_ge
  have hle := h.window_le
  -- the last page that is cut off
  obtain ⟨k, hk⟩ := exists_pageAddr (s := s)
    (a := viewToPhys staticWindowEnd - pageSize) h.aligned (by decide)
    (by unfold viewToPhys staticWindowEnd pageSize at *; omega)
  have hlast := hp.released_le h hok (k := k)
    (by rw [← hk]; unfold viewToPhys staticWindowEnd pageSize at *; omega)
    (.inl (by
      rw [← hk]
      unfold viewToPhys staticWindowEnd pageSize at *
      omega))
  rw [← hk] at hlast
  unfold viewToPhys staticWindowEnd pageSize at *
  omega

theorem InitialPartition.heap (hp : s.InitialPartition s')
    (h : s.InitLayout) (hok : s.allocInit = .ok s')
    (hne : viewToPhys s.allocHeapBase ≠ s.heapTop) :
    (s.ramEnd % pageSize = 0 ∧ s.ramEnd / 2 ^ 20 % 2 = 1) ∨
      (s.ramEnd < viewToPhys s.allocHeapBase + pageSize ∧
        viewToPhys s.allocHeapBase + pageSize = s.heapTop ∧
        s.count (s.boot.memSize / pageSize) = pageFree) := by
  have hfreed := allocInit_freed h hok
  have hle := hfreed.base_le
  obtain ⟨-, hbaseMod⟩ := h.heapBase_le
  obtain ⟨htopGe, htopLt, htopMod⟩ := s.heapTop_bounds
  have hge : s.boot.physBase ≤ viewToPhys s.allocHeapBase := by
    have hwindowGe := h.window_ge
    have htop := h.top_lt
    have habove := h.heapBase_above
    unfold viewToPhys at *
    omega
  -- the last page that is freed
  obtain ⟨k, hk⟩ := exists_pageAddr (s := s) (a := s.heapTop - pageSize)
    h.aligned (by unfold pageSize at *; omega)
    (by unfold pageSize at *; omega)
  have hlast : s.pageAddr k + pageSize = s.heapTop := by
    unfold pageSize at *
    omega
  have hbase : viewToPhys s.allocHeapBase ≤ s.pageAddr k := by
    unfold pageSize at *
    omega
  by_cases hin : s.pageAddr k + pageSize ≤ s.ramEnd
  · left
    have hend := hp.released_le h hok hin (.inr ⟨hbase, by
      unfold pageSize at *
      omega⟩)
    rw [hlast] at hend
    unfold heapTop ramTop pageSize at *
    omega
  · right
    have honly : viewToPhys s.allocHeapBase = s.pageAddr k := by
      by_contra hmore
      obtain ⟨j, hj⟩ := exists_pageAddr (s := s) (a := s.pageAddr k - pageSize)
        h.aligned (by unfold pageSize at *; omega)
        (by unfold pageSize at *; omega)
      have hend := hp.released_le h hok (k := j)
        (by rw [← hj]; unfold pageSize at *; omega)
        (.inr (by rw [← hj]; unfold pageSize at *; omega))
      rw [← hj] at hend
      unfold pageSize at *
      omega
    have hkEq : k = s.boot.memSize / pageSize := by
      unfold pageAddr ramEnd pageSize at *
      omega
    rw [honly]
    refine ⟨Nat.lt_of_not_le hin, hlast, ?_⟩
    by_contra hbusy
    have hhead := hfreed.head k hbase hlast (by
      rw [count, afterWiring_ppageList, if_neg (by omega), hkEq]
      exact hbusy)
    obtain ⟨l, hchain, hpages, -⟩ := hp.free
    have hmem := hchain.head_mem (by rw [hhead]; exact s.pageAddr_ne_zero k)
    have hsub := (hpages _ hmem).1
    rw [hhead] at hsub
    have htop := hsub (show s.heapTop - 1 ∈ pageBytes (s.pageAddr k) from
      ⟨by unfold pageSize at *; omega, by unfold pageSize at *; omega⟩)
    have hlt := htop.2
    unfold pageSize at *
    omega

/-- Where the last MiB is kept, no page of it is freed. -/
theorem LastMiBKept.released_le (hkept : s.LastMiBKept) (h : s.InitLayout)
    {k : ℕ} (hk : s.pageAddr k + pageSize ≤ s.ramEnd)
    (hreleased : s.Released (s.pageAddr k)) :
    s.pageAddr k + pageSize ≤ s.ramEnd - 2 ^ 20 := by
  have haligned := h.aligned
  rcases hreleased with ⟨hge, hlt⟩ | ⟨hge, hlt⟩
  · have hwindow := hkept.window (by unfold viewToPhys at *; omega)
    unfold Mm.pageAddr at *
    unfold viewToPhys staticWindowEnd pageSize at *
    omega
  · rcases hkept.heap with ⟨hmod, hbit⟩ | hempty | ⟨hend, htop, -⟩
    · unfold Mm.pageAddr heapTop ramTop pageSize at *
      omega
    · omega
    · obtain ⟨-, hbaseMod⟩ := h.heapBase_le
      unfold Mm.pageAddr at *
      unfold pageSize at *
      omega

theorem LastMiBKept.freeList (hkept : s.LastMiBKept) (h : s.InitLayout)
    (hok : s.allocInit = .ok s') : s'.FreeListWf := by
  refine (allocInit_freed h hok).list fun k hreleased hbusy => ?_
  by_contra hge
  have haligned := h.aligned
  have habove := h.window_le
  have htop := s.heapTop_bounds.2
  have hk : k = s.boot.memSize / pageSize := by
    unfold Released Mm.pageAddr ramEnd viewToPhys staticWindowEnd pageSize at *
    omega
  rw [Mm.count, afterWiring_ppageList, if_neg hge, hk] at hbusy
  have hend : s.ramEnd < s.pageAddr k + pageSize :=
    Nat.lt_of_not_le fun hle => hge (lt_ppages_iff.mpr hle)
  rcases hreleased with ⟨hcap, hlt⟩ | ⟨hge', hlt⟩
  · unfold Mm.pageAddr at *
    unfold viewToPhys staticWindowEnd pageSize at *
    omega
  · rcases hkept.heap with ⟨hmod, hbit⟩ | hempty | ⟨-, -, hfree⟩
    · unfold Mm.pageAddr heapTop ramTop pageSize at *
      omega
    · omega
    · exact hbusy hfree

theorem LastMiBKept.partition (hkept : s.LastMiBKept) (h : s.InitLayout)
    (hok : s.allocInit = .ok s') : s.InitialPartition s' := by
  have hfreed := allocInit_freed h hok
  have hppages : s'.ppages = s.boot.memSize / pageSize :=
    hfreed.layout.ppages.trans s.afterWiring_ppages
  have hapart : ∀ k < s'.ppages, s.Released (s.pageAddr k) →
      Disjoint (pageBytes (s.pageAddr k)) (s.keptRegion s') := by
    intro k hk hreleased
    refine (h.released_apart hok hreleased).mpr (.inl ?_)
    exact hkept.released_le h (lt_ppages_iff.mp (hppages ▸ hk)) hreleased
  obtain ⟨l, hl⟩ := hkept.freeList h hok
  refine ⟨⟨l, hl.chain, fun pa hpa => ?_, fun k hk hge hle => ?_⟩,
    fun k hk hmeets => ?_⟩
  · obtain ⟨k, hk, -, hfree, rfl⟩ := (hl.mem_iff pa).mp hpa
    have hreleased : s.Released (s.pageAddr k) := by
      by_contra hnot
      rw [(hfreed.count hk).2 hnot] at hfree
      exact absurd hfree (by decide)
    rw [hfreed.pageAddr]
    refine ⟨?_, hapart k hk hreleased⟩
    have hend := lt_ppages_iff.mp (hppages ▸ hk)
    exact Set.Ico_subset_Ico (Nat.le_add_right _ _) hend
  · rw [hfreed.pageAddr] at hge hle
    refine (hl.mem_iff _).mpr ⟨k, hk, Finset.notMem_empty k, ?_, rfl⟩
    refine (hfreed.count hk).1 (.inr ⟨hge, ?_⟩)
    have htop := s.heapTop_bounds.1
    unfold pageSize at *
    omega
  · rw [hfreed.pageAddr] at hmeets
    exact (hfreed.count hk).2 fun hreleased => hmeets (hapart k hk hreleased)

/-- RAM is partitioned as intended exactly if the last MiB is kept. -/
theorem initialPartition_iff (h : s.InitLayout) (hok : s.allocInit = .ok s') :
    s.InitialPartition s' ↔ s.LastMiBKept := by
  constructor
  · intro hp
    refine ⟨hp.window h hok, ?_⟩
    by_cases hempty : viewToPhys s.allocHeapBase = s.heapTop
    · exact .inr (.inl hempty)
    · exact (hp.heap h hok hempty).imp_right .inr
  · exact fun hkept => hkept.partition h hok

end Partition

/-! ## Two boots -/

theorem physForceFree_total {s : Mm} {i : ℕ} (pa size : ℕ)
    (hpa : pa = s.pageAddr i)
    (hlt : pa < 2 ^ 64) (hbound : i + size / pageSize ≤ s.ppages + 1) :
    ∃ s', physForceFree pa size s = .ok s' := by
  have hoff : sub64 pa s.boot.physBase = i * pageSize := by
    rw [sub64_of_le (by rw [hpa]; exact Nat.le_add_right _ _) hlt, hpa,
      pageAddr_sub_physBase]
  obtain ⟨s', hloop, -⟩ := Outcome.forRange_returns (f := physForceFreePage)
    (P := fun _ a => a.ppages = s.ppages) (i := i) (n := size / pageSize)
    (fun j a _ hj ha => by
      obtain ⟨b, hb⟩ := physForceFreePage_returns (s := a) (i := j) (by omega)
      exact ⟨b, hb, (SameLayout.physForceFreePage hb).ppages.trans ha⟩) rfl
  refine ⟨s', ?_⟩
  unfold physForceFree panicIf
  simp only [hoff, mul_pageSize_mod, mul_pageSize_div]
  exact hloop

theorem InitLayout.window_returns {s : Mm} (h : s.InitLayout)
    (hcap : kCacheableView ≤ s.allocStaticHardcap) :
    ∃ s₁ : Mm, SameLayout s.afterWiring s₁ ∧
      (if s.allocStaticHardcap < staticWindowEnd then do
        let pa ← vatophysStatic s.allocStaticHardcap
        let s₁ ← physForceFree pa
          (staticWindowEnd - s.allocStaticHardcap) s.afterWiring
        pure (s₁.setAllocStaticEnd s.allocStaticHardcap)
      else pure s.afterWiring : Outcome Mm) = .ok s₁ := by
  by_cases hlt : s.allocStaticHardcap < staticWindowEnd
  · have hphys : staticToPhys s.allocStaticHardcap =
        viewToPhys s.allocStaticHardcap := by
      unfold staticToPhys viewToPhys kCacheableView at *
      omega
    obtain ⟨c, hc, -⟩ := h.exists_hardcap
    have hwin := h.window_le
    obtain ⟨s₀, hfree⟩ := physForceFree_total (s := s.afterWiring) (i := c)
      (viewToPhys s.allocStaticHardcap)
      (staticWindowEnd - s.allocStaticHardcap)
      (by rw [hc, pageAddr, pageAddr, afterWiring_boot])
      (by unfold viewToPhys staticWindowEnd at *; omega)
      (by
        rw [afterWiring_ppages]
        unfold pageAddr ramEnd viewToPhys staticWindowEnd pageSize at *
        omega)
    refine ⟨s₀.setAllocStaticEnd s.allocStaticHardcap,
      (SameLayout.physForceFree hfree).trans (SameLayout.setAllocStaticEnd _ _), ?_⟩
    rw [if_pos hlt]
    refine Outcome.bind_eq_ok.mpr ⟨viewToPhys s.allocStaticHardcap,
      vatophysStatic_ok.mpr ⟨⟨hcap, ?_⟩, hphys⟩, ?_⟩
    · unfold kCacheableView staticWindowEnd at *
      omega
    · exact Outcome.bind_eq_ok.mpr ⟨s₀, hfree, rfl⟩
  · rw [if_neg hlt]
    exact ⟨_, SameLayout.refl _, rfl⟩

/-- `alloc_init` returns if the heap, which may be empty, lies in the cacheable
view. -/
theorem InitLayout.allocInit_returns {s : Mm} (h : s.InitLayout)
    (hle : viewToPhys s.allocHeapBase ≤ s.heapTop)
    (hview : s.allocHeapBase < 0x500000000)
    (hcap : kCacheableView ≤ s.allocStaticHardcap) :
    ∃ s', s.allocInit = .ok s' := by
  obtain ⟨s₁, hlayout, hwindow⟩ := h.window_returns hcap
  have hboot : s₁.boot = s.boot := hlayout.boot.trans s.afterWiring_boot
  obtain ⟨i, hi⟩ := h.exists_heapBase
  obtain ⟨s', hheap⟩ := physForceFree_total (s := s₁) (i := i)
    (viewToPhys s.allocHeapBase) (s.heapTop - viewToPhys s.allocHeapBase)
    (by rw [hi, pageAddr, pageAddr, hboot])
    (by unfold viewToPhys; omega)
    (by
      rw [hlayout.ppages, afterWiring_ppages]
      have htop := s.heapTop_bounds.2.1
      unfold pageAddr ramEnd pageSize at *
      omega)
  refine ⟨s', ?_⟩
  unfold allocInit
  rw [if_neg (not_not_intro h.fresh.allocStaticBase)]
  refine Outcome.bind_eq_ok.mpr ⟨s₁, hwindow, ?_⟩
  have hviewGe : kCacheableView ≤ s.allocHeapBase := by
    have habove := h.heapBase_above
    unfold viewToPhys at habove
    unfold staticWindowEnd at habove
    unfold kCacheableView
    omega
  refine Outcome.bind_eq_ok.mpr ⟨viewToPhys s.allocHeapBase,
    vatophysStatic_ok.mpr ⟨⟨hviewGe, hview⟩, h.staticToPhys_heapBase⟩, ?_⟩
  rwa [h.heapSize hle]

/-- A machine like `bootExample`, with 1 MiB less. -/
def oddMiB : Mm :=
  { bootExample with boot :=
    { bootExample.boot with
      memSize := 0x7ff00000
      ram_fits := by decide } }

theorem bootExample_initLayout : bootExample.InitLayout := by
  have hbase : bootExample.initialStaticBase = 0x404000000 := by
    unfold initialStaticBase sub64
    decide
  refine ⟨bootExample_fresh, by decide, ?_, ?_, by decide, by decide, by decide⟩
  · rw [hbase]
    decide
  · rw [hbase]
    decide

theorem oddMiB_initLayout : oddMiB.InitLayout := by
  have hbase : oddMiB.initialStaticBase = 0x404000000 := by
    unfold initialStaticBase sub64
    decide
  refine ⟨⟨rfl, rfl, rfl, rfl⟩, by decide, ?_, ?_, by decide, by decide,
    by decide⟩
  · rw [hbase]
    decide
  · rw [hbase]
    decide

theorem oddMiB_lastMiBKept : oddMiB.LastMiBKept :=
  ⟨fun _ => by decide, .inl (by decide)⟩

theorem initialPartition_oddMiB :
    ∃ s', oddMiB.allocInit = .ok s' ∧ oddMiB.InitialPartition s' := by
  have hcap := oddMiB_initLayout.hardcap_eq
  obtain ⟨s', hok⟩ := oddMiB_initLayout.allocInit_returns (by decide) (by decide)
    (by
      rw [hcap]
      unfold initialStaticBase sub64
      decide)
  exact ⟨s', hok, (initialPartition_iff oddMiB_initLayout hok).mpr
    oddMiB_lastMiBKept⟩

/-- With 2 GiB of RAM the pages of the last MiB are freed. -/
theorem last_MiB_freed :
    bootExample.InitLayout ∧ ∃ s', bootExample.allocInit = .ok s' ∧
      ¬ bootExample.InitialPartition s' := by
  obtain ⟨s', hok, -, -⟩ := bootExample_allocInit
  refine ⟨bootExample_initLayout, s', hok, fun hp => ?_⟩
  have hne : viewToPhys bootExample.allocHeapBase ≠ bootExample.heapTop := by
    decide
  rcases hp.heap bootExample_initLayout hok hne with ⟨-, hbit⟩ | ⟨hend, -, -⟩
  · exact absurd hbit (by decide)
  · exact absurd hend (by decide)

end Mm

end PongoOS
