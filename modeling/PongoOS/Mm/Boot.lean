import PongoOS.Mm.Allocation

/-!
# The allocator after `alloc_init`

`alloc_init` wires every page and then force-frees two ranges.  If these ranges
consist of pages of RAM, the free list it leaves behind is well formed.
-/

namespace PongoOS

namespace Mm

/-- The globals before `alloc_init` has run. -/
structure Fresh (s : Mm) : Prop where
  allocStaticBase : s.allocStaticBase = 0
  paHead : s.paHead = 0
  freePages : s.freePages = 0
  wiredPages : s.wiredPages = 0

/-- The two ranges that `alloc_init` frees consist of pages of RAM. -/
def InitRangesInRam (s : Mm) : Prop :=
  (s.allocStaticHardcap < staticWindowEnd →
    s.afterWiring.InRam (staticToPhys s.allocStaticHardcap)
      (staticWindowEnd - s.allocStaticHardcap)) ∧
  s.afterWiring.InRam (staticToPhys s.allocHeapBase)
    (sub64 s.allocHeapEnd s.allocHeapBase)

/-! ## Wiring every page -/

section WirePages

variable (n : ℕ) (s : Mm)

@[simp] theorem wirePages_boot : (wirePages n s).boot = s.boot := by
  induction n with
  | zero => rfl
  | succ n ih => simpa [wirePages] using ih

@[simp] theorem wirePages_ppages : (wirePages n s).ppages = s.ppages := by
  induction n with
  | zero => rfl
  | succ n ih => simpa [wirePages] using ih

@[simp] theorem wirePages_paHead : (wirePages n s).paHead = s.paHead := by
  induction n with
  | zero => rfl
  | succ n ih => simpa [wirePages] using ih

@[simp] theorem wirePages_freePages :
    (wirePages n s).freePages = s.freePages := by
  induction n with
  | zero => rfl
  | succ n ih => simpa [wirePages] using ih

theorem wirePages_ppageList (i : ℕ) : (wirePages n s).ppageList i =
    if i < n then pageWired else s.ppageList i := by
  induction n with
  | zero => rfl
  | succ n ih =>
      rw [wirePages, setWiredPages_ppageList]
      by_cases hi : i = n
      · rw [hi, if_pos (Nat.lt_succ_self n)]
        exact Function.update_self _ _ _
      · rw [setEntry_ppageList_of_ne _ _ _ hi, ih]
        exact if_congr (by omega) rfl rfl

end WirePages

section AfterWiring

variable (s : Mm)

@[simp] theorem afterWiring_boot : s.afterWiring.boot = s.boot := by
  rw [afterWiring, setStaticWindow_boot, wirePages_boot, setPpages_boot]

@[simp] theorem afterWiring_ppages :
    s.afterWiring.ppages = s.boot.memSize / pageSize := by
  rw [afterWiring, setStaticWindow_ppages, wirePages_ppages, setPpages_ppages]

@[simp] theorem afterWiring_paHead : s.afterWiring.paHead = s.paHead := by
  rw [afterWiring, setStaticWindow_paHead, wirePages_paHead, setPpages_paHead]

@[simp] theorem afterWiring_freePages :
    s.afterWiring.freePages = s.freePages := by
  rw [afterWiring, setStaticWindow_freePages, wirePages_freePages,
    setPpages_freePages]

@[simp] theorem afterWiring_allocStaticBase :
    s.afterWiring.allocStaticBase = s.initialStaticBase := by
  rw [afterWiring, setStaticWindow_allocStaticBase]

theorem afterWiring_ppageList (i : ℕ) : s.afterWiring.ppageList i =
    if i < s.boot.memSize / pageSize then pageWired else s.ppageList i := by
  rw [afterWiring, setStaticWindow_ppageList, wirePages_ppageList,
    setPpages_ppageList]

theorem afterWiring_count {i : ℕ} (hi : i < s.boot.memSize / pageSize) :
    s.afterWiring.count i = pageWired := by
  rw [count, afterWiring_ppageList, if_pos hi, refBits_pageWired]

end AfterWiring

theorem Fresh.afterWiring {s : Mm} (h : s.Fresh) :
    FreeListSans s.afterWiring [] ∅ := by
  refine ⟨?_, List.nodup_nil, ?_, ?_, ?_, ?_⟩
  · rw [afterWiring_paHead]
    exact h.paHead
  · intro pa
    constructor
    · exact fun hmem => absurd hmem List.not_mem_nil
    · rintro ⟨i, hi, -, hfree, -⟩
      rw [afterWiring_ppages] at hi
      rw [afterWiring_count s hi] at hfree
      exact absurd hfree (by decide)
  · exact fun i hi => absurd hi (Finset.notMem_empty i)
  · rw [afterWiring_freePages, h.freePages]
    rfl
  · rw [afterWiring_ppages, afterWiring_boot]
    exact Nat.div_mul_le_self _ _

/-! ## `alloc_init` -/

/-- The two calls of `phys_force_free` in `alloc_init`. -/
theorem allocInit_ok {s s' : Mm} (hfresh : s.allocStaticBase = 0)
    (hok : s.allocInit = .ok s') :
    ∃ s₁, (s.allocStaticHardcap < staticWindowEnd ∧
        kCacheableView ≤ s.allocStaticHardcap ∧
        (∃ s₀, physForceFree (staticToPhys s.allocStaticHardcap)
            (staticWindowEnd - s.allocStaticHardcap) s.afterWiring = .ok s₀ ∧
          s₁ = s₀.setAllocStaticEnd s.allocStaticHardcap) ∨
      staticWindowEnd ≤ s.allocStaticHardcap ∧ s₁ = s.afterWiring) ∧
      physForceFree (staticToPhys s.allocHeapBase)
        (sub64 s.allocHeapEnd s.allocHeapBase) s₁ = .ok s' := by
  unfold allocInit at hok
  rw [if_neg (not_not_intro hfresh)] at hok
  simp only [Outcome.bind_eq_ok, vatophysStatic_ok] at hok
  obtain ⟨s₁, hstatic, pa, ⟨-, rfl⟩, hheap⟩ := hok
  refine ⟨s₁, ?_, hheap⟩
  by_cases hcap : s.allocStaticHardcap < staticWindowEnd
  · rw [if_pos hcap] at hstatic
    simp only [Outcome.bind_eq_ok, vatophysStatic_ok,
      Outcome.pure_eq_ok] at hstatic
    obtain ⟨pa, ⟨hview, rfl⟩, s₀, hfree, rfl⟩ := hstatic
    exact Or.inl ⟨hcap, hview.1, s₀, hfree, rfl⟩
  · rw [if_neg hcap] at hstatic
    exact Or.inr ⟨Nat.le_of_not_lt hcap, (Outcome.pure_eq_ok.mp hstatic).symm⟩

theorem FreeListSans.setAllocStaticEnd {s : Mm} {l : List ℕ} {X : Finset ℕ}
    (h : FreeListSans s l X) (e : ℕ) :
    FreeListSans (s.setAllocStaticEnd e) l X :=
  ⟨h.chain, h.nodup, h.mem_iff, h.sansFree, h.total, h.sized⟩

theorem SameLayout.setAllocStaticEnd (s : Mm) (e : ℕ) :
    SameLayout s (s.setAllocStaticEnd e) :=
  ⟨rfl, rfl, rfl, rfl, rfl⟩

/-- `alloc_init` can only succeed on a static base inside the static view, so
it never runs twice. -/
theorem initialStaticBase_ne_zero {s s' : Mm} (hfresh : s.allocStaticBase = 0)
    (hok : s.allocInit = .ok s') : s.initialStaticBase ≠ 0 := by
  intro hzero
  obtain ⟨s₁, hcap, -⟩ := allocInit_ok hfresh hok
  have hhardcap : s.allocStaticHardcap = 1024 * 1024 * 64 := by
    unfold allocStaticHardcap
    omega
  rw [hhardcap] at hcap
  rcases hcap with ⟨-, hview, -⟩ | ⟨hend, -⟩
  · exact absurd hview (by decide)
  · exact absurd hend (by decide)

theorem allocInit_layout {s s' : Mm} (hfresh : s.allocStaticBase = 0)
    (hok : s.allocInit = .ok s') : SameLayout s.afterWiring s' := by
  obtain ⟨s₁, hcap, hheap⟩ := allocInit_ok hfresh hok
  have hfirst : SameLayout s.afterWiring s₁ := by
    rcases hcap with ⟨-, -, s₀, hfree, rfl⟩ | ⟨-, rfl⟩
    · exact (SameLayout.physForceFree hfree).trans
        (SameLayout.setAllocStaticEnd s₀ _)
    · exact SameLayout.refl _
  exact hfirst.trans (SameLayout.physForceFree hheap)

theorem allocInit_allocStaticBase {s s' : Mm}
    (hfresh : s.allocStaticBase = 0) (hok : s.allocInit = .ok s') :
    s'.allocStaticBase ≠ 0 := by
  rw [(allocInit_layout hfresh hok).allocStaticBase,
    afterWiring_allocStaticBase]
  exact initialStaticBase_ne_zero hfresh hok

theorem InRam.congr {s s' : Mm} {pa size : ℕ} (h : s.InRam pa size)
    (hboot : s'.boot = s.boot) (hppages : s'.ppages = s.ppages) :
    s'.InRam pa size := by
  unfold InRam
  rwa [hboot, hppages]

theorem Fresh.allocInit {s s' : Mm} (h : s.Fresh) (hram : s.InitRangesInRam)
    (hok : s.allocInit = .ok s') : s'.FreeListWf := by
  obtain ⟨s₁, hcap, hheap⟩ := allocInit_ok h.allocStaticBase hok
  have hfirst : SameLayout s.afterWiring s₁ ∧
      ∃ l, FreeListSans s₁ l ∅ := by
    rcases hcap with ⟨hlt, -, s₀, hfree, rfl⟩ | ⟨-, rfl⟩
    · obtain ⟨l, hl⟩ := h.afterWiring.physForceFree (hram.1 hlt) hfree
      exact ⟨(SameLayout.physForceFree hfree).trans
        (SameLayout.setAllocStaticEnd s₀ _), l, hl.setAllocStaticEnd _⟩
    · exact ⟨SameLayout.refl _, [], h.afterWiring⟩
  obtain ⟨hlayout, l, hl⟩ := hfirst
  exact hl.physForceFree (hram.2.congr hlayout.boot hlayout.ppages) hheap

/-! ## A boot that returns -/

theorem physForceFreePage_returns {s : Mm} {i : ℕ} (hi : i ≤ s.ppages) :
    ∃ s', physForceFreePage i s = .ok s' := by
  unfold physForceFreePage panicIf
  rw [if_neg (Nat.not_lt.mpr hi)]
  exact ⟨_, rfl⟩

theorem physForceFreePage_entry {s s' : Mm} {i : ℕ}
    (hok : physForceFreePage i s = .ok s') :
    s'.ppageList i = pageFree ∧
      (∀ k, k ≠ i → s'.ppageList k = s.ppageList k) ∧
      (s.count i ≠ pageFree → s'.paHead = s.pageAddr i) := by
  obtain ⟨-, ⟨hfree, rfl⟩ | ⟨-, w, -, rfl⟩⟩ := physForceFreePage_ok hok
  · exact ⟨setEntry_ppageList_self s i pageFree,
      fun k hk => setEntry_ppageList_of_ne s i pageFree hk,
      fun hbusy => absurd hfree hbusy⟩
  · refine ⟨?_, fun k hk => ?_, fun _ => ?_⟩
    · rw [setWiredPages_ppageList, setEntry_ppageList_self]
    · rw [setWiredPages_ppageList, setEntry_ppageList_of_ne _ i pageFree hk,
        physPageWasFreed_ppageList]
    · rw [setWiredPages_paHead, setEntry_paHead, physPageWasFreed_paHead]

/-- Force-freeing `n` busy pages from page `i` on.  The bound check lets the index
behind the last page pass. -/
theorem physForceFree_returns {s : Mm} {i n pa size : ℕ}
    (hpa : pa = s.pageAddr i) (hsize : size / pageSize = n) (hpos : 0 < n)
    (hi : i < s.ppages) (hend : i + n ≤ s.ppages + 1)
    (hsized : s.ppages * pageSize ≤ s.boot.memSize)
    (hbusy : ∀ k, i ≤ k → k < i + n → s.count k ≠ pageFree) :
    ∃ s', physForceFree pa size s = .ok s' ∧
      (∀ k, k < i ∨ i + n ≤ k → s'.ppageList k = s.ppageList k) ∧
      (∀ k, i ≤ k → k < i + n → s'.count k = pageFree) ∧
      s'.paHead = s.pageAddr (i + n - 1) := by
  have hloop := Outcome.forRange_returns (f := physForceFreePage)
    (P := fun j a => SameLayout s a ∧
      (∀ k, k < i ∨ j ≤ k → a.ppageList k = s.ppageList k) ∧
      (∀ k, i ≤ k → k < j → a.count k = pageFree) ∧
      (i < j → a.paHead = s.pageAddr (j - 1)))
    (fun j a hij hjn ha => by
      obtain ⟨hlayout, hsame, hfreed, -⟩ := ha
      obtain ⟨b, hb⟩ := physForceFreePage_returns (s := a) (i := j)
        (by rw [hlayout.ppages]; omega)
      obtain ⟨hfreeb, hothers, hhead⟩ := physForceFreePage_entry hb
      refine ⟨b, hb, hlayout.trans (SameLayout.physForceFreePage hb), ?_, ?_,
        fun _ => ?_⟩
      · intro k hk
        rw [hothers k (by omega)]
        exact hsame k (by omega)
      · intro k hik hkj
        by_cases hkeq : k = j
        · rw [count, hkeq, hfreeb, refBits_pageFree]
        · rw [count, hothers k hkeq]
          exact hfreed k hik (by omega)
      · rw [hhead, hlayout.pageAddr, Nat.add_sub_cancel]
        rw [count, hsame j (Or.inr le_rfl)]
        exact hbusy j hij hjn)
    (i := i) (n := n)
    ⟨SameLayout.refl s, fun _ _ => rfl, fun k hik hki => by omega,
      fun h => absurd h (lt_irrefl i)⟩
  obtain ⟨s', hrun, -, hsame, hfreed, hhead⟩ := hloop
  refine ⟨s', ?_, hsame, hfreed, hhead (by omega)⟩
  unfold physForceFree panicIf
  rw [hpa, sub64_pageAddr hi hsized, hsize]
  simp only [mul_pageSize_mod, mul_pageSize_div]
  exact hrun

/-- `alloc_init` on a machine whose static window ends at `0x408000000` and whose
heap starts at page `0x6821` and has `n` pages.  The last of these heads the free
list, and the words behind the counters are untouched unless the heap reaches
them. -/
theorem allocInit_returns {s : Mm} {n : ℕ} (hfresh : s.allocStaticBase = 0)
    (hphys : s.boot.physBase = 0x800000000)
    (hmem : s.boot.memSize / pageSize = 0x20000)
    (hcap : s.allocStaticHardcap = 0x408000000)
    (hbase : s.allocHeapBase = 0x41a084000)
    (hlen : sub64 s.allocHeapEnd s.allocHeapBase / pageSize = n) (hpos : 0 < n)
    (hend : 0x6821 + n ≤ 0x20001) (hlist : ∀ k, s.count k ≠ pageFree) :
    ∃ s', s.allocInit = .ok s' ∧ s'.paHead = s.pageAddr (0x6821 + n - 1) ∧
      ∀ k, 0x20000 ≤ k → 0x6821 + n ≤ k → s'.ppageList k = s.ppageList k := by
  have hppages : s.afterWiring.ppages = 0x20000 := by rw [afterWiring_ppages, hmem]
  have hboot := afterWiring_boot s
  have hsized : 0x20000 * pageSize ≤ s.boot.memSize := by
    rw [← hmem]
    exact Nat.div_mul_le_self _ _
  have hwired : ∀ k, s.afterWiring.count k ≠ pageFree := by
    intro k
    by_cases hk : k < s.boot.memSize / pageSize
    · rw [afterWiring_count s hk]
      decide
    · rw [count, afterWiring_ppageList, if_neg hk]
      exact hlist k
  obtain ⟨s₁, hfirst, hsame₁, -, -⟩ := physForceFree_returns
    (s := s.afterWiring) (i := 0x2000) (n := 0x3ff8)
    (show 0x808000000 = s.afterWiring.pageAddr 0x2000 by
      rw [pageAddr, hboot, hphys]
      decide)
    (show 0xffe0000 / pageSize = 0x3ff8 by decide) (by decide)
    (by rw [hppages]; decide) (by rw [hppages]; decide)
    (by rw [hppages, hboot]; exact hsized) (fun k _ _ => hwired k)
  have hlayout := SameLayout.physForceFree hfirst
  obtain ⟨s₂, hsecond, hsame₂, -, hhead⟩ := physForceFree_returns
    (s := s₁.setAllocStaticEnd 0x408000000) (i := 0x6821) (n := n)
    (show 0x81a084000 =
        (s₁.setAllocStaticEnd 0x408000000).pageAddr 0x6821 by
      rw [pageAddr, setAllocStaticEnd_boot, hlayout.boot, hboot, hphys]
      decide)
    hlen hpos
    (by rw [setAllocStaticEnd_ppages, hlayout.ppages, hppages]; decide)
    (by rw [setAllocStaticEnd_ppages, hlayout.ppages, hppages]; exact hend)
    (by
      rw [setAllocStaticEnd_ppages, setAllocStaticEnd_boot, hlayout.ppages,
        hlayout.boot, hppages, hboot]
      exact hsized)
    (fun k hk _ => by
      rw [count, setAllocStaticEnd_ppageList, hsame₁ k (by omega)]
      exact hwired k)
  refine ⟨s₂, ?_, ?_, fun k hk hkn => ?_⟩
  · rw [hbase] at hsecond
    unfold allocInit
    rw [if_neg (not_not_intro hfresh), hcap, hbase,
      show staticWindowEnd - 0x408000000 = 0xffe0000 by decide]
    refine Outcome.bind_eq_ok.mpr ⟨s₁.setAllocStaticEnd 0x408000000, ?_, ?_⟩
    · rw [if_pos (by decide)]
      refine Outcome.bind_eq_ok.mpr ⟨0x808000000,
        vatophysStatic_ok.mpr (by decide), ?_⟩
      exact Outcome.bind_eq_ok.mpr ⟨s₁, hfirst, rfl⟩
    · exact Outcome.bind_eq_ok.mpr ⟨0x81a084000,
        vatophysStatic_ok.mpr (by decide), hsecond⟩
  · rw [hhead, pageAddr, pageAddr, setAllocStaticEnd_boot, hlayout.boot, hboot]
  · rw [hsame₂ k (.inr hkn), setAllocStaticEnd_ppageList,
      hsame₁ k (.inr (by omega)), afterWiring_ppageList, if_neg (by omega)]

theorem dramBase_pos : 0 < 0x800000000 := by decide

/-- A machine with 2 GiB of RAM at `0x800000000`, before `alloc_init`.  The
words of `ppage_list` and behind it still hold `1`. -/
def bootExample : Mm where
  boot :=
    { physBase := 0x800000000
      memSize := 0x80000000
      topOfKernelData := 0x804000000
      physBase_pos := dramBase_pos
      ram_fits := by decide }
  earlyHeapBase := 0x41a000000
  is16k := true
  mem := fun _ => 0
  ppageList := fun _ => 1
  ppages := 0
  paHead := 0
  freePages := 0
  wiredPages := 0
  allocStaticBase := 0
  allocStaticCurrent := 0
  allocStaticEnd := 0
  ttbFreelist := 0
  ttbAllocBase := 0x817ff4000

theorem bootExample_fresh : bootExample.Fresh := ⟨rfl, rfl, rfl, rfl⟩

theorem bootExample_numbers :
    bootExample.allocStaticHardcap = 0x408000000 ∧
      bootExample.allocHeapBase = 0x41a084000 ∧
      sub64 bootExample.allocHeapEnd bootExample.allocHeapBase =
        0x65f7c000 := by
  refine ⟨?_, ?_, ?_⟩
  · unfold allocStaticHardcap initialStaticBase sub64
    decide
  · unfold allocHeapBase earlyHeapEnd
    decide
  · unfold allocHeapEnd allocHeapBase earlyHeapEnd phystokv sub64
    decide

theorem bootExample_ranges : bootExample.InitRangesInRam := by
  obtain ⟨hcap, hbase, hlen⟩ := bootExample_numbers
  unfold InitRangesInRam InRam
  rw [hlen, hcap, hbase, afterWiring_boot, afterWiring_ppages]
  refine ⟨fun _ => Or.inr ?_, Or.inr ?_⟩
  · decide
  · decide

/-- `alloc_init` returns on the example.  The last page of RAM heads the free
list and the word behind the counters is untouched. -/
theorem bootExample_allocInit :
    ∃ s, bootExample.allocInit = .ok s ∧ s.paHead = 0x87fffc000 ∧
      s.ppageList 0x20000 = 1 := by
  obtain ⟨hcap, hbase, hlen⟩ := bootExample_numbers
  obtain ⟨s, hok, hhead, hsame⟩ := allocInit_returns (s := bootExample)
    (n := 0x197df) rfl rfl (by decide) hcap hbase (by rw [hlen]; decide) (by decide)
    (by decide) (fun _ => show refBits 1 ≠ pageFree by decide)
  exact ⟨s, hok, hhead, hsame _ le_rfl (by decide)⟩

/-- The same machine with 4 KiB pages and 4 KiB more RAM, so that the last page of
16 KiB is not whole. -/
def partialPage : Mm :=
  { bootExample with
    boot := { bootExample.boot with
      memSize := 0x80001000
      ram_fits := by decide }
    is16k := false }

theorem partialPage_fresh : partialPage.Fresh := ⟨rfl, rfl, rfl, rfl⟩

/-- The heap ends behind the page that is not whole. -/
theorem partialPage_numbers :
    partialPage.allocStaticHardcap = 0x408000000 ∧
      partialPage.allocHeapBase = 0x41a084000 ∧
      sub64 partialPage.allocHeapEnd partialPage.allocHeapBase =
        0x65f80000 := by
  refine ⟨?_, ?_, ?_⟩
  · unfold allocStaticHardcap initialStaticBase sub64
    decide
  · unfold allocHeapBase earlyHeapEnd
    decide
  · unfold allocHeapEnd allocHeapBase earlyHeapEnd phystokv sub64
    decide

theorem partialPage_allocInit :
    ∃ s, partialPage.allocInit = .ok s ∧ s.paHead = 0x880000000 := by
  obtain ⟨hcap, hbase, hlen⟩ := partialPage_numbers
  obtain ⟨s, hok, hhead, -⟩ := allocInit_returns (s := partialPage)
    (n := 0x197e0) rfl rfl (by decide) hcap hbase (by rw [hlen]; decide) (by decide)
    (by decide) (fun _ => show refBits 1 ≠ pageFree by decide)
  exact ⟨s, hok, hhead⟩

end Mm

end PongoOS
