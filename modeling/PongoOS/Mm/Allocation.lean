import PongoOS.Mm.AllocatorSteps

/-!
# Allocation and release of pages

`TakesPage` and `DropsReference` say everything a successful `ppage_alloc` and
one turn of `phys_dereference` do to the counters and to memory.  `alloc_phys`
is handled through its scan: the run it settles on consists of free pages.
-/

namespace PongoOS

open DoublyLinked

namespace Mm

/-- `a` is an address inside page `i`. -/
def InPage (s : Mm) (i a : ℕ) : Prop :=
  s.pageAddr i ≤ a ∧ a < s.pageAddr i + pageSize

theorem inPage_pageAddr (s : Mm) (i : ℕ) : s.InPage i (s.pageAddr i) :=
  ⟨le_rfl, Nat.lt_add_of_pos_right (by decide)⟩

theorem inPage_pageAddr_add_eight (s : Mm) (i : ℕ) :
    s.InPage i (s.pageAddr i + 8) :=
  ⟨Nat.le_add_right _ _, Nat.add_lt_add_left (by decide) _⟩

theorem InPage.unique {s : Mm} {i j a : ℕ} (hi : s.InPage i a)
    (hj : s.InPage j a) : i = j := by
  simp only [InPage, pageAddr, pageSize] at hi hj
  omega

theorem SameLayout.inPage {s s' : Mm} (h : SameLayout s s') {i a : ℕ} :
    s'.InPage i a ↔ s.InPage i a := by
  simp [InPage, h.pageAddr]

/-- `a` lies in no free page of RAM. -/
def OutsideFree (s : Mm) (a : ℕ) : Prop :=
  ∀ i, i < s.ppages → s.count i = pageFree → ¬ s.InPage i a

/-! ## Taking pages -/

/-- Pages `i, ..., i + n - 1` went from free to one reference. -/
structure TakesPages (s s' : Mm) (i n : ℕ) : Prop where
  ram : i + n ≤ s.ppages
  wasFree : ∀ j, i ≤ j → j < i + n → s.count j = pageFree
  taken : ∀ j, i ≤ j → j < i + n → s'.count j = 1
  others : ∀ j, j < i ∨ i + n ≤ j → s'.ppageList j = s.ppageList j
  kept : ∀ a, s.OutsideFree a → s'.mem a = s.mem a
  wired : s'.wiredPages = s.wiredPages
  layout : SameLayout s s'

theorem TakesPages.refl (s : Mm) : TakesPages s s 0 0 := by
  refine ⟨Nat.zero_le _, ?_, ?_, fun _ _ => rfl, fun _ _ => rfl, rfl,
    SameLayout.refl s⟩
  · exact fun j _ hj => absurd hj (Nat.not_lt_zero j)
  · exact fun j _ hj => absurd hj (Nat.not_lt_zero j)

/-- The pages `i, ..., j - 1` are off the list, and nothing else happened. -/
structure Unlinked (s s' : Mm) (i j : ℕ) : Prop where
  list : ∃ l, FreeListSans s' l (Finset.Ico i j)
  counters : s'.ppageList = s.ppageList
  kept : ∀ a, s.OutsideFree a → s'.mem a = s.mem a
  wired : s'.wiredPages = s.wiredPages
  layout : SameLayout s s'

theorem Unlinked.count {s s' : Mm} {i j : ℕ} (h : Unlinked s s' i j) (k : ℕ) :
    s'.count k = s.count k := by
  simp [Mm.count, h.counters]

theorem Unlinked.outsideFree {s s' : Mm} {i j a : ℕ} (h : Unlinked s s' i j) :
    s'.OutsideFree a ↔ s.OutsideFree a := by
  simp [OutsideFree, h.layout.ppages, h.count, h.layout.inPage]

/-- A first reference changes one counter and the total. -/
theorem physReferencePage_first {s s' : Mm} {i : ℕ}
    (hfree : s.count i = pageFree) (hok : physReferencePage i s = .ok s') :
    s'.count i = 1 ∧ (∀ j, j ≠ i → s'.ppageList j = s.ppageList j) ∧
      s'.mem = s.mem ∧ s'.wiredPages = s.wiredPages := by
  obtain ⟨-, ⟨hwired, -⟩ | ⟨-, hbusy, -⟩ | ⟨-, rfl⟩⟩ :=
    physReferencePage_ok hok
  · rw [hfree] at hwired
    exact absurd hwired (by decide)
  · exact absurd hfree hbusy
  generalize hentry : withRefBits (s.ppageList i) (s.ppageList i + 1) = entry
  have hone : refBits entry = 1 := by
    rw [← hentry, refBits_withRefBits]
    simp only [Mm.count, refBits, pageFree] at hfree ⊢
    omega
  refine ⟨?_, ?_, rfl, rfl⟩
  · rw [setFreePages_count, setEntry_count_self, hone]
  · intro j hj
    rw [setFreePages_ppageList, setEntry_ppageList_of_ne s i entry hj]

namespace FreeListSans

variable {s s' : Mm} {l : List ℕ} {X : Finset ℕ} {i : ℕ}

/-- The links of a listed page lead to listed pages. -/
theorem links_free (h : FreeListSans s l X) (hi : i < s.ppages)
    (hiX : i ∉ X) (hfree : s.count i = pageFree) :
    (s.nextLink (s.pageAddr i) = 0 ∨ ∃ j, j < s.ppages ∧
      s.count j = pageFree ∧ s.nextLink (s.pageAddr i) = s.pageAddr j) ∧
    (s.prevLink (s.pageAddr i) = 0 ∨ ∃ j, j < s.ppages ∧
      s.count j = pageFree ∧ s.prevLink (s.pageAddr i) = s.pageAddr j) := by
  obtain ⟨xs, ys, rfl⟩ := List.append_of_mem
    (h.pageAddr_mem.mpr ⟨hi, hiX, hfree⟩)
  have hpage : ∀ y ∈ xs ++ s.pageAddr i :: ys, ∃ j, j < s.ppages ∧
      s.count j = pageFree ∧ y = s.pageAddr j := by
    intro y hy
    obtain ⟨j, hj, -, hjfree, hjaddr⟩ := h.exists_page hy
    exact ⟨j, hj, hjfree, hjaddr⟩
  constructor
  · rcases h.chain.mem_tail_of_next with hzero | hmem
    · exact Or.inl hzero
    · exact Or.inr (hpage _ (by simp [hmem]))
  · rcases h.chain.mem_init_of_prev with ⟨-, hzero⟩ | hmem
    · exact Or.inl hzero
    · exact Or.inr (hpage _ (by simp [hmem]))

/-- Unlinking writes to free pages only. -/
theorem unlinkNode_kept (h : FreeListSans s l X) (hi : i < s.ppages)
    (hiX : i ∉ X) (hfree : s.count i = pageFree) {a : ℕ}
    (ha : s.OutsideFree a) :
    (s.unlinkNode (s.pageAddr i)).mem a = s.mem a := by
  obtain ⟨hnext, hprev⟩ := h.links_free hi hiX hfree
  refine unlinkNode_mem_of_ne (fun hne heq => ?_) (fun hne heq => ?_)
  · obtain ⟨j, hj, hjfree, hjaddr⟩ := hnext.resolve_left hne
    refine ha j hj hjfree ?_
    rw [heq, hjaddr]
    exact s.inPage_pageAddr_add_eight j
  · obtain ⟨j, hj, hjfree, hjaddr⟩ := hprev.resolve_left hne
    refine ha j hj hjfree ?_
    rw [heq, hjaddr]
    exact s.inPage_pageAddr j

theorem head_page (h : FreeListSans s l X) (hhead : s.paHead ≠ 0) :
    ∃ i, i < s.ppages ∧ i ∉ X ∧ s.count i = pageFree ∧
      s.paHead = s.pageAddr i ∧ s.prevLink (s.pageAddr i) = 0 := by
  obtain ⟨i, hi, hiX, hfree, haddr⟩ := h.exists_page (h.chain.head_mem hhead)
  refine ⟨i, hi, hiX, hfree, haddr, ?_⟩
  have hchain := h.chain
  cases l with
  | nil => exact absurd hchain hhead
  | cons x xs =>
      obtain ⟨hx, -, hprev, -⟩ := hchain
      rwa [← haddr, hx]

/-- One turn of `phys_unlink_contiguous`. -/
theorem unlinkNode_unlinked {i j : ℕ} {u : Mm} (hu : Unlinked s u i j)
    (hij : i ≤ j) (hj : j < s.ppages) (hfree : s.count j = pageFree) :
    Unlinked s (u.unlinkNode (u.pageAddr j)) i (j + 1) := by
  obtain ⟨l, hl⟩ := hu.list
  have hju : j < u.ppages := hu.layout.ppages ▸ hj
  have hjX : j ∉ Finset.Ico i j := by simp
  have hfreeu : u.count j = pageFree := (hu.count j).trans hfree
  have hshape := u.unlinkNode_shape (u.pageAddr j)
  refine ⟨?_, ?_, ?_, ?_, ?_⟩
  · obtain ⟨l', hl'⟩ := hl.unlink hju hjX hfreeu
    rw [← Nat.Ico_succ_right_eq_insert_Ico hij] at hl'
    exact ⟨l', hl'⟩
  · rw [hshape]
    exact hu.counters
  · intro a ha
    exact (hl.unlinkNode_kept hju hjX hfreeu (hu.outsideFree.mpr ha)).trans
      (hu.kept a ha)
  · rw [hshape]
    exact hu.wired
  · refine hu.layout.trans ?_
    rw [hshape]
    exact ⟨rfl, rfl, rfl, rfl, rfl⟩

theorem unlinked_refl (h : FreeListSans s l ∅) (i : ℕ) : Unlinked s s i i := by
  refine ⟨⟨l, ?_⟩, rfl, fun _ _ => rfl, rfl, SameLayout.refl s⟩
  rwa [Finset.Ico_self]

/-- Counting the first references of unlinked pages. -/
theorem takesPages {i n : ℕ} {u : Mm} (hu : Unlinked s u i (i + n))
    (hram : i + n ≤ s.ppages)
    (hloop : Outcome.forRange physReferencePage i n u = .ok s') :
    TakesPages s s' i n ∧ s'.mem = u.mem ∧ ∃ l', FreeListSans s' l' ∅ := by
  obtain ⟨l, hl⟩ := hu.list
  have htaken : ∀ j, i ≤ j → j < i + n →
      j < s.ppages ∧ s.count j = pageFree := by
    intro j hij hjn
    have hj := hl.sansFree j (Finset.mem_Ico.mpr ⟨hij, hjn⟩)
    rwa [hu.layout.ppages, hu.count] at hj
  obtain ⟨hlist, hones, hothers, hmem, hwired, hlayout⟩ :=
    Outcome.forRange_invariant
      (P := fun j a => FreeListSans a l (Finset.Ico j (i + n)) ∧
        (∀ k, i ≤ k → k < j → a.count k = 1) ∧
        (∀ k, k < i ∨ j ≤ k → a.ppageList k = s.ppageList k) ∧
        a.mem = u.mem ∧ a.wiredPages = u.wiredPages ∧ SameLayout s a)
      (fun j a b hij hjn ha hab => by
        obtain ⟨hla, hones, hothers, hmem, hwired, hlayout⟩ := ha
        have hj : j ∈ Finset.Ico j (i + n) :=
          Finset.mem_Ico.mpr ⟨le_rfl, hjn⟩
        have hfree : a.count j = pageFree := (hla.sansFree j hj).2
        obtain ⟨hone, hrest, hmemb, hwiredb⟩ :=
          physReferencePage_first hfree hab
        refine ⟨?_, ?_, ?_, hmemb.trans hmem, hwiredb.trans hwired,
          hlayout.trans (SameLayout.physReferencePage hab)⟩
        · rw [Nat.Ico_succ_left_eq_erase_Ico]
          exact hla.physReferencePage_taken hj hab
        · intro k hik hkj
          by_cases hkeq : k = j
          · rwa [hkeq]
          · rw [Mm.count, hrest k hkeq]
            exact hones k hik (by omega)
        · intro k hk
          rw [hrest k (by omega)]
          exact hothers k (by omega))
      ⟨hl, fun k _ _ => by omega, fun k _ => congrFun hu.counters k, rfl, rfl,
        hu.layout⟩ hloop
  refine ⟨⟨hram, fun j hij hjn => (htaken j hij hjn).2, hones, hothers, ?_,
    hwired.trans hu.wired, hlayout⟩, hmem, l, by simpa using hlist⟩
  intro a ha
  rw [hmem, hu.kept a ha]

/-! ## `ppage_alloc` -/

/-- Popping the head is unlinking a page that has no predecessor. -/
theorem popHead_eq_unlinkNode (hhead : s.paHead = s.pageAddr i)
    (hprev : s.prevLink (s.pageAddr i) = 0) :
    s.popHead = s.unlinkNode (s.pageAddr i) := by
  unfold popHead unlinkNode
  rw [hprev, hhead]
  by_cases hnext : s.mem (s.pageAddr i) = 0
  · simp [nextLink, hnext]
  · simp [nextLink, hnext, Mm.store]

theorem ppageAlloc_ok (hinit : s.allocStaticBase ≠ 0) {rv : ℕ}
    (hok : s.ppageAlloc = .ok (rv, s')) :
    s.paHead ≠ 0 ∧ rv = s.paHead ∧
      physReference rv pageSize (s.popHead.bzero rv pageSize) = .ok s' := by
  simp only [Mm.ppageAlloc, if_neg hinit, Outcome.bind_eq_ok,
    Outcome.pure_eq_ok, exists_eq_left'] at hok
  by_cases hhead : s.paHead = 0
  · rw [if_neg (not_not_intro hhead)] at hok
    cases hok
  · rw [if_pos hhead] at hok
    simp only [Outcome.bind_eq_ok, Outcome.pure_eq_ok, Prod.mk.injEq] at hok
    obtain ⟨s₁, hreference, rfl, rfl⟩ := hok
    exact ⟨hhead, rfl, hreference⟩

/-- Clearing an unlinked page touches no link. -/
theorem bzero_unlinked {u : Mm} (hu : Unlinked s u i (i + 1))
    (hi : i < s.ppages) (hfree : s.count i = pageFree) :
    Unlinked s (u.bzero (s.pageAddr i) pageSize) i (i + 1) := by
  obtain ⟨l, hl⟩ := hu.list
  have hsame : ∀ j a, u.InPage j a → j ∉ Finset.Ico i (i + 1) →
      (u.bzero (s.pageAddr i) pageSize).mem a = u.mem a := by
    intro j a hja hjX
    refine bzero_mem_of_notMem u fun hmem => hjX ?_
    have hji : j = i := hja.unique (hu.layout.inPage.mpr hmem)
    rw [hji]
    exact Finset.left_mem_Ico.mpr (Nat.lt_succ_self i)
  refine ⟨⟨l, ?_⟩, ?_, ?_, ?_, hu.layout.trans (SameLayout.bzero u _ _)⟩
  · exact hl.congr_mem
      (fun j _ hjX _ => hsame j _ (u.inPage_pageAddr j) hjX)
      (fun j _ hjX _ => hsame j _ (u.inPage_pageAddr_add_eight j) hjX)
  · rw [bzero_ppageList, hu.counters]
  · intro a ha
    rw [bzero_mem_of_notMem u (ha i hi hfree), hu.kept a ha]
  · rw [bzero_wiredPages, hu.wired]

/-- `ppage_alloc` takes the page at the head and clears it. -/
theorem ppageAlloc (h : FreeListSans s l ∅) (hinit : s.allocStaticBase ≠ 0)
    {rv : ℕ} (hok : s.ppageAlloc = .ok (rv, s')) :
    ∃ i, rv = s.pageAddr i ∧ TakesPages s s' i 1 ∧
      (∀ a, s.InPage i a → s'.mem a = 0) ∧ ∃ l', FreeListSans s' l' ∅ := by
  obtain ⟨hhead, rfl, hreference⟩ := ppageAlloc_ok hinit hok
  obtain ⟨i, hi, hiX, hfree, haddr, hprev⟩ := h.head_page hhead
  rw [haddr, popHead_eq_unlinkNode haddr hprev] at hreference
  have hu := bzero_unlinked
    (unlinkNode_unlinked (h.unlinked_refl i) le_rfl hi hfree) hi hfree
  generalize hv : (s.unlinkNode (s.pageAddr i)).bzero (s.pageAddr i) pageSize
    = v at hu hreference
  have hloop := ((physReference_iff (s.pageAddr_ne_zero i)
    (by rw [hu.layout.boot]; exact Nat.le_add_right _ _)).mp hreference).2
  rw [hu.layout.boot, pageAddr_sub_physBase, mul_pageSize_div,
    Nat.div_self (by decide)] at hloop
  obtain ⟨htakes, hmem, hlist⟩ := takesPages hu hi hloop
  refine ⟨i, haddr, htakes, ?_, hlist⟩
  intro a ha
  rw [hmem, ← hv]
  exact bzero_mem_of_mem _ ha

/-! ## `alloc_phys` -/

end FreeListSans

/-- Where the run that contains free page `i` began. -/
theorem allocPhysScan_start {s : Mm} {i found rv : ℕ}
    (hi : s.ppageList i = pageFree)
    (hrv : 0 < found → rv = s.pageAddr (i - found)) :
    (if s.ppageList i = pageFree ∧ found = 0 then s.pageAddr i else rv) =
      s.pageAddr (i - found) := by
  by_cases hzero : found = 0
  · rw [if_pos ⟨hi, hzero⟩, hzero, Nat.sub_zero]
  · rw [if_neg fun hboth => hzero hboth.2]
    exact hrv (Nat.pos_of_ne_zero hzero)

/-- The scan settles on a run of free pages. -/
theorem allocPhysScan_some {s : Mm} {npages i n found rv r : ℕ}
    (hle : found ≤ i) (hlt : found < npages)
    (hrv : 0 < found → rv = s.pageAddr (i - found))
    (hfree : ∀ k, i - found ≤ k → k < i → s.ppageList k = pageFree)
    (hr : s.allocPhysScan npages i n found rv = some r) :
    ∃ j, r = s.pageAddr j ∧ j + npages ≤ i + n ∧
      ∀ k, j ≤ k → k < j + npages → s.ppageList k = pageFree := by
  induction n generalizing i found rv with
  | zero => cases hr
  | succ n ih =>
      rw [allocPhysScan] at hr
      by_cases hi : s.ppageList i = pageFree
      · -- the run grows by page `i`
        have hfree' : ∀ k, i - found ≤ k → k < i + 1 →
            s.ppageList k = pageFree := by
          intro k hk hki
          by_cases hkeq : k = i
          · rw [hkeq, hi]
          · exact hfree k hk (by omega)
        simp only [allocPhysScan_start hi hrv, if_pos hi] at hr
        by_cases hdone : found + 1 = npages
        · rw [if_pos hdone] at hr
          obtain rfl := Option.some.inj hr
          refine ⟨i - found, rfl, by omega, fun k hk hkn => ?_⟩
          exact hfree' k hk (by omega)
        · rw [if_neg hdone] at hr
          obtain ⟨j, hj, hjn, hjfree⟩ := ih (by omega) (by omega)
            (fun _ => by rw [show i + 1 - (found + 1) = i - found by omega])
            (fun k hk => hfree' k (by omega)) hr
          exact ⟨j, hj, by omega, hjfree⟩
      · -- the run starts over after page `i`
        simp only [if_neg hi, if_neg fun hboth : _ ∧ _ => hi hboth.1] at hr
        rw [if_neg (by omega)] at hr
        obtain ⟨j, hj, hjn, hjfree⟩ := ih (Nat.zero_le _) (by omega)
          (fun hpos => absurd hpos (by omega))
          (fun k hk hki => by omega) hr
        exact ⟨j, hj, by omega, hjfree⟩

theorem allocPhysPages_lt (size : ℕ) : allocPhysPages size < 2 ^ 18 := by
  have hlt : (size + 0x3fff) % 2 ^ 32 < 2 ^ 32 := Nat.mod_lt _ (by decide)
  exact Nat.div_lt_of_lt_mul hlt

/-- Rounding a whole number of pages up changes nothing. -/
theorem roundUp_pages {n : ℕ} (hn : n < 2 ^ 18) :
    (n * pageSize + 0x3fff) % 2 ^ 64 / pageSize = n := by
  unfold pageSize
  omega

theorem physReference_zero {s s' : Mm} {pa : ℕ}
    (hok : physReference pa 0 s = .ok s') : s' = s := by
  by_cases hignored : pa = 0 ∨ pa < s.boot.physBase
  · rw [physReference_ignored hignored] at hok
    exact (Except.ok.inj hok).symm
  · push Not at hignored
    obtain ⟨-, hloop⟩ :=
      (physReference_iff hignored.1 hignored.2).mp hok
    rw [Nat.zero_div] at hloop
    exact (Except.ok.inj hloop).symm

theorem physUnlinkContiguous_zero {s s' : Mm} {pa : ℕ}
    (hok : physUnlinkContiguous pa 0 s = .ok s') : s' = s := by
  unfold physUnlinkContiguous at hok
  split at hok
  · exact (Except.ok.inj hok).symm
  split at hok
  · exact (Except.ok.inj hok).symm
  · simp only [Outcome.bind_eq_ok] at hok
    obtain ⟨-, -, hloop⟩ := hok
    rw [show (0 + 0x3fff) % 2 ^ 64 / pageSize = 0 by decide] at hloop
    exact (Except.ok.inj hloop).symm

namespace FreeListSans

variable {s s' : Mm} {l : List ℕ} {X : Finset ℕ} {i : ℕ}

/-- Unlinking a run of free pages. -/
theorem physUnlinkContiguous (h : FreeListSans s l ∅) {n : ℕ}
    (hn : n < 2 ^ 18) (hram : i + n ≤ s.ppages)
    (hfree : ∀ j, i ≤ j → j < i + n → s.count j = pageFree)
    (hok : physUnlinkContiguous (s.pageAddr i) (n * pageSize) s = .ok s') :
    Unlinked s s' i (i + n) := by
  unfold Mm.physUnlinkContiguous at hok
  rw [if_neg (s.pageAddr_ne_zero i), if_neg (s.not_pageAddr_lt_physBase i),
    pageAddr_sub_physBase, roundUp_pages hn] at hok
  simp only [Outcome.bind_eq_ok, mul_pageSize_div] at hok
  obtain ⟨-, -, hloop⟩ := hok
  refine Outcome.forRange_invariant (P := fun j a => Unlinked s a i j)
    (fun j a b hij hjn ha hab => ?_) (h.unlinked_refl i) hloop
  rw [physUnlinkPage_ok hab]
  exact unlinkNode_unlinked ha hij (by omega) (hfree j hij hjn)

theorem allocPhys_slow_ok (hinit : s.allocStaticBase ≠ 0) {size rv : ℕ}
    (hslow : allocPhysPages size ≠ 1)
    (hok : allocPhys size s = .ok (rv, s')) :
    s.allocPhysScan (allocPhysPages size) 0 s.ppages 0 0 = some rv ∧
      ∃ s₁, Mm.physUnlinkContiguous rv (allocPhysPages size * pageSize) s
          = .ok s₁ ∧
        physReference rv (allocPhysPages size * pageSize) s₁ = .ok s' := by
  have hsize : allocPhysPages size * pageSize ≠ pageSize := by
    unfold pageSize
    omega
  simp only [Mm.allocPhys, if_neg hinit, Outcome.bind_eq_ok,
    Outcome.pure_eq_ok, exists_eq_left', if_neg hsize] at hok
  cases hscan : s.allocPhysScan (allocPhysPages size) 0 s.ppages 0 0 with
  | none =>
      rw [hscan] at hok
      cases hok
  | some r =>
      rw [hscan] at hok
      simp only [Outcome.bind_eq_ok, Outcome.pure_eq_ok, Prod.mk.injEq] at hok
      obtain ⟨-, -, s₁, hunlink, s₂, hreference, rfl, rfl⟩ := hok
      exact ⟨rfl, s₁, hunlink, hreference⟩

/-- `alloc_phys` takes a run of free pages. -/
theorem allocPhys (h : FreeListSans s l ∅) (hinit : s.allocStaticBase ≠ 0)
    {size rv : ℕ} (hok : allocPhys size s = .ok (rv, s')) :
    ∃ i, (0 < allocPhysPages size → rv = s.pageAddr i) ∧
      TakesPages s s' i (allocPhysPages size) ∧
      ∃ l', FreeListSans s' l' ∅ := by
  by_cases hone : allocPhysPages size = 1
  · have hfast : s.ppageAlloc = .ok (rv, s') := by
      simpa [Mm.allocPhys, if_neg hinit, hone, Outcome.bind_eq_ok] using hok
    obtain ⟨i, hrv, htakes, -, hlist⟩ := h.ppageAlloc hinit hfast
    exact ⟨i, fun _ => hrv, hone ▸ htakes, hlist⟩
  obtain ⟨hscan, s₁, hunlink, hreference⟩ :=
    allocPhys_slow_ok hinit hone hok
  have hn := allocPhysPages_lt size
  generalize allocPhysPages size = n at *
  by_cases hzero : n = 0
  · -- a request of no pages changes nothing
    subst hzero
    rw [Nat.zero_mul] at hunlink hreference
    obtain rfl := physUnlinkContiguous_zero hunlink
    obtain rfl := physReference_zero hreference
    exact ⟨0, fun hpos => absurd hpos (lt_irrefl 0), TakesPages.refl s', l, h⟩
  · obtain ⟨i, rfl, hram, hentry⟩ := allocPhysScan_some (Nat.le_refl 0)
      (Nat.pos_of_ne_zero hzero) (fun hpos => absurd hpos (by omega))
      (fun k _ hk => absurd hk (by omega)) hscan
    have hfree : ∀ j, i ≤ j → j < i + n → s.count j = pageFree := by
      intro j hij hjn
      rw [count, hentry j hij hjn, refBits_pageFree]
    have hu := h.physUnlinkContiguous hn (by omega) hfree hunlink
    have hloop := ((physReference_iff (s.pageAddr_ne_zero i)
      (by rw [hu.layout.boot]; exact Nat.le_add_right _ _)).mp hreference).2
    rw [hu.layout.boot, pageAddr_sub_physBase, mul_pageSize_div,
      mul_pageSize_div] at hloop
    obtain ⟨htakes, -, hlist⟩ := takesPages hu (by omega) hloop
    exact ⟨i, fun _ => rfl, htakes, hlist⟩

end FreeListSans

/-! ## Calls that return -/

section Returns

variable {s : Mm} {i n : ℕ}

theorem popHead_shape (s : Mm) :
    s.popHead.boot = s.boot ∧ s.popHead.ppages = s.ppages ∧
      s.popHead.ppageList = s.ppageList := by
  by_cases hnext : s.mem s.paHead = 0
  · simp [popHead, hnext]
  · simp [popHead, hnext]

theorem physReferencePage_returns (hi : i ≤ s.ppages) :
    ∃ s', physReferencePage i s = .ok s' := by
  unfold physReferencePage panicIf
  rw [if_neg (Nat.not_lt.mpr hi), Outcome.ok_bind]
  split
  · exact ⟨_, rfl⟩
  · exact ⟨_, rfl⟩

theorem physReference_returns (hram : i + n ≤ s.ppages) :
    ∃ s', physReference (s.pageAddr i) (n * pageSize) s = .ok s' := by
  obtain ⟨s', hloop, -⟩ := Outcome.forRange_returns
    (f := physReferencePage) (P := fun _ a => a.ppages = s.ppages) (n := n)
    (fun j a hij hjn ha => by
      obtain ⟨b, hb⟩ := physReferencePage_returns (s := a) (i := j)
        (by rw [ha]; omega)
      exact ⟨b, hb, (SameLayout.physReferencePage hb).ppages.trans ha⟩)
    (i := i) rfl
  refine ⟨s', (physReference_iff (s.pageAddr_ne_zero i)
    (Nat.le_add_right _ _)).mpr ?_⟩
  rw [pageAddr_sub_physBase, mul_pageSize_mod, mul_pageSize_div,
    mul_pageSize_div]
  exact ⟨rfl, hloop⟩

theorem ppageAlloc_returns {l : List ℕ} (h : FreeListSans s l ∅)
    (hinit : s.allocStaticBase ≠ 0) (hhead : s.paHead ≠ 0) :
    ∃ rv s', s.ppageAlloc = .ok (rv, s') := by
  obtain ⟨i, hi, -, -, haddr, -⟩ := h.head_page hhead
  obtain ⟨hboot, hppages, -⟩ := s.popHead_shape
  obtain ⟨s', hs'⟩ := physReference_returns
    (s := s.popHead.bzero s.paHead pageSize) (i := i) (n := 1)
    (by rw [bzero_ppages, hppages]; exact hi)
  rw [bzero_pageAddr, pageAddr, hboot, ← pageAddr, ← haddr, Nat.one_mul] at hs'
  refine ⟨s.paHead, s', ?_⟩
  unfold ppageAlloc
  rw [if_neg hinit]
  refine Outcome.bind_eq_ok.mpr ⟨s, rfl, ?_⟩
  rw [if_pos hhead]
  exact Outcome.bind_eq_ok.mpr ⟨s', hs', rfl⟩

theorem physDereferencePage_returns (hi : i ≤ s.ppages)
    (hbusy : s.count i ≠ pageFree) :
    ∃ s', physDereferencePage i s = .ok s' := by
  unfold physDereferencePage panicIf
  rw [if_neg (Nat.not_lt.mpr hi), Outcome.ok_bind, if_neg hbusy,
    Outcome.ok_bind]
  exact ⟨_, rfl⟩

end Returns

end Mm

end PongoOS
