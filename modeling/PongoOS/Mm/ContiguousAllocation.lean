import PongoOS.Mm.AllocatorRuns
import PongoOS.Mm.Wiring

/-!
# Runs of physical pages

`alloc_phys` takes the first run of free pages that is long enough.  The size is
rounded up in 32 bits: a request for more than `2 ^ 32 - 2 ^ 14` bytes is taken
for one of no bytes at all, which the scan meets behind the run that begins with
the first page.
-/

namespace PongoOS

open DoublyLinked

namespace Mm

/-- The pages `b, ..., b + n - 1` are free. -/
def PageRun (s : Mm) (n b : ℕ) : Prop :=
  b + n ≤ s.ppages ∧ ∀ j, b ≤ j → j < b + n → s.count j = pageFree

/-- The entries of the pages `b, ..., b + n - 1` are zero, above the reference
bits too. -/
def ZeroRun (s : Mm) (n b : ℕ) : Prop :=
  b + n ≤ s.ppages ∧ ∀ j, b ≤ j → j < b + n → s.ppageList j = pageFree

/-- Where there is a run of free pages there is one that the scan can see. -/
def ScanSees (s : Mm) (n : ℕ) : Prop :=
  (∃ b, s.PageRun n b) → ∃ b, s.ZeroRun n b

/-- Page `i` is on the list at `pa_head`. -/
def OnFreeList (s : Mm) (i : ℕ) : Prop :=
  ∃ l, Chain s.nextLink s.prevLink 0 0 l s.paHead ∧ s.pageAddr i ∈ l

/-! ## The scan -/

section Scan

variable {s : Mm} {npages i n found rv : ℕ}

/-- The scan gives up only if there is no run. -/
theorem allocPhysScan_none (hle : found ≤ i) (hlt : found < npages)
    (h : s.allocPhysScan npages i n found rv = none) :
    ∀ b, i - found ≤ b → b + npages ≤ i + n →
      ¬ ∀ j, b ≤ j → j < b + npages → s.ppageList j = pageFree := by
  induction n generalizing i found rv with
  | zero => exact fun b hb hbn => absurd hbn (by omega)
  | succ n ih =>
      rw [allocPhysScan] at h
      by_cases hi : s.ppageList i = pageFree
      · simp only [if_pos hi] at h
        by_cases hdone : found + 1 = npages
        · rw [if_pos hdone] at h
          cases h
        · rw [if_neg hdone] at h
          intro b hb hbn
          exact ih (by omega) (by omega) h b (by omega) (by omega)
      · simp only [if_neg hi] at h
        rw [if_neg (by omega)] at h
        intro b hb hbn hrun
        -- a run that begins before page `i` contains it
        by_cases hbi : b ≤ i
        · exact hi (hrun i hbi (by omega))
        · exact ih (Nat.zero_le _) (by omega) h b (by omega) (by omega) hrun

/-- A scan for no pages stops behind the first run, if there is more. -/
theorem allocPhysScan_zero_of_pos (hfound : 0 < found) :
    s.allocPhysScan 0 i n found rv =
      if ∀ j < n, s.ppageList (i + j) = pageFree then none else some rv := by
  induction n generalizing i found with
  | zero => rfl
  | succ n ih =>
      have hpeel : (∀ j < n + 1, s.ppageList (i + j) = pageFree) ↔
          s.ppageList i = pageFree ∧
            ∀ j < n, s.ppageList (i + 1 + j) = pageFree := by
        constructor
        · refine fun h => ⟨h 0 (Nat.succ_pos n), fun j hj => ?_⟩
          rw [Nat.add_assoc, Nat.add_comm 1]
          exact h (j + 1) (by omega)
        · rintro ⟨hi, h⟩ (_ | j) hj
          · exact hi
          · rw [← Nat.add_assoc, Nat.add_right_comm]
            exact h j (by omega)
      rw [allocPhysScan]
      by_cases hi : s.ppageList i = pageFree
      · have hrv : ¬ (s.ppageList i = pageFree ∧ found = 0) := by omega
        simp only [if_pos hi, if_neg hrv, if_neg (Nat.succ_ne_zero found)]
        rw [ih (Nat.succ_pos found)]
        simp only [hpeel, hi, true_and]
      · have hrv : ¬ (s.ppageList i = pageFree ∧ found = 0) := fun h => hi h.1
        simp only [if_neg hi, if_neg hrv, if_true]
        rw [if_neg fun h => hi (hpeel.mp h).1]

theorem allocPhysScan_zero (hram : 0 < s.ppages) :
    s.allocPhysScan 0 0 s.ppages 0 0 =
      if s.ppageList 0 ≠ pageFree then some 0
      else if ∀ j < s.ppages, s.ppageList j = pageFree then none
      else some (s.pageAddr 0) := by
  obtain ⟨n, hn⟩ := Nat.exists_eq_add_of_lt hram
  rw [Nat.zero_add] at hn
  rw [hn, allocPhysScan]
  by_cases hzero : s.ppageList 0 = pageFree
  · have hall : (∀ j < n + 1, s.ppageList j = pageFree) ↔
        ∀ j < n, s.ppageList (0 + 1 + j) = pageFree := by
      constructor
      · exact fun h j hj => h (0 + 1 + j) (by omega)
      · rintro h (_ | j) hj
        · exact hzero
        · rw [Nat.add_comm j, ← Nat.zero_add 1]
          exact h j (by omega)
    simp only [if_pos hzero, if_neg (Nat.succ_ne_zero 0)]
    have hrv : s.ppageList 0 = pageFree ∧ True := ⟨hzero, trivial⟩
    rw [if_pos hrv, allocPhysScan_zero_of_pos (Nat.succ_pos 0),
      if_neg (not_not.mpr hzero)]
    simp only [hall]
  · simp only [hzero, false_and, if_false, if_true, ne_eq, not_false_eq_true]

end Scan

/-! ## Calls that return -/

namespace FreeListSans

variable {s : Mm} {l : List ℕ} {X : Finset ℕ} {i n : ℕ}

/-- A free page on the list can be unlinked. -/
theorem physUnlinkPage_returns (h : FreeListSans s l X) (hi : i < s.ppages)
    (hiX : i ∉ X) (hfree : s.count i = pageFree) :
    ∃ s', physUnlinkPage i s = .ok s' := by
  have hentry : ∀ (t : Mm) {j : ℕ}, t.ppageList = s.ppageList →
      t.boot = s.boot → t.ppages = s.ppages → j < s.ppages →
      s.count j = pageFree → ∃ e, t.physGetEntry (s.pageAddr j) = .ok e ∧
        refBits e = pageFree := by
    intro t j hlist hboot hppages hj hjfree
    refine ⟨t.ppageList j, ?_, by rw [hlist]; exact hjfree⟩
    rw [← physGetEntry_pageAddr (hppages ▸ hj)
      (by rw [hppages, hboot]; exact h.sized), pageAddr, pageAddr, hboot]
  obtain ⟨e, he, hebits⟩ := hentry s rfl rfl rfl hi hfree
  obtain ⟨hnext, hprev⟩ := h.links_free hi hiX hfree
  have hfirst : ∃ s₁ : Mm, (if s.mem (s.pageAddr i) ≠ 0 then do
      let entry ← s.physGetEntry (s.mem (s.pageAddr i))
      panicIf (refBits entry ≠ pageFree)
        "phys_unlink_contiguous: ppage (next: %llx) is not free!"
      pure (s.store (s.mem (s.pageAddr i) + 8) (s.mem (s.pageAddr i + 8)))
      else pure s : Outcome Mm) = .ok s₁ ∧ s₁.ppageList = s.ppageList ∧
        s₁.boot = s.boot ∧ s₁.ppages = s.ppages := by
    by_cases hzero : s.mem (s.pageAddr i) = 0
    · rw [if_neg (not_not.mpr hzero)]
      exact ⟨s, rfl, rfl, rfl, rfl⟩
    · rw [if_pos hzero]
      obtain ⟨j, hj, hjfree, hjaddr⟩ := hnext.resolve_left hzero
      obtain ⟨e', he', hbits'⟩ := hentry s rfl rfl rfl hj hjfree
      have hjaddr : s.mem (s.pageAddr i) = s.pageAddr j := hjaddr
      rw [hjaddr, he', Outcome.ok_bind, panicIf, if_neg (not_not.mpr hbits')]
      exact ⟨_, rfl, rfl, rfl, rfl⟩
  obtain ⟨s₁, hs₁, hlist₁, hboot₁, hppages₁⟩ := hfirst
  simp only [physUnlinkPage]
  rw [panicIf, if_neg (Nat.not_lt.mpr hi.le), Outcome.ok_bind, he,
    Outcome.ok_bind, panicIf, if_neg (not_not.mpr hebits), Outcome.ok_bind, hs₁,
    Outcome.ok_bind]
  by_cases hzero : s.mem (s.pageAddr i + 8) = 0
  · rw [if_neg (not_not.mpr hzero)]
    exact ⟨_, rfl⟩
  · rw [if_pos hzero]
    obtain ⟨j, hj, hjfree, hjaddr⟩ := hprev.resolve_left hzero
    obtain ⟨e', he', hbits'⟩ := hentry s₁ hlist₁ hboot₁ hppages₁ hj hjfree
    have hjaddr : s.mem (s.pageAddr i + 8) = s.pageAddr j := hjaddr
    rw [hjaddr, he', Outcome.ok_bind, panicIf, if_neg (not_not.mpr hbits')]
    exact ⟨_, rfl⟩

theorem physUnlinkContiguous_returns (h : FreeListSans s l ∅)
    (hn : n < 2 ^ 18) (hram : i + n ≤ s.ppages)
    (hfree : ∀ j, i ≤ j → j < i + n → s.count j = pageFree) :
    ∃ s', Mm.physUnlinkContiguous (s.pageAddr i) (n * pageSize) s =
      .ok s' := by
  obtain ⟨s', hloop, -⟩ := Outcome.forRange_returns
    (f := physUnlinkPage) (P := fun j a => Unlinked s a i j) (n := n)
    (fun j a hij hjn ha => by
      obtain ⟨l', hl'⟩ := ha.list
      have hj := hfree j hij hjn
      obtain ⟨b, hb⟩ := hl'.physUnlinkPage_returns (i := j)
        (by rw [ha.layout.ppages]; omega) (by simp) ((ha.count j).trans hj)
      refine ⟨b, hb, ?_⟩
      rw [physUnlinkPage_ok hb]
      exact unlinkNode_unlinked ha hij (by omega) hj)
    (h.unlinked_refl i)
  refine ⟨s', ?_⟩
  unfold Mm.physUnlinkContiguous
  rw [if_neg (s.pageAddr_ne_zero i), if_neg (s.not_pageAddr_lt_physBase i)]
  simp only [pageAddr_sub_physBase, roundUp_pages hn, mul_pageSize_div,
    mul_pageSize_mod]
  exact hloop

end FreeListSans

section Returns

variable {s : Mm} {i n : ℕ}

theorem ppageAlloc_panics (hinit : s.allocStaticBase ≠ 0)
    (hhead : s.paHead = 0) :
    s.ppageAlloc = .error (.panic "ppage_alloc: OOM") := by
  unfold ppageAlloc
  rw [if_neg hinit]
  refine Outcome.bind_eq_error.mpr (.inr ⟨s, rfl, ?_⟩)
  rw [if_neg (not_not.mpr hhead)]

end Returns

/-! ## `alloc_phys` -/

/-- The pages that `size` bytes need. -/
def pagesOf (size : ℕ) : ℕ := (size + 0x3fff) / pageSize

/-- There is no run of `n` free pages, or, for one page, no free page on the
list. -/
def OutOfPages (s : Mm) (n : ℕ) : Prop :=
  if n = 1 then s.paHead = 0 else ∀ b, ¬ s.PageRun n b

/-- `alloc_phys` does not see `n` free pages in a row. -/
def Exhausted (s : Mm) (n : ℕ) : Prop :=
  if n = 1 then s.paHead = 0 else ∀ b, ¬ s.ZeroRun n b

/-- The call stops because there is no memory left. -/
def OomPanic (e : Stop) : Prop :=
  e = .panic "ppage_alloc: OOM" ∨ e = .panic "alloc_phys: OOM"

/-- The `n` pages from page `i` on were free, and have one reference now. -/
structure TakesRun (s s' : Mm) (i n : ℕ) : Prop where
  ram : i + n ≤ s.ppages
  wasFree : ∀ j, i ≤ j → j < i + n → s.count j = pageFree
  referenced : ∀ j, i ≤ j → j < i + n → s'.count j = 1
  offList : ∀ j, i ≤ j → j < i + n → ¬ s'.OnFreeList j
  entries : ∀ j, j < i ∨ i + n ≤ j → s'.ppageList j = s.ppageList j
  members : ∀ j, j < i ∨ i + n ≤ j → (s'.OnFreeList j ↔ s.OnFreeList j)

/-- `alloc_phys` panics for want of pages, or it takes a run of them. -/
def AllocPhysSpec (s : Mm) (size : ℕ) : Prop :=
  (∃ msg, allocPhys size s = .error (.panic msg) ∧
    s.OutOfPages (pagesOf size)) ∨
  ∃ i s', allocPhys size s = .ok (s.pageAddr i, s') ∧
    TakesRun s s' i (pagesOf size)

section Alloc

variable {s s' : Mm} {l : List ℕ} {i n size : ℕ}

theorem FreeListSans.onFreeList_iff (h : FreeListSans s l ∅) :
    s.OnFreeList i ↔ i < s.ppages ∧ s.count i = pageFree := by
  have hmem := h.pageAddr_mem (i := i)
  simp only [Finset.notMem_empty, not_false_eq_true, true_and] at hmem
  rw [← hmem]
  constructor
  · rintro ⟨l', hl', hi⟩
    rwa [h.chain.unique hl']
  · exact fun hi => ⟨l, h.chain, hi⟩

theorem TakesPages.takesRun (h : TakesPages s s' i n)
    (hs : s.FreeListWf) (hs' : s'.FreeListWf) : TakesRun s s' i n := by
  obtain ⟨l, hl⟩ := hs
  obtain ⟨l', hl'⟩ := hs'
  refine ⟨h.ram, h.wasFree, h.taken, fun j hij hjn hj => ?_, h.others,
    fun j hj => ?_⟩
  · have hfree := (hl'.onFreeList_iff.mp hj).2
    rw [h.taken j hij hjn] at hfree
    exact absurd hfree (by decide)
  · rw [hl.onFreeList_iff, hl'.onFreeList_iff, h.layout.ppages, count, count,
      h.others j hj]

theorem allocPhysPages_of_lt (hlt : size + 0x3fff < 2 ^ 32) :
    allocPhysPages size = pagesOf size := by
  rw [allocPhysPages, pagesOf, Nat.mod_eq_of_lt hlt]

/-- What is left of a request that is rounded up past the end. -/
theorem allocPhysPages_of_ge (hsize : size < 2 ^ 32)
    (hge : 2 ^ 32 ≤ size + 0x3fff) :
    allocPhysPages size = 0 ∧ pagesOf size = 2 ^ 18 := by
  unfold allocPhysPages pagesOf pageSize
  omega

theorem pagesOf_pos (hpos : 1 ≤ size) : 1 ≤ pagesOf size := by
  unfold pagesOf pageSize
  omega

theorem allocPhys_one (hinit : s.allocStaticBase ≠ 0)
    (hone : allocPhysPages size = 1) : allocPhys size s = s.ppageAlloc := by
  unfold allocPhys
  simp only [if_neg hinit, hone, Nat.one_mul, if_true]
  rfl

theorem not_fast (hone : allocPhysPages size ≠ 1) :
    allocPhysPages size * pageSize ≠ pageSize := by
  unfold pageSize
  omega

theorem allocPhys_of_none (hinit : s.allocStaticBase ≠ 0)
    (hone : allocPhysPages size ≠ 1)
    (hscan : s.allocPhysScan (allocPhysPages size) 0 s.ppages 0 0 = none) :
    allocPhys size s = .error (.panic "alloc_phys: OOM") := by
  unfold allocPhys
  simp only [if_neg hinit, if_neg (not_fast hone), pure_bind, hscan]

theorem allocPhys_of_some {rv : ℕ} (hinit : s.allocStaticBase ≠ 0)
    (hone : allocPhysPages size ≠ 1)
    (hscan : s.allocPhysScan (allocPhysPages size) 0 s.ppages 0 0 = some rv) :
    allocPhys size s =
      (panicIf (rv = 0) "alloc_phys: returning NULL?? (size %llx, npages %llx, found_pages %llx)"
        >>= fun _ => physUnlinkContiguous rv (allocPhysPages size * pageSize) s
        >>= fun s₁ => physReference rv (allocPhysPages size * pageSize) s₁
        >>= fun s₂ => pure (rv, s₂)) := by
  unfold allocPhys
  simp only [if_neg hinit, if_neg (not_fast hone), pure_bind, hscan]

/-- A run that the scan settles on is taken. -/
theorem allocPhys_some (hinit : s.allocStaticBase ≠ 0)
    (hone : allocPhysPages size ≠ 1)
    (hscan : s.allocPhysScan (allocPhysPages size) 0 s.ppages 0 0 =
      some (s.pageAddr i)) (h : FreeListSans s l ∅)
    (hram : i + allocPhysPages size ≤ s.ppages)
    (hfree : ∀ j, i ≤ j → j < i + allocPhysPages size →
      s.count j = pageFree) :
    ∃ s', allocPhys size s = .ok (s.pageAddr i, s') := by
  have hn := allocPhysPages_lt size
  rw [allocPhys_of_some hinit hone hscan]
  obtain ⟨s₁, hunlink⟩ := h.physUnlinkContiguous_returns hn hram hfree
  have hlayout := SameLayout.physUnlinkContiguous hunlink
  obtain ⟨s₂, hreference⟩ := physReference_returns (s := s₁) (i := i)
    (n := allocPhysPages size) (by rw [hlayout.ppages]; exact hram)
  rw [hlayout.pageAddr] at hreference
  refine ⟨s₂, ?_⟩
  simp only [panicIf, if_neg (s.pageAddr_ne_zero i), Outcome.ok_bind, hunlink,
    hreference]
  rfl

theorem scanSees_of_lt
    (hentry : ∀ i < s.ppages, s.ppageList i < 0x1000000) :
    s.ScanSees n := by
  rintro ⟨b, hb, hfree⟩
  refine ⟨b, hb, fun j hbj hjn => ?_⟩
  have hlt := hentry j (by omega)
  have hcount := hfree j hbj hjn
  unfold count refBits at hcount
  rwa [Nat.mod_eq_of_lt hlt] at hcount

/-- Where the size is not rounded up past the end, the call takes a run of pages
or does not see one. -/
theorem allocPhys_exhausted_or_takes (h : s.AllocatorInv) (hpos : 1 ≤ size)
    (hlt : size + 0x3fff < 2 ^ 32) :
    (∃ e, allocPhys size s = .error e ∧ OomPanic e ∧
      s.Exhausted (pagesOf size)) ∨
    ∃ i s', allocPhys size s = .ok (s.pageAddr i, s') ∧
      TakesPages s s' i (pagesOf size) ∧ s'.FreeListWf ∧
      ¬ s.Exhausted (pagesOf size) := by
  obtain ⟨hinit, l, hl⟩ := h
  have hpages := allocPhysPages_of_lt hlt
  have hn := pagesOf_pos hpos
  have htakes : ∀ rv s', allocPhys size s = .ok (rv, s') → ∃ i,
      allocPhys size s = .ok (s.pageAddr i, s') ∧
        TakesPages s s' i (pagesOf size) ∧ s'.FreeListWf := by
    intro rv s' hok
    obtain ⟨i, hrv, htakes, hlist⟩ := hl.allocPhys hinit hok
    rw [hpages] at hrv htakes
    exact ⟨i, hrv hn ▸ hok, htakes, hlist⟩
  unfold Exhausted
  by_cases hone : allocPhysPages size = 1
  · rw [if_pos (hpages ▸ hone)]
    rw [allocPhys_one hinit hone] at htakes ⊢
    by_cases hhead : s.paHead = 0
    · exact .inl ⟨_, ppageAlloc_panics hinit hhead, .inl rfl, hhead⟩
    · obtain ⟨rv, s', hok⟩ := ppageAlloc_returns hl hinit hhead
      obtain ⟨i, hok, hpages, hlist⟩ := htakes rv s' hok
      exact .inr ⟨i, s', hok, hpages, hlist, hhead⟩
  rw [if_neg (hpages ▸ hone)]
  cases hscan : s.allocPhysScan (allocPhysPages size) 0 s.ppages 0 0 with
  | none =>
      refine .inl ⟨_, allocPhys_of_none hinit hone hscan, .inr rfl, ?_⟩
      rintro b ⟨hb, hrun⟩
      rw [hpages] at hscan
      exact allocPhysScan_none (Nat.le_refl 0) hn hscan b (Nat.zero_le b)
        (by omega) hrun
  | some rv =>
      obtain ⟨i, rfl, hram, hentry⟩ := allocPhysScan_some (Nat.le_refl 0)
        (hpages ▸ hn) (fun hpos => absurd hpos (lt_irrefl 0))
        (fun k _ hk => absurd hk (Nat.not_lt_zero k)) hscan
      obtain ⟨s', hok⟩ := allocPhys_some hinit hone hscan hl (by omega)
        fun j hij hjn => by rw [count, hentry j hij hjn, refBits_pageFree]
      obtain ⟨j, hok, htaken, hlist⟩ := htakes _ s' hok
      rw [hpages] at hram hentry
      exact .inr ⟨j, s', hok, htaken, hlist,
        fun hnone => hnone i ⟨by omega, hentry⟩⟩

/-- Where the size is not rounded up past the end, the call does what it is to
do, unless there are runs and the scan does not see them. -/
theorem allocPhysSpec_of_lt (h : s.AllocatorInv) (hpos : 1 ≤ size)
    (hlt : size + 0x3fff < 2 ^ 32) :
    s.AllocPhysSpec size ↔
      pagesOf size = 1 ∨ s.ScanSees (pagesOf size) := by
  rcases allocPhys_exhausted_or_takes h hpos hlt with
    ⟨e, herror, hoom, hnone⟩ | ⟨i, s', hok, htakes, hlist, hseen⟩
  · have hmsg : ∃ msg, allocPhys size s = .error (.panic msg) := by
      rcases hoom with rfl | rfl
      · exact ⟨_, herror⟩
      · exact ⟨_, herror⟩
    obtain ⟨msg, hmsg⟩ := hmsg
    have hspec : s.AllocPhysSpec size ↔ s.OutOfPages (pagesOf size) := by
      constructor
      · rintro (⟨-, -, hout⟩ | ⟨i, s', hok, -⟩)
        · exact hout
        · rw [herror] at hok
          cases hok
      · exact fun hout => .inl ⟨msg, hmsg, hout⟩
    rw [hspec]
    unfold OutOfPages Exhausted at *
    by_cases hone : pagesOf size = 1
    · rw [if_pos hone] at hnone ⊢
      exact iff_of_true hnone (.inl hone)
    · rw [if_neg hone] at hnone ⊢
      rw [or_iff_right hone]
      constructor
      · rintro hout ⟨b, hb⟩
        exact absurd hb (hout b)
      · intro hsees b hb
        obtain ⟨c, hc⟩ := hsees ⟨b, hb⟩
        exact hnone c hc
  · refine iff_of_true (.inr ⟨i, s', hok, htakes.takesRun h.freeList hlist⟩) ?_
    unfold Exhausted at hseen
    by_cases hone : pagesOf size = 1
    · exact .inl hone
    · rw [if_neg hone] at hseen
      push Not at hseen
      exact .inr fun _ => hseen

/-! ### Requests past the end -/

/-- The first page is in use, or all are free. -/
def FirstUsedOrAllFree (s : Mm) : Prop :=
  s.ppageList 0 ≠ pageFree ∨ ∀ i < s.ppages, s.ppageList i = pageFree

theorem allocPhys_wrapped_panics (hinit : s.allocStaticBase ≠ 0)
    (hzero : allocPhysPages size = 0) (h : s.FirstUsedOrAllFree) :
    ∃ msg, allocPhys size s = .error (.panic msg) := by
  have hone : allocPhysPages size ≠ 1 := by omega
  rcases Nat.eq_zero_or_pos s.ppages with hnone | hram
  · exact ⟨_, allocPhys_of_none hinit hone (by rw [hnone]; rfl)⟩
  by_cases hfirst : s.ppageList 0 = pageFree
  · have hall := h.resolve_left (not_not.mpr hfirst)
    refine ⟨_, allocPhys_of_none hinit hone ?_⟩
    rw [hzero, allocPhysScan_zero hram, if_neg (not_not.mpr hfirst),
      if_pos hall]
  · have hscan : s.allocPhysScan (allocPhysPages size) 0 s.ppages 0 0 =
        some 0 := by
      rw [hzero, allocPhysScan_zero hram, if_pos hfirst]
    refine ⟨"alloc_phys: returning NULL?? (size %llx, npages %llx, found_pages %llx)", ?_⟩
    rw [allocPhys_of_some hinit hone hscan]
    rfl

/-- The first page is handed out, and nothing happens to it. -/
theorem allocPhys_wrapped_ok (hl : FreeListSans s l ∅)
    (hinit : s.allocStaticBase ≠ 0) (hzero : allocPhysPages size = 0)
    (h : ¬ s.FirstUsedOrAllFree) :
    allocPhys size s = .ok (s.pageAddr 0, s) := by
  have hone : allocPhysPages size ≠ 1 := by omega
  obtain ⟨hfirst, hall⟩ := not_or.mp h
  have hram : 0 < s.ppages := by
    by_contra hnone
    exact hall fun i hi => absurd hi (by omega)
  have hscan : s.allocPhysScan (allocPhysPages size) 0 s.ppages 0 0 =
      some (s.pageAddr 0) := by
    rw [hzero, allocPhysScan_zero hram, if_neg hfirst, if_neg hall]
  obtain ⟨s', hok⟩ := allocPhys_some hinit hone hscan hl (by omega)
    fun j _ hj => absurd hj (by omega)
  obtain ⟨-, s₁, hunlink, hreference⟩ :=
    FreeListSans.allocPhys_slow_ok hinit hone hok
  rw [hzero, Nat.zero_mul] at hunlink hreference
  obtain rfl := physUnlinkContiguous_zero hunlink
  obtain rfl := physReference_zero hreference
  exact hok

theorem allocPhysSpec_of_wrapped (h : s.AllocatorInv) (hsize : size < 2 ^ 32)
    (hge : 2 ^ 32 ≤ size + 0x3fff) :
    s.AllocPhysSpec size ↔
      (∀ b, ¬ s.PageRun (pagesOf size) b) ∧ s.FirstUsedOrAllFree := by
  obtain ⟨hinit, l, hl⟩ := h
  obtain ⟨hzero, hpages⟩ := allocPhysPages_of_ge hsize hge
  have hout : s.OutOfPages (pagesOf size) ↔
      ∀ b, ¬ s.PageRun (pagesOf size) b := by
    rw [OutOfPages, if_neg (by omega)]
  constructor
  · intro hspec
    by_cases hfirst : s.FirstUsedOrAllFree
    · refine ⟨?_, hfirst⟩
      obtain ⟨msg, hpanic⟩ := allocPhys_wrapped_panics hinit hzero hfirst
      rcases hspec with ⟨-, -, hnone⟩ | ⟨i, s', hok, -⟩
      · exact hout.mp hnone
      · rw [hpanic] at hok
        cases hok
    · exfalso
      have hrun := allocPhys_wrapped_ok hl hinit hzero hfirst
      rcases hspec with ⟨msg, hpanic, -⟩ | ⟨i, s', hok, htakes⟩
      · rw [hrun] at hpanic
        cases hpanic
      · rw [hrun] at hok
        obtain ⟨-, rfl⟩ := Prod.mk.inj (Except.ok.inj hok)
        -- the pages are as they were
        have hfree := htakes.wasFree i le_rfl (by omega)
        rw [htakes.referenced i le_rfl (by omega)] at hfree
        exact absurd hfree (by decide)
  · rintro ⟨hnone, hfirst⟩
    obtain ⟨msg, hpanic⟩ := allocPhys_wrapped_panics hinit hzero hfirst
    exact .inl ⟨msg, hpanic, hout.mpr hnone⟩

/-- `alloc_phys` does what it is to do exactly if the size can be rounded up and
the scan sees the runs, or if there is no run and the first page keeps the call
from handing out pages that it does not take. -/
theorem allocPhysSpec_iff (h : s.AllocatorInv) (hpos : 1 ≤ size)
    (hsize : size < 2 ^ 32) :
    s.AllocPhysSpec size ↔
      if size + 0x3fff < 2 ^ 32 then
        pagesOf size = 1 ∨ s.ScanSees (pagesOf size)
      else (∀ b, ¬ s.PageRun (pagesOf size) b) ∧ s.FirstUsedOrAllFree := by
  by_cases hlt : size + 0x3fff < 2 ^ 32
  · rw [if_pos hlt]
    exact allocPhysSpec_of_lt h hpos hlt
  · rw [if_neg hlt]
    exact allocPhysSpec_of_wrapped h hsize (Nat.not_lt.mp hlt)

end Alloc

/-! ### Two pages -/

/-- A machine with two pages, of which the first is free. -/
def twoPages : Mm where
  boot :=
    { physBase := 0x800000000
      memSize := 0x8000
      topOfKernelData := 0x800004000
      physBase_pos := Mm.dramBase_pos
      ram_fits := by decide }
  earlyHeapBase := 0x400004000
  is16k := true
  mem := fun _ => 0
  ppageList := fun i => if i = 0 then pageFree else pageWired
  ppages := 2
  paHead := 0x800000000
  freePages := 1
  wiredPages := 1
  allocStaticBase := 0x400004000
  allocStaticCurrent := 0x400004000
  allocStaticEnd := 0x400004000
  ttbFreelist := 0
  ttbAllocBase := 0

theorem twoPages_freeList : FreeListSans twoPages [0x800000000] ∅ := by
  refine ⟨⟨rfl, by decide, rfl, rfl⟩, List.nodup_singleton _, fun pa => ?_,
    fun i hi => absurd hi (Finset.notMem_empty i), rfl, le_rfl⟩
  rw [List.mem_singleton]
  constructor
  · rintro rfl
    exact ⟨0, by decide, Finset.notMem_empty 0, rfl, rfl⟩
  · rintro ⟨i, hi, -, hfree, rfl⟩
    have hi : i < 2 := hi
    obtain rfl | rfl : i = 0 ∨ i = 1 := by omega
    · rfl
    · exact absurd hfree (by decide)

theorem twoPages_inv : twoPages.AllocatorInv :=
  ⟨by decide, _, twoPages_freeList⟩

theorem allocPhysSpec_twoPages :
    twoPages.AllocPhysSpec 0x5000 :=
  (allocPhysSpec_iff twoPages_inv (by decide) (by decide)).mpr <| by
    rw [if_pos (by decide)]
    exact .inr (scanSees_of_lt (by decide))

/-- Of two pages, almost 4 GiB are handed out. -/
theorem allocPhys_hands_out_too_much :
    twoPages.AllocatorInv ∧
      allocPhys 0xffffc001 twoPages = .ok (0x800000000, twoPages) ∧
      ¬ twoPages.AllocPhysSpec 0xffffc001 := by
  have hfirst : ¬ twoPages.FirstUsedOrAllFree := by
    rintro (h | h)
    · exact h rfl
    · exact absurd (h 1 (by decide)) (by decide)
  refine ⟨twoPages_inv, allocPhys_wrapped_ok twoPages_freeList (by decide)
    (by decide) hfirst, fun hspec => hfirst ?_⟩
  exact ((allocPhysSpec_of_wrapped twoPages_inv (by decide)
    (by decide)).mp hspec).2

end Mm

end PongoOS
