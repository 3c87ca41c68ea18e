import PongoOS.Mm.ContiguousAllocation

/-!
# Giving a run of pages back

`alloc_phys` rounds the size up to pages and `free_phys` rounds it down, so a
caller that passes one size to both keeps the last page of the run, unless the
size is a multiple of the page size.  `free_contig` also has to find its address
in the static view of RAM.
-/

namespace PongoOS

open DoublyLinked

/-- The physical addresses behind the static view of RAM. -/
def InStaticView (pa : ℕ) : Prop := 0x800000000 ≤ pa ∧ pa < 0x900000000

theorem vatophysStatic_phystokv {pa q : ℕ} (hpa : pa < 2 ^ 64) :
    vatophysStatic (phystokv pa) = .ok q ↔ InStaticView pa ∧ q = pa := by
  rw [vatophysStatic_ok]
  unfold phystokv sub64 staticToPhys kCacheableView InStaticView
  omega

namespace Mm

/-- `alloc_contig`, with the address it returns. -/
def allocContig (size : ℕ) (s : Mm) : Outcome (ℕ × Mm) := do
  let r ← allocPhys size s
  pure (phystokv r.1, r.2)

def freeContig (base size : ℕ) (s : Mm) : Outcome Mm := do
  let pa ← vatophysStatic base
  freePhys pa size s

/-! ## The same free pages -/

/-- The same pages are free, and `free_pages` says as many. -/
structure SameFree (s s' : Mm) : Prop where
  members : ∀ i, s'.OnFreeList i ↔ s.OnFreeList i
  freePages : s'.freePages = s.freePages

theorem FreeListSans.sameFree {s s' : Mm} {l l' : List ℕ}
    (h : FreeListSans s l ∅) (h' : FreeListSans s' l' ∅)
    (hlayout : SameLayout s s') (hcount : ∀ i, s'.count i = pageFree ↔
      s.count i = pageFree) : SameFree s s' := by
  have hperm : l'.Perm l := by
    rw [List.perm_ext_iff_of_nodup h'.nodup h.nodup]
    intro pa
    rw [h'.mem_iff, h.mem_iff]
    simp only [hlayout.ppages, hlayout.pageAddr, hcount]
  refine ⟨fun i => ?_, ?_⟩
  · rw [h.onFreeList_iff, h'.onFreeList_iff, hlayout.ppages, hcount]
  · rw [h'.total, h.total, hperm.length_eq]

/-! ## Giving back pages -/

/-- A reference to each of the pages `i, ..., j - 1` was given back, and nothing
else happened. -/
structure GivenBack (s s' : Mm) (i j : ℕ) : Prop where
  list : s'.FreeListWf
  freed : ∀ k, i ≤ k → k < j → s.count k = 1 → s'.count k = pageFree
  others : ∀ k, k < i ∨ j ≤ k → s'.ppageList k = s.ppageList k
  layout : SameLayout s s'

section Dereference

variable {s s' : Mm} {i j n size : ℕ}

theorem physDereferencePage_ppageList
    (hok : physDereferencePage i s = .ok s') (hji : j ≠ i) :
    s'.ppageList j = s.ppageList j := by
  obtain ⟨-, -, entry, -, rfl⟩ := physDereferencePage_ok hok
  split
  · rw [setEntry_ppageList_of_ne _ _ _ hji, physPageWasFreed_ppageList]
  · exact setEntry_ppageList_of_ne _ _ _ hji

theorem physDereferencePage_last (hone : s.count i = 1)
    (hok : physDereferencePage i s = .ok s') : s'.count i = pageFree := by
  obtain ⟨-, -, entry, hentry, rfl⟩ := physDereferencePage_ok hok
  rw [if_pos hone, setEntry_count_self, hentry, hone]
  rfl

theorem GivenBack.step (h : GivenBack s s' i j) (hij : i ≤ j)
    (hj : j < s.ppages) (hbusy : s.count j ≠ pageFree) :
    ∃ s'', physDereferencePage j s' = .ok s'' ∧
      GivenBack s s'' i (j + 1) := by
  have hj' : j < s'.ppages := by rwa [h.layout.ppages]
  have hcount : s'.count j = s.count j := by
    rw [count, h.others j (.inr le_rfl), count]
  obtain ⟨s'', hok⟩ := physDereferencePage_returns hj'.le (hcount ▸ hbusy)
  obtain ⟨l, hl⟩ := h.list
  refine ⟨s'', hok, hl.physDereferencePage hj' hok, fun k hik hkj hone => ?_,
    fun k hk => ?_, h.layout.trans (SameLayout.physDereferencePage hok)⟩
  · rcases Nat.lt_succ_iff_lt_or_eq.mp hkj with hlt | rfl
    · rw [count, physDereferencePage_ppageList hok hlt.ne]
      exact h.freed k hik hlt hone
    · exact physDereferencePage_last (hcount.trans hone) hok
  · rw [physDereferencePage_ppageList hok (by omega)]
    exact h.others k (by omega)

/-- `phys_dereference` gives back the whole pages of the size. -/
theorem physDereference_givenBack (h : s.FreeListWf)
    (hram : i + size / pageSize ≤ s.ppages)
    (hbusy : ∀ j, i ≤ j → j < i + size / pageSize → s.count j ≠ pageFree) :
    ∃ s', physDereference (s.pageAddr i) size s = .ok s' ∧
      GivenBack s s' i (i + size / pageSize) := by
  have hstart : GivenBack s s i i :=
    ⟨h, fun k hik hki => absurd hki (Nat.not_lt.mpr hik), fun _ _ => rfl,
      SameLayout.refl s⟩
  obtain ⟨s', hloop, hlast⟩ := Outcome.forRange_returns
    (f := physDereferencePage) (P := fun j a => GivenBack s a i j)
    (fun j a hij hj ha => ha.step hij (by omega) (hbusy j hij hj)) hstart
  refine ⟨s', (physDereference_iff (s.pageAddr_ne_zero i)
    (Nat.le_add_right _ _)).mpr ?_, hlast⟩
  rw [pageAddr_sub_physBase, mul_pageSize_mod, mul_pageSize_div]
  exact ⟨rfl, hloop⟩

end Dereference

/-! ## The round trip -/

/-- A call gives back what the allocation took. -/
def GivesBack (s s₁ : Mm) (free : Mm → Outcome Mm) : Prop :=
  ∃ s₂, free s₁ = .ok s₂ ∧ SameFree s s₂

def PhysRoundTrip (s : Mm) (size : ℕ) : Prop :=
  ∀ rv s₁, allocPhys size s = .ok (rv, s₁) →
    GivesBack s s₁ (freePhys rv size)

def ContigRoundTrip (s : Mm) (size : ℕ) : Prop :=
  ∀ base s₁, allocContig size s = .ok (base, s₁) →
    GivesBack s s₁ (freeContig base size)

/-- The run that a request for `n` pages gets begins with page `b`. -/
def FirstRun (s : Mm) (n b : ℕ) : Prop :=
  if n = 1 then s.paHead = s.pageAddr b
  else s.ZeroRun n b ∧ ∀ c < b, ¬ s.ZeroRun n c

section RoundTrip

variable {s s₁ s₂ : Mm} {l : List ℕ} {rv i b n size : ℕ}

/-- What a call of `alloc_phys` that returns has done. -/
theorem allocPhys_cases (h : s.AllocatorInv) (hpos : 1 ≤ size)
    (hsize : size < 2 ^ 32) (hok : allocPhys size s = .ok (rv, s₁)) :
    (size + 0x3fff < 2 ^ 32 ∧ ∃ i, rv = s.pageAddr i ∧
      TakesPages s s₁ i (pagesOf size) ∧ s₁.FreeListWf) ∨
    (2 ^ 32 ≤ size + 0x3fff ∧ rv = s.pageAddr 0 ∧ s₁ = s ∧
      s.ppageList 0 = pageFree) := by
  obtain ⟨hinit, l, hl⟩ := h
  by_cases hlt : size + 0x3fff < 2 ^ 32
  · obtain ⟨i, hrv, htakes, hlist⟩ := hl.allocPhys hinit hok
    rw [allocPhysPages_of_lt hlt] at hrv htakes
    exact .inl ⟨hlt, i, hrv (pagesOf_pos hpos), htakes, hlist⟩
  · have hge := Nat.not_lt.mp hlt
    have hzero := (allocPhysPages_of_ge hsize hge).1
    by_cases hfirst : s.FirstUsedOrAllFree
    · obtain ⟨msg, hpanic⟩ := allocPhys_wrapped_panics hinit hzero hfirst
      rw [hpanic] at hok
      cases hok
    · rw [allocPhys_wrapped_ok hl hinit hzero hfirst] at hok
      obtain ⟨hrv, hs₁⟩ := Prod.mk.inj (Except.ok.inj hok)
      refine .inr ⟨hge, hrv.symm, hs₁.symm, ?_⟩
      exact not_not.mp (not_or.mp hfirst).1

theorem pagesOf_of_dvd (hdvd : size % pageSize = 0) :
    pagesOf size = size / pageSize := by
  unfold pagesOf pageSize at *
  omega

theorem pagesOf_of_not_dvd (hdvd : size % pageSize ≠ 0) :
    pagesOf size = size / pageSize + 1 := by
  unfold pagesOf pageSize at *
  omega

theorem TakesPages.taken_busy (h : TakesPages s s₁ i n) :
    ∀ j, i ≤ j → j < i + n → s₁.count j ≠ pageFree := by
  intro j hij hj
  rw [h.taken j hij hj]
  decide

theorem TakesPages.givesBack (h : TakesPages s s₁ i (size / pageSize))
    (hs : s.FreeListWf) (hs₁ : s₁.FreeListWf) :
    GivesBack s s₁ (freePhys (s.pageAddr i) size) := by
  obtain ⟨s₂, hok, hback⟩ := physDereference_givenBack hs₁
    (by rw [h.layout.ppages]; exact h.ram) h.taken_busy
  rw [h.layout.pageAddr] at hok
  obtain ⟨l, hl⟩ := hs
  obtain ⟨l₂, hl₂⟩ := hback.list
  refine ⟨s₂, hok, hl.sameFree hl₂ (h.layout.trans hback.layout) fun k => ?_⟩
  by_cases hk : i ≤ k ∧ k < i + size / pageSize
  · exact iff_of_true (hback.freed k hk.1 hk.2 (h.taken k hk.1 hk.2))
      (h.wasFree k hk.1 hk.2)
  · rw [count, count, hback.others k (by omega), h.others k (by omega)]

/-- The last page of the run is not given back. -/
theorem TakesPages.not_givesBack (h : TakesPages s s₁ i (n + 1))
    (hn : size / pageSize = n) (hs : s.FreeListWf) (hs₁ : s₁.FreeListWf) :
    ¬ GivesBack s s₁ (freePhys (s.pageAddr i) size) := by
  rintro ⟨s₂, hok, hsame⟩
  have hram := h.ram
  have hram₁ : i + size / pageSize ≤ s₁.ppages := by
    rw [h.layout.ppages, hn]
    omega
  obtain ⟨s₂', hok', hback⟩ := physDereference_givenBack hs₁ hram₁
    fun j hij hj => h.taken_busy j hij (by omega)
  rw [h.layout.pageAddr] at hok'
  obtain rfl := Except.ok.inj (hok.symm.trans hok')
  rw [hn] at hback
  obtain ⟨l, hl⟩ := hs
  obtain ⟨l₂, hl₂⟩ := hback.list
  have hlast : s.OnFreeList (i + n) :=
    hl.onFreeList_iff.mpr ⟨by omega, h.wasFree _ (by omega) (by omega)⟩
  have hfree := (hl₂.onFreeList_iff.mp ((hsame.members _).mpr hlast)).2
  rw [count, hback.others _ (.inr le_rfl), ← count,
    h.taken _ (by omega) (by omega)] at hfree
  exact absurd hfree (by decide)

/-- A page that is free cannot be given back. -/
theorem not_givesBack_of_free (hfree : s.ppageList i = pageFree)
    (hsize : 1 ≤ size / pageSize) :
    ¬ GivesBack s s (freePhys (s.pageAddr i) size) := by
  rintro ⟨s₂, hok, -⟩
  obtain ⟨-, hloop⟩ := (physDereference_iff (s.pageAddr_ne_zero i)
    (Nat.le_add_right _ _)).mp hok
  obtain ⟨n, hn⟩ := Nat.exists_eq_add_of_le' hsize
  rw [hn, pageAddr_sub_physBase, mul_pageSize_div] at hloop
  obtain ⟨u, hfirst, -⟩ := Outcome.forRange_succ_ok.mp hloop
  obtain ⟨-, hbusy, -⟩ := physDereferencePage_ok hfirst
  exact hbusy (by rw [count, hfree, refBits_pageFree])

theorem givesBack_freePhys_iff (h : s.AllocatorInv) (hpos : 1 ≤ size)
    (hsize : size < 2 ^ 32) (hok : allocPhys size s = .ok (rv, s₁)) :
    GivesBack s s₁ (freePhys rv size) ↔ size % pageSize = 0 := by
  rcases allocPhys_cases h hpos hsize hok with
    ⟨-, i, rfl, htakes, hs₁⟩ | ⟨hge, rfl, rfl, hfirst⟩
  · by_cases hdvd : size % pageSize = 0
    · rw [pagesOf_of_dvd hdvd] at htakes
      exact iff_of_true (htakes.givesBack h.freeList hs₁) hdvd
    · rw [pagesOf_of_not_dvd hdvd] at htakes
      exact iff_of_false (htakes.not_givesBack rfl h.freeList hs₁) hdvd
  · have hpages : 1 ≤ size / pageSize ∧ size % pageSize ≠ 0 := by
      unfold pageSize
      omega
    exact iff_of_false (not_givesBack_of_free hfirst hpages.1) hpages.2

/-! ### The run that is found -/

/-- The scan settles on the first run. -/
theorem allocPhysScan_least {j m found : ℕ} (hle : found ≤ i)
    (hlt : found < n) (hrv : 0 < found → rv = s.pageAddr (i - found))
    (hr : s.allocPhysScan n i m found rv = some (s.pageAddr j)) :
    ∀ c, i - found ≤ c → c < j →
      ¬ ∀ k, c ≤ k → k < c + n → s.ppageList k = pageFree := by
  induction m generalizing i found rv with
  | zero => cases hr
  | succ m ih =>
      rw [allocPhysScan] at hr
      by_cases hi : s.ppageList i = pageFree
      · simp only [allocPhysScan_start hi hrv, if_pos hi] at hr
        by_cases hdone : found + 1 = n
        · rw [if_pos hdone, Option.some_inj, pageAddr_inj] at hr
          exact fun c hc hcj => absurd hcj (by omega)
        · rw [if_neg hdone] at hr
          intro c hc
          exact ih (by omega) (by omega)
            (fun _ => by rw [show i + 1 - (found + 1) = i - found by omega])
            hr c (by omega)
      · simp only [if_neg hi, if_neg fun hboth : _ ∧ _ => hi hboth.1] at hr
        rw [if_neg (by omega)] at hr
        intro c hc hcj hrun
        by_cases hci : c ≤ i
        · exact hi (hrun i hci (by omega))
        · exact ih (Nat.zero_le _) (by omega)
            (fun hpos => absurd hpos (lt_irrefl 0)) hr c (by omega) hcj hrun

theorem FirstRun.unique (hi : s.FirstRun n i) (hb : s.FirstRun n b) :
    i = b := by
  unfold FirstRun at hi hb
  split at hi
  · rename_i hone
    rw [if_pos hone] at hb
    exact pageAddr_inj.mp (hi.symm.trans hb)
  · rename_i hone
    rw [if_neg hone] at hb
    rcases lt_trichotomy i b with hlt | heq | hlt
    · exact absurd hi.1 (hb.2 i hlt)
    · exact heq
    · exact absurd hb.1 (hi.2 b hlt)

theorem allocPhys_firstRun (hinit : s.allocStaticBase ≠ 0)
    (hn : 1 ≤ allocPhysPages size)
    (hok : allocPhys size s = .ok (s.pageAddr i, s₁)) :
    s.FirstRun (allocPhysPages size) i := by
  unfold FirstRun
  by_cases hone : allocPhysPages size = 1
  · rw [if_pos hone]
    rw [allocPhys_one hinit hone] at hok
    exact (FreeListSans.ppageAlloc_ok hinit hok).2.1.symm
  · rw [if_neg hone]
    have hscan := (FreeListSans.allocPhys_slow_ok hinit hone hok).1
    have hnone : 0 < 0 → (0 : ℕ) = s.pageAddr (0 - 0) :=
      fun hpos => absurd hpos (lt_irrefl 0)
    obtain ⟨j, hj, hram, hentry⟩ := allocPhysScan_some (Nat.le_refl 0) hn hnone
      (fun k _ hk => absurd hk (Nat.not_lt_zero k)) hscan
    obtain rfl := pageAddr_inj.mp hj
    refine ⟨⟨by omega, hentry⟩, fun c hc hrun => ?_⟩
    exact allocPhysScan_least (Nat.le_refl 0) hn hnone hscan c (Nat.zero_le c)
      hc hrun.2

/-! ### Contiguous memory -/

theorem freeContig_phystokv {pa : ℕ} (hpa : pa < 2 ^ 64) :
    GivesBack s s₁ (freeContig (phystokv pa) size) ↔
      InStaticView pa ∧ GivesBack s s₁ (freePhys pa size) := by
  unfold GivesBack freeContig
  simp only [Outcome.bind_eq_ok, vatophysStatic_phystokv hpa]
  constructor
  · rintro ⟨s₂, ⟨pa', ⟨hview, rfl⟩, hok⟩, hsame⟩
    exact ⟨hview, s₂, hok, hsame⟩
  · rintro ⟨hview, s₂, hok, hsame⟩
    exact ⟨s₂, ⟨pa, ⟨hview, rfl⟩, hok⟩, hsame⟩

theorem allocContig_eq_ok {base : ℕ} :
    allocContig size s = .ok (base, s₁) ↔
      ∃ rv, allocPhys size s = .ok (rv, s₁) ∧ base = phystokv rv := by
  unfold allocContig
  simp only [Outcome.bind_eq_ok, Outcome.pure_eq_ok, Prod.mk.injEq, Prod.exists]
  constructor
  · rintro ⟨rv, s', hok, rfl, rfl⟩
    exact ⟨rv, hok, rfl⟩
  · rintro ⟨rv, hok, rfl⟩
    exact ⟨rv, s₁, hok, rfl, rfl⟩

/-- A run of more than one page starts at a page. -/
theorem allocPhys_page (hpages : 1 < allocPhysPages size)
    (hok : allocPhys size s = .ok (rv, s₁)) : ∃ j, rv = s.pageAddr j := by
  unfold allocPhys at hok
  obtain ⟨s₀, hinit, hok⟩ := Outcome.bind_eq_ok.mp hok
  have hboot : s₀.boot = s.boot := by
    split at hinit
    · rename_i hfresh
      exact (allocInit_layout hfresh hinit).boot.trans s.afterWiring_boot
    · cases hinit
      rfl
  dsimp only at hok
  rw [if_neg (not_fast hpages.ne')] at hok
  split at hok
  · cases hok
  · rename_i base hscan
    simp only [Outcome.bind_eq_ok, Outcome.pure_eq_ok, Prod.mk.injEq] at hok
    obtain ⟨-, -, -, -, -, -, rfl, -⟩ := hok
    obtain ⟨j, hj, -⟩ := allocPhysScan_some le_rfl (by omega)
      (fun h => absurd h (by decide)) (fun k hk hlt => absurd hlt (by omega)) hscan
    exact ⟨j, by rw [hj, pageAddr, pageAddr, hboot]⟩

theorem allocPhys_lt (h : s.AllocatorInv) (hpos : 1 ≤ size)
    (hsize : size < 2 ^ 32) (hok : allocPhys size s = .ok (rv, s₁)) :
    rv < 2 ^ 64 := by
  have hfits := s.boot.ram_fits
  obtain ⟨l, hl⟩ := h.freeList
  have hsized := hl.sized
  rcases allocPhys_cases h hpos hsize hok with
    ⟨-, i, rfl, htakes, -⟩ | ⟨-, rfl, -, -⟩
  · have hi : i * pageSize ≤ s.ppages * pageSize :=
      Nat.mul_le_mul_right _ (Nat.le_trans (Nat.le_add_right i _) htakes.ram)
    unfold pageAddr
    omega
  · unfold pageAddr
    omega

/-- A whole number of pages is taken from the first run. -/
theorem allocPhys_base (h : s.AllocatorInv) (hpos : 1 ≤ size)
    (hsize : size < 2 ^ 32) (hdvd : size % pageSize = 0)
    (hok : allocPhys size s = .ok (rv, s₁)) :
    ∃ b, rv = s.pageAddr b ∧ s.FirstRun (size / pageSize) b := by
  have hlt : size + 0x3fff < 2 ^ 32 := by
    unfold pageSize at hdvd
    omega
  obtain ⟨-, i, rfl, -, -⟩ | ⟨hge, -⟩ := allocPhys_cases h hpos hsize hok
  · refine ⟨i, rfl, ?_⟩
    rw [← pagesOf_of_dvd hdvd, ← allocPhysPages_of_lt hlt]
    refine allocPhys_firstRun h.initialised ?_ hok
    rw [allocPhysPages_of_lt hlt]
    exact pagesOf_pos hpos
  · exact absurd hlt (Nat.not_lt.mpr hge)

/-- The two round trips of a call of `alloc_phys` that returns. -/
theorem roundTrips_iff (h : s.AllocatorInv) (hpos : 1 ≤ size)
    (hsize : size < 2 ^ 32) (hok : ∃ r, allocPhys size s = .ok r) :
    (s.PhysRoundTrip size ↔ size % pageSize = 0) ∧
      (s.ContigRoundTrip size ↔ size % pageSize = 0 ∧
        ∀ b, s.FirstRun (size / pageSize) b →
          InStaticView (s.pageAddr b)) := by
  obtain ⟨⟨rv, s₁⟩, hok⟩ := hok
  have hback := givesBack_freePhys_iff h hpos hsize hok
  have hphys : s.PhysRoundTrip size ↔ GivesBack s s₁ (freePhys rv size) := by
    constructor
    · exact fun htrip => htrip rv s₁ hok
    · intro hback rv' s₁' hok'
      obtain ⟨rfl, rfl⟩ := Prod.mk.inj (Except.ok.inj (hok.symm.trans hok'))
      exact hback
  have hcontig : s.ContigRoundTrip size ↔
      InStaticView rv ∧ GivesBack s s₁ (freePhys rv size) := by
    rw [← freeContig_phystokv (allocPhys_lt h hpos hsize hok)]
    constructor
    · exact fun htrip => htrip _ s₁ (allocContig_eq_ok.mpr ⟨rv, hok, rfl⟩)
    · intro hback base s₁' hbase
      obtain ⟨rv', hok', rfl⟩ := allocContig_eq_ok.mp hbase
      obtain ⟨rfl, rfl⟩ := Prod.mk.inj (Except.ok.inj (hok.symm.trans hok'))
      exact hback
  refine ⟨hphys.trans hback, ?_⟩
  rw [hcontig, hback, and_comm]
  refine and_congr_right fun hdvd => ?_
  obtain ⟨b, rfl, hfirst⟩ := allocPhys_base h hpos hsize hdvd hok
  constructor
  · intro hview c hc
    rwa [hc.unique hfirst]
  · exact fun hview => hview b hfirst

end RoundTrip

theorem allocPhys_twoPages :
    ∃ r, allocPhys 0x4000 twoPages = .ok r := by
  obtain ⟨rv, s', hok⟩ := ppageAlloc_returns twoPages_freeList
    (by decide) (by decide)
  exact ⟨(rv, s'), (allocPhys_one (by decide) (by decide)).trans hok⟩

theorem roundTrips_twoPages :
    twoPages.PhysRoundTrip 0x4000 :=
  (roundTrips_iff twoPages_inv (by decide) (by decide)
    allocPhys_twoPages).1.mpr (by decide)

/-- A page taken for 512 bytes is not given back. -/
theorem free_phys_leaks :
    twoPages.AllocatorInv ∧ (∃ r, allocPhys 0x200 twoPages = .ok r) ∧
      ¬ twoPages.PhysRoundTrip 0x200 ∧ ¬ twoPages.ContigRoundTrip 0x200 := by
  obtain ⟨⟨rv, s₁⟩, hok⟩ : ∃ r, allocPhys 0x200 twoPages = .ok r := by
    obtain ⟨r, hr⟩ := allocPhys_twoPages
    rw [allocPhys_one (by decide) (by decide)] at hr
    exact ⟨r, (allocPhys_one (by decide) (by decide)).trans hr⟩
  have hkept : ¬ GivesBack twoPages s₁ (freePhys rv 0x200) := by
    rw [givesBack_freePhys_iff twoPages_inv (by decide) (by decide) hok]
    decide
  refine ⟨twoPages_inv, ⟨_, hok⟩, fun htrip => hkept (htrip rv s₁ hok),
    fun htrip => hkept ?_⟩
  have hrv := allocPhys_lt twoPages_inv (by decide) (by decide) hok
  exact ((freeContig_phystokv hrv).mp
    (htrip _ s₁ (allocContig_eq_ok.mpr ⟨rv, hok, rfl⟩))).2

end Mm

end PongoOS
