import Mathlib.Data.Finset.Card
import PongoOS.Support.DoublyLinked
import PongoOS.Mm.PageAllocator

/-!
# The free list and the reference counters agree

`FreeListSans s l X` is the invariant of the page allocator with a set `X` of
pages taken out of the list while their counters still read `PAGE_FREE`, which
is the situation inside `ppage_alloc` and `alloc_phys` between unlinking a page
and counting its first reference.  Between two calls `X` is empty.
-/

namespace PongoOS

open DoublyLinked

namespace Mm

def nextLink (s : Mm) (pa : ℕ) : ℕ := s.mem pa
def prevLink (s : Mm) (pa : ℕ) : ℕ := s.mem (pa + 8)

structure FreeListSans (s : Mm) (l : List ℕ) (X : Finset ℕ) : Prop where
  chain : Chain s.nextLink s.prevLink 0 0 l s.paHead
  nodup : l.Nodup
  mem_iff : ∀ pa, pa ∈ l ↔
    ∃ i, i < s.ppages ∧ i ∉ X ∧ s.count i = pageFree ∧ pa = s.pageAddr i
  sansFree : ∀ i ∈ X, i < s.ppages ∧ s.count i = pageFree
  total : s.freePages = l.length + X.card
  sized : s.ppages * pageSize ≤ s.boot.memSize

/-- The list at `pa_head` is a finite doubly linked list whose nodes are the
pages with counter `PAGE_FREE`, and `free_pages` is its length. -/
def FreeListWf (s : Mm) : Prop := ∃ l, FreeListSans s l ∅

/-! ## Page addresses -/

theorem pageAddr_injective (s : Mm) : Function.Injective s.pageAddr := by
  intro i j hij
  simp only [pageAddr, pageSize] at hij
  omega

@[simp] theorem pageAddr_inj {s : Mm} {i j : ℕ} :
    s.pageAddr i = s.pageAddr j ↔ i = j :=
  s.pageAddr_injective.eq_iff

theorem pageAddr_pos (s : Mm) (i : ℕ) : 0 < s.pageAddr i :=
  Nat.lt_of_lt_of_le s.boot.physBase_pos (Nat.le_add_right _ _)

theorem pageAddr_ne_zero (s : Mm) (i : ℕ) : s.pageAddr i ≠ 0 :=
  (s.pageAddr_pos i).ne'

theorem pageAddr_ne_add_eight (s : Mm) (i j : ℕ) :
    s.pageAddr i ≠ s.pageAddr j + 8 := by
  simp only [pageAddr, pageSize]
  omega

theorem pageAddr_lt {s : Mm} {i : ℕ} (hi : i < s.ppages)
    (hsized : s.ppages * pageSize ≤ s.boot.memSize) :
    s.pageAddr i < 2 ^ 64 := by
  have hfits := s.boot.ram_fits
  simp only [pageAddr, pageSize] at *
  omega

theorem sub64_pageAddr {s : Mm} {i : ℕ} (hi : i < s.ppages)
    (hsized : s.ppages * pageSize ≤ s.boot.memSize) :
    sub64 (s.pageAddr i) s.boot.physBase = i * pageSize :=
  (sub64_of_le (Nat.le_add_right _ _) (pageAddr_lt hi hsized)).trans
    (Nat.add_sub_cancel_left _ _)

theorem pageAddr_sub_physBase (s : Mm) (i : ℕ) :
    s.pageAddr i - s.boot.physBase = i * pageSize :=
  Nat.add_sub_cancel_left _ _

theorem not_pageAddr_lt_physBase (s : Mm) (i : ℕ) :
    ¬ s.pageAddr i < s.boot.physBase :=
  Nat.not_lt.mpr (Nat.le_add_right _ _)

@[simp] theorem mul_pageSize_div (i : ℕ) : i * pageSize / pageSize = i :=
  Nat.mul_div_cancel i (by decide)

@[simp] theorem mul_pageSize_mod (i : ℕ) : i * pageSize % pageSize = 0 :=
  Nat.mul_mod_left i pageSize

/-! ## Links of page-aligned nodes -/

@[simp] theorem nextLink_store_prev (s : Mm) (i j v : ℕ) :
    (s.store (s.pageAddr j + 8) v).nextLink (s.pageAddr i) =
      s.nextLink (s.pageAddr i) :=
  store_mem_of_ne _ _ _ (s.pageAddr_ne_add_eight i j)

@[simp] theorem prevLink_store_next (s : Mm) (i j v : ℕ) :
    (s.store (s.pageAddr j) v).prevLink (s.pageAddr i) =
      s.prevLink (s.pageAddr i) :=
  store_mem_of_ne _ _ _ (s.pageAddr_ne_add_eight j i).symm

@[simp] theorem nextLink_store_self (s : Mm) (a v : ℕ) :
    (s.store a v).nextLink a = v :=
  store_mem_self _ _ _

@[simp] theorem prevLink_store_self (s : Mm) (a v : ℕ) :
    (s.store (a + 8) v).prevLink a = v :=
  store_mem_self _ _ _

/-! ## What `phys_page_was_freed` changes -/

section PageWasFreed

variable (s : Mm) (pa i : ℕ)

@[simp] theorem physPageWasFreed_boot :
    (s.physPageWasFreed pa).boot = s.boot := by
  unfold physPageWasFreed
  split <;> rfl

@[simp] theorem physPageWasFreed_ppages :
    (s.physPageWasFreed pa).ppages = s.ppages := by
  unfold physPageWasFreed
  split <;> rfl

@[simp] theorem physPageWasFreed_ppageList :
    (s.physPageWasFreed pa).ppageList = s.ppageList := by
  unfold physPageWasFreed
  split <;> rfl

@[simp] theorem physPageWasFreed_wiredPages :
    (s.physPageWasFreed pa).wiredPages = s.wiredPages := by
  unfold physPageWasFreed
  split <;> rfl

@[simp] theorem physPageWasFreed_is16k :
    (s.physPageWasFreed pa).is16k = s.is16k := by
  unfold physPageWasFreed
  split <;> rfl

@[simp] theorem physPageWasFreed_ttbFreelist :
    (s.physPageWasFreed pa).ttbFreelist = s.ttbFreelist := by
  unfold physPageWasFreed
  split <;> rfl

@[simp] theorem physPageWasFreed_allocStaticBase :
    (s.physPageWasFreed pa).allocStaticBase = s.allocStaticBase := by
  unfold physPageWasFreed
  split <;> rfl

@[simp] theorem physPageWasFreed_count :
    (s.physPageWasFreed pa).count i = s.count i := by
  simp [count]

@[simp] theorem physPageWasFreed_pageAddr :
    (s.physPageWasFreed pa).pageAddr i = s.pageAddr i := by
  simp [pageAddr]

@[simp] theorem physPageWasFreed_paHead :
    (s.physPageWasFreed pa).paHead = pa := rfl

@[simp] theorem physPageWasFreed_freePages :
    (s.physPageWasFreed pa).freePages = inc64 s.freePages := rfl

theorem physPageWasFreed_mem_of_ne {a : ℕ} (hhead : a ≠ s.paHead + 8)
    (hnext : a ≠ pa) (hprev : a ≠ pa + 8) :
    (s.physPageWasFreed pa).mem a = s.mem a := by
  unfold physPageWasFreed
  split
  · show ((((s.store _ _).store _ _).store _ _).mem a) = _
    rw [store_mem_of_ne _ _ _ hprev, store_mem_of_ne _ _ _ hnext,
      store_mem_of_ne _ _ _ hhead]
  · show (((s.store _ _).store _ _).mem a) = _
    rw [store_mem_of_ne _ _ _ hprev, store_mem_of_ne _ _ _ hnext]

@[simp] theorem physPageWasFreed_mem_next :
    (s.physPageWasFreed pa).mem pa = s.paHead := by
  show (((if s.paHead ≠ 0 then s.store (s.paHead + 8) pa else s).store
    pa s.paHead).store (pa + 8) 0).mem pa = _
  rw [store_mem_of_ne _ _ _ (by omega), store_mem_self]

@[simp] theorem physPageWasFreed_mem_prev :
    (s.physPageWasFreed pa).mem (pa + 8) = 0 :=
  store_mem_self _ _ _

theorem physPageWasFreed_mem_head (hhead : s.paHead ≠ 0)
    (hnext : s.paHead + 8 ≠ pa) (hprev : s.paHead ≠ pa) :
    (s.physPageWasFreed pa).mem (s.paHead + 8) = pa := by
  show (((if s.paHead ≠ 0 then s.store (s.paHead + 8) pa else s).store
    pa s.paHead).store (pa + 8) 0).mem (s.paHead + 8) = _
  rw [if_pos hhead, store_mem_of_ne _ _ _ (by omega),
    store_mem_of_ne _ _ _ hnext, store_mem_self]

theorem setEntry_physPageWasFreed (entry : ℕ) :
    (s.setEntry i entry).physPageWasFreed pa =
      (s.physPageWasFreed pa).setEntry i entry := by
  by_cases hhead : s.paHead = 0
  · simp [physPageWasFreed, hhead, setEntry, store]
  · simp [physPageWasFreed, hhead, setEntry, store]

theorem setWiredPages_physPageWasFreed (w : ℕ) :
    (s.setWiredPages w).physPageWasFreed pa =
      (s.physPageWasFreed pa).setWiredPages w := by
  by_cases hhead : s.paHead = 0
  · simp [physPageWasFreed, hhead, setWiredPages, store]
  · simp [physPageWasFreed, hhead, setWiredPages, store]

theorem setWiredPages_setEntry (w entry : ℕ) :
    (s.setWiredPages w).setEntry i entry =
      (s.setEntry i entry).setWiredPages w := rfl

theorem setFreePages_setEntry (n entry : ℕ) :
    (s.setFreePages n).setEntry i entry =
      (s.setEntry i entry).setFreePages n := rfl

end PageWasFreed

/-! ## What `phys_unlink_contiguous` does to one page -/

/-- The stores of one turn of `phys_unlink_contiguous`, without its checks. -/
def unlinkNode (s : Mm) (pa : ℕ) : Mm :=
  let s₁ :=
    if s.nextLink pa ≠ 0 then s.store (s.nextLink pa + 8) (s.prevLink pa)
    else s
  if s.prevLink pa ≠ 0 then s₁.store (s.prevLink pa) (s.nextLink pa)
  else { s₁ with paHead := s.nextLink pa }

theorem physUnlinkPage_ok {s s' : Mm} {i : ℕ}
    (hok : physUnlinkPage i s = .ok s') :
    s' = s.unlinkNode (s.pageAddr i) := by
  simp only [physUnlinkPage, Outcome.bind_eq_ok, panicIf_eq_ok] at hok
  obtain ⟨-, -, entry, -, -, -, s₁, hs₁, hs'⟩ := hok
  have hfirst : s₁ = if s.nextLink (s.pageAddr i) ≠ 0 then
      s.store (s.nextLink (s.pageAddr i) + 8) (s.prevLink (s.pageAddr i))
      else s := by
    unfold nextLink prevLink
    split at hs₁
    · rename_i hne
      simp only [Outcome.bind_eq_ok, Outcome.pure_eq_ok] at hs₁
      obtain ⟨-, -, -, -, rfl⟩ := hs₁
      rw [if_pos hne]
    · rename_i hne
      rw [if_neg hne]
      exact (Outcome.pure_eq_ok.mp hs₁).symm
  unfold unlinkNode
  rw [← hfirst]
  unfold nextLink prevLink
  split at hs'
  · rename_i hne
    simp only [Outcome.bind_eq_ok, Outcome.pure_eq_ok] at hs'
    obtain ⟨-, -, -, -, rfl⟩ := hs'
    rw [if_pos hne]
  · rename_i hne
    rw [if_neg hne]
    exact (Outcome.pure_eq_ok.mp hs').symm

/-- Unlinking changes link words and the head only. -/
theorem unlinkNode_shape (s : Mm) (pa : ℕ) :
    s.unlinkNode pa =
      { s with
        mem := (s.unlinkNode pa).mem
        paHead := (s.unlinkNode pa).paHead } := by
  by_cases hnext : s.nextLink pa = 0 <;> by_cases hprev : s.prevLink pa = 0 <;>
    simp [unlinkNode, hnext, hprev, store]

theorem unlinkNode_mem_of_ne {s : Mm} {pa a : ℕ}
    (hnext : s.nextLink pa ≠ 0 → a ≠ s.nextLink pa + 8)
    (hprev : s.prevLink pa ≠ 0 → a ≠ s.prevLink pa) :
    (s.unlinkNode pa).mem a = s.mem a := by
  by_cases hn : s.nextLink pa = 0 <;> by_cases hp : s.prevLink pa = 0
  · simp [unlinkNode, hn, hp]
  · simp [unlinkNode, hn, hp, store_mem_of_ne _ _ _ (hprev hp)]
  · simp [unlinkNode, hn, hp, store_mem_of_ne _ _ _ (hnext hn)]
  · simp [unlinkNode, hn, hp, store_mem_of_ne _ _ _ (hnext hn),
      store_mem_of_ne _ _ _ (hprev hp)]

theorem unlinkNode_mem_prev {s : Mm} {pa : ℕ} (hprev : s.prevLink pa ≠ 0) :
    (s.unlinkNode pa).mem (s.prevLink pa) = s.nextLink pa := by
  simp [unlinkNode, hprev]

theorem unlinkNode_mem_next {s : Mm} {pa : ℕ} (hnext : s.nextLink pa ≠ 0)
    (hne : s.nextLink pa + 8 ≠ s.prevLink pa) :
    (s.unlinkNode pa).mem (s.nextLink pa + 8) = s.prevLink pa := by
  by_cases hp : s.prevLink pa = 0
  · simp [unlinkNode, hnext, hp]
  · simp [unlinkNode, hnext, hp, store_mem_of_ne _ _ _ hne]

theorem unlinkNode_paHead (s : Mm) (pa : ℕ) :
    (s.unlinkNode pa).paHead =
      if s.prevLink pa = 0 then s.nextLink pa else s.paHead := by
  by_cases hnext : s.nextLink pa = 0 <;> by_cases hprev : s.prevLink pa = 0 <;>
    simp [unlinkNode, hnext, hprev]

namespace FreeListSans

variable {s s' : Mm} {l : List ℕ} {X : Finset ℕ} {i : ℕ}

theorem exists_page (h : FreeListSans s l X) {pa : ℕ} (hpa : pa ∈ l) :
    ∃ i, i < s.ppages ∧ i ∉ X ∧ s.count i = pageFree ∧ pa = s.pageAddr i :=
  (h.mem_iff pa).mp hpa

theorem pageAddr_mem (h : FreeListSans s l X) :
    s.pageAddr i ∈ l ↔ i < s.ppages ∧ i ∉ X ∧ s.count i = pageFree := by
  rw [h.mem_iff]
  constructor
  · rintro ⟨j, hj, hjX, hfree, heq⟩
    rw [pageAddr_inj] at heq
    exact heq ▸ ⟨hj, hjX, hfree⟩
  · rintro ⟨hi, hiX, hfree⟩
    exact ⟨i, hi, hiX, hfree, rfl⟩

/-- There are at most as many free pages as pages, so the counter never
wraps. -/
theorem freePages_le (h : FreeListSans s l X) : s.freePages ≤ s.ppages := by
  classical
  have hsub : (l.toFinset.image fun pa => (pa - s.boot.physBase) / pageSize)
      ∪ X ⊆ Finset.range s.ppages := by
    intro j hj
    rcases Finset.mem_union.mp hj with hj | hj
    · obtain ⟨pa, hpa, rfl⟩ := Finset.mem_image.mp hj
      obtain ⟨k, hk, -, -, rfl⟩ := h.exists_page (List.mem_toFinset.mp hpa)
      simpa [pageAddr_sub_physBase] using hk
    · exact Finset.mem_range.mpr (h.sansFree j hj).1
  have hdisjoint : Disjoint
      (l.toFinset.image fun pa => (pa - s.boot.physBase) / pageSize) X := by
    rw [Finset.disjoint_left]
    intro j hj
    obtain ⟨pa, hpa, rfl⟩ := Finset.mem_image.mp hj
    obtain ⟨k, -, hkX, -, rfl⟩ := h.exists_page (List.mem_toFinset.mp hpa)
    simpa [pageAddr_sub_physBase] using hkX
  have hinj : Set.InjOn (fun pa => (pa - s.boot.physBase) / pageSize)
      (l.toFinset : Set ℕ) := by
    intro a ha b hb hab
    obtain ⟨j, -, -, -, rfl⟩ := h.exists_page (by simpa using ha)
    obtain ⟨k, -, -, -, rfl⟩ := h.exists_page (by simpa using hb)
    simpa [pageAddr_sub_physBase] using hab
  have hcard := Finset.card_le_card hsub
  rw [Finset.card_union_of_disjoint hdisjoint, Finset.card_image_of_injOn hinj,
    List.toFinset_card_of_nodup h.nodup, Finset.card_range] at hcard
  rw [h.total]
  exact hcard

theorem ppages_lt (h : FreeListSans s l X) : s.ppages < 2 ^ 63 := by
  have hsized := h.sized
  have hfits := s.boot.ram_fits
  simp only [pageSize] at hsized
  omega

/-- Changing the counter of a page outside the list, without making it free,
keeps the list. -/
theorem setEntry_busy (h : FreeListSans s l X) {entry : ℕ}
    (hbusy : s.count i ≠ pageFree ∨ s.ppages ≤ i)
    (hentry : refBits entry ≠ pageFree ∨ s.ppages ≤ i) :
    FreeListSans (s.setEntry i entry) l X := by
  refine ⟨h.chain, h.nodup, ?_, ?_, h.total, h.sized⟩
  · intro pa
    rw [h.mem_iff]
    refine exists_congr fun j => ?_
    by_cases hji : j = i
    · subst hji
      simp only [setEntry_ppages, setEntry_count_self]
      constructor
      · rintro ⟨hlt, -, hfree, -⟩
        rcases hbusy with hb | hb
        · exact absurd hfree hb
        · omega
      · rintro ⟨hlt, -, hfree, -⟩
        rcases hentry with hb | hb
        · exact absurd hfree hb
        · omega
    · simp [setEntry_count_of_ne _ _ _ hji]
  · intro j hj
    obtain ⟨hlt, hfree⟩ := h.sansFree j hj
    have hji : j ≠ i := by
      rintro rfl
      rcases hbusy with hb | hb
      · exact hb hfree
      · omega
    exact ⟨hlt, by rw [setEntry_count_of_ne _ _ _ hji, hfree]⟩

/-- Counting a first reference on a page taken out of the list. -/
theorem setEntry_taken (h : FreeListSans s l X) {entry : ℕ} (hi : i ∈ X)
    (hentry : refBits entry ≠ pageFree) :
    FreeListSans ((s.setEntry i entry).setFreePages (s.freePages - 1))
      l (X.erase i) := by
  have hcard : 0 < X.card := Finset.card_pos.mpr ⟨i, hi⟩
  refine ⟨h.chain, h.nodup, ?_, ?_, ?_, h.sized⟩
  · intro pa
    rw [h.mem_iff]
    refine exists_congr fun j => ?_
    by_cases hji : j = i
    · subst hji
      simp [count, setEntry] at *
      simp [hi, hentry]
    · simp [hji, count, setEntry, pageAddr]
  · intro j hj
    obtain ⟨hji, hjX⟩ := Finset.mem_erase.mp hj
    obtain ⟨hlt, hfree⟩ := h.sansFree j hjX
    exact ⟨hlt, (setEntry_count_of_ne s i entry hji).trans hfree⟩
  · have htotal := h.total
    rw [Finset.card_erase_of_mem hi]
    show s.freePages - 1 = _
    omega

/-- Freeing a page puts it in front of the list. -/
theorem pushFreed (h : FreeListSans s l X) {entry : ℕ} (hi : i < s.ppages)
    (hbusy : s.count i ≠ pageFree) (hentry : refBits entry = pageFree) :
    FreeListSans ((s.physPageWasFreed (s.pageAddr i)).setEntry i entry)
      (s.pageAddr i :: l) X := by
  have hnotMem : s.pageAddr i ∉ l := by
    rw [h.pageAddr_mem]
    exact fun hmem => hbusy hmem.2.2
  have hiX : i ∉ X := fun hmem => hbusy (h.sansFree i hmem).2
  have hnodup : (s.pageAddr i :: l).Nodup :=
    List.nodup_cons.mpr ⟨hnotMem, h.nodup⟩
  have hle := h.freePages_le
  have hlt := h.ppages_lt
  refine ⟨?_, hnodup, ?_, ?_, ?_, ?_⟩
  · -- the stores go to the old head and to the new page only
    have hlinks : ∀ y ∈ l, y ≠ s.pageAddr i ∧ ∃ j, y = s.pageAddr j := by
      intro y hy
      obtain ⟨j, -, -, -, rfl⟩ := h.exists_page hy
      exact ⟨fun heq => hnotMem (heq ▸ hy), j, rfl⟩
    refine h.chain.push hnodup (s.pageAddr_ne_zero i)
      (physPageWasFreed_mem_next s _) (physPageWasFreed_mem_prev s _) ?_ ?_ ?_
    · intro y hy
      obtain ⟨hne, k, rfl⟩ := hlinks y hy
      refine physPageWasFreed_mem_of_ne s _ ?_ hne
        (s.pageAddr_ne_add_eight k i)
      by_cases hhead : s.paHead = 0
      · rw [h.chain.eq_nil_iff.mpr hhead] at hy
        simp at hy
      · obtain ⟨-, j, hj⟩ := hlinks _ (h.chain.head_mem hhead)
        rw [hj]
        exact s.pageAddr_ne_add_eight k j
    · intro hmem
      obtain ⟨hne, j, hj⟩ := hlinks _ hmem
      have hoff := s.pageAddr_ne_add_eight i j
      rw [← hj] at hoff
      exact physPageWasFreed_mem_head s _ (h.chain.ne_null hmem) hoff.symm hne
    · intro y hy hyhead
      obtain ⟨hne, k, rfl⟩ := hlinks y hy
      have hoff := s.pageAddr_ne_add_eight i k
      refine physPageWasFreed_mem_of_ne s (s.pageAddr i) (a := s.pageAddr k + 8)
        ?_ hoff.symm ?_
      · exact fun heq => hyhead (Nat.add_right_cancel heq)
      · exact fun heq => hne (Nat.add_right_cancel heq)
  · intro pa
    simp only [List.mem_cons, h.mem_iff, setEntry_ppages, setEntry_pageAddr,
      physPageWasFreed_ppages, physPageWasFreed_pageAddr]
    constructor
    · rintro (rfl | ⟨j, hj, hjX, hfree, rfl⟩)
      · exact ⟨i, hi, hiX, by simpa using hentry, rfl⟩
      · have hji : j ≠ i := fun heq => hbusy (heq ▸ hfree)
        refine ⟨j, hj, hjX, ?_, rfl⟩
        rw [setEntry_count_of_ne _ _ _ hji, physPageWasFreed_count, hfree]
    · rintro ⟨j, hj, hjX, hfree, rfl⟩
      by_cases hji : j = i
      · subst hji
        exact Or.inl rfl
      · rw [setEntry_count_of_ne _ _ _ hji, physPageWasFreed_count] at hfree
        exact Or.inr ⟨j, hj, hjX, hfree, rfl⟩
  · intro j hj
    obtain ⟨hlt, hfree⟩ := h.sansFree j hj
    have hji : j ≠ i := fun heq => hbusy (heq ▸ hfree)
    refine ⟨by simpa using hlt, ?_⟩
    rw [setEntry_count_of_ne _ _ _ hji, physPageWasFreed_count, hfree]
  · have htotal := h.total
    rw [setEntry_freePages, physPageWasFreed_freePages,
      inc64_of_lt (by omega), List.length_cons]
    omega
  · simpa using h.sized

/-- Unlinking a free page takes it out of the list. -/
theorem page_of_mem (h : FreeListSans s l X) {y : ℕ} (hy : y ∈ l) :
    y ≠ 0 ∧ ∃ k, y = s.pageAddr k := by
  obtain ⟨k, -, -, -, rfl⟩ := h.exists_page hy
  exact ⟨s.pageAddr_ne_zero k, k, rfl⟩

/-- A node's first word is never another node's second word. -/
theorem ne_add_eight (h : FreeListSans s l X) {y z : ℕ} (hy : y ∈ l)
    (hz : z ∈ l) : y ≠ z + 8 := by
  obtain ⟨-, j, rfl⟩ := h.page_of_mem hy
  obtain ⟨-, k, rfl⟩ := h.page_of_mem hz
  exact s.pageAddr_ne_add_eight j k

/-- The stores of `phys_unlink_page` join the neighbours of the page. -/
theorem unlinkNode_chain {x : ℕ} {xs ys : List ℕ}
    (h : FreeListSans s (xs ++ x :: ys) X) :
    Chain (s.unlinkNode x).nextLink (s.unlinkNode x).prevLink 0 0 (xs ++ ys)
      (s.unlinkNode x).paHead := by
  have hsub : ∀ y ∈ xs ++ ys, y ∈ xs ++ x :: ys := by
    intro y hy
    rcases List.mem_append.mp hy with hy | hy <;> simp [hy]
  have hnextCase := h.chain.mem_tail_of_next
  have hprevCase := h.chain.mem_init_of_prev
  have hprevMem : s.prevLink x ≠ 0 → s.prevLink x ∈ xs := by
    intro hne
    rcases hprevCase with ⟨-, hzero⟩ | hmem
    · exact absurd hzero hne
    · exact hmem
  have hnextMem : s.nextLink x ≠ 0 → s.nextLink x ∈ ys := by
    intro hne
    exact hnextCase.resolve_left hne
  have hnextKept : ∀ y ∈ xs ++ ys, y ≠ s.prevLink x →
      (s.unlinkNode x).nextLink y = s.nextLink y := by
    intro y hy hyprev
    refine unlinkNode_mem_of_ne (fun hne => ?_) (fun _ => hyprev)
    exact h.ne_add_eight (hsub y hy) (hsub _ (by simp [hnextMem hne]))
  have hprevKept : ∀ y ∈ xs ++ ys, y ≠ s.nextLink x →
      (s.unlinkNode x).prevLink y = s.prevLink y := by
    intro y hy hynext
    refine unlinkNode_mem_of_ne (a := y + 8) (fun _ heq => ?_) (fun hne => ?_)
    · exact hynext (Nat.add_right_cancel heq)
    · exact (h.ne_add_eight (hsub _ (by simp [hprevMem hne])) (hsub y hy)).symm
  have hprevNext : s.prevLink x ∈ xs →
      (s.unlinkNode x).nextLink (s.prevLink x) = s.nextLink x := by
    intro hmem
    exact unlinkNode_mem_prev (h.page_of_mem (hsub _ (by simp [hmem]))).1
  have hnextPrev : s.nextLink x ∈ ys →
      (s.unlinkNode x).prevLink (s.nextLink x) = s.prevLink x := by
    intro hmem
    have hin := hsub (s.nextLink x) (by simp [hmem])
    refine unlinkNode_mem_next (h.page_of_mem hin).1 (fun heq => ?_)
    by_cases hp : s.prevLink x = 0
    · omega
    · exact h.ne_add_eight (hsub _ (by simp [hprevMem hp])) hin heq.symm
  have hchain := h.chain.unlink h.nodup hprevNext hnextKept hnextPrev hprevKept
    (fun hmem => (h.page_of_mem (hsub 0 hmem)).1 rfl)
  have hhead : (if xs = [] then s.nextLink x else s.paHead) =
      (s.unlinkNode x).paHead := by
    rw [unlinkNode_paHead]
    rcases hprevCase with ⟨hxs, hzero⟩ | hmem
    · rw [if_pos hxs, if_pos hzero]
    · rw [if_neg (List.ne_nil_of_mem hmem),
        if_neg (h.page_of_mem (hsub _ (by simp [hmem]))).1]
  rwa [hhead] at hchain

theorem unlink (h : FreeListSans s l X) (hi : i < s.ppages) (hiX : i ∉ X)
    (hfree : s.count i = pageFree) :
    ∃ l', FreeListSans (s.unlinkNode (s.pageAddr i)) l' (insert i X) := by
  obtain ⟨xs, ys, rfl⟩ := List.append_of_mem
    (h.pageAddr_mem.mpr ⟨hi, hiX, hfree⟩)
  have hchain := h.unlinkNode_chain
  have hnodup := h.nodup
  rw [List.nodup_middle] at hnodup
  obtain ⟨hnotMem, hnodup⟩ := List.nodup_cons.mp hnodup
  have hshape := s.unlinkNode_shape (s.pageAddr i)
  have hcount : ∀ j, (s.unlinkNode (s.pageAddr i)).count j = s.count j := by
    intro j
    rw [hshape]
    rfl
  have hppages : (s.unlinkNode (s.pageAddr i)).ppages = s.ppages := by
    rw [hshape]
  have haddr : ∀ j,
      (s.unlinkNode (s.pageAddr i)).pageAddr j = s.pageAddr j := by
    intro j
    rw [hshape]
    rfl
  refine ⟨xs ++ ys, hchain, hnodup, ?_, ?_, ?_, ?_⟩
  · intro pa
    rw [hppages]
    simp only [hcount, haddr, Finset.mem_insert, not_or]
    constructor
    · intro hpa
      have hin : pa ∈ xs ++ s.pageAddr i :: ys := by
        rcases List.mem_append.mp hpa with hpa | hpa <;> simp [hpa]
      obtain ⟨k, hk, hkX, hkfree, rfl⟩ := h.exists_page hin
      refine ⟨k, hk, ⟨?_, hkX⟩, hkfree, rfl⟩
      rintro rfl
      exact hnotMem hpa
    · rintro ⟨k, hk, ⟨hki, hkX⟩, hkfree, rfl⟩
      have hmem := h.pageAddr_mem.mpr ⟨hk, hkX, hkfree⟩
      have hne : s.pageAddr k ≠ s.pageAddr i :=
        fun heq => hki (pageAddr_inj.mp heq)
      simpa [hne] using hmem
  · intro j hj
    rw [hppages, hcount]
    rcases Finset.mem_insert.mp hj with rfl | hj
    · exact ⟨hi, hfree⟩
    · exact h.sansFree j hj
  · have htotal := h.total
    rw [Finset.card_insert_of_notMem hiX]
    simp only [List.length_append, List.length_cons] at htotal ⊢
    rw [hshape]
    show s.freePages = _
    omega
  · rw [hshape]
    exact h.sized

end FreeListSans

end Mm

end PongoOS
