import Mathlib.Order.Interval.Finset.Nat
import PongoOS.Mm.FreeList

/-!
# One call of the page allocator

For each loop body, what it can do; from that, what each allocator call does to
the free-list invariant.  The frame results say which memory a call may write:
only pages that are free before or after it.
-/

namespace PongoOS

open DoublyLinked

namespace Mm

/-! ## What one turn of a loop does -/

theorem physReferencePage_ok {s s' : Mm} {i : ℕ}
    (hok : physReferencePage i s = .ok s') :
    i ≤ s.ppages ∧
      ((s.count i = pageWired ∧ s' = s) ∨
       (s.count i ≠ pageWired ∧ s.count i ≠ pageFree ∧
        s' = s.setEntry i (withRefBits (s.ppageList i) (s.ppageList i + 1))) ∨
       (s.count i = pageFree ∧
        s' = (s.setEntry i
            (withRefBits (s.ppageList i) (s.ppageList i + 1))).setFreePages
          (dec64 s.freePages))) := by
  simp only [physReferencePage, Outcome.bind_eq_ok, panicIf_eq_ok] at hok
  obtain ⟨-, hle, hok⟩ := hok
  refine ⟨Nat.le_of_not_lt hle, ?_⟩
  by_cases hwired : s.count i = pageWired
  · rw [if_neg (not_not_intro hwired)] at hok
    exact Or.inl ⟨hwired, (Outcome.pure_eq_ok.mp hok).symm⟩
  · rw [if_pos hwired] at hok
    have heq := (Outcome.pure_eq_ok.mp hok).symm
    by_cases hfree : s.count i = pageFree
    · rw [if_pos hfree, setFreePages_setEntry] at heq
      exact Or.inr (Or.inr ⟨hfree, heq⟩)
    · rw [if_neg hfree] at heq
      exact Or.inr (Or.inl ⟨hwired, hfree, heq⟩)

theorem physDereferencePage_ok {s s' : Mm} {i : ℕ}
    (hok : physDereferencePage i s = .ok s') :
    i ≤ s.ppages ∧ s.count i ≠ pageFree ∧
      ∃ entry, refBits entry = s.count i - 1 ∧
        s' = if s.count i = 1 then
          (s.physPageWasFreed (s.pageAddr i)).setEntry i entry
        else s.setEntry i entry := by
  simp only [physDereferencePage, Outcome.bind_eq_ok, panicIf_eq_ok,
    Outcome.pure_eq_ok] at hok
  obtain ⟨-, hle, -, hbusy, hok⟩ := hok
  refine ⟨Nat.le_of_not_lt hle, hbusy,
    withRefBits (s.ppageList i) (s.ppageList i + 0xffffffff), ?_, ?_⟩
  · rw [refBits_withRefBits]
    simp only [count, refBits, pageFree] at *
    omega
  · rw [← hok, setEntry_physPageWasFreed, setEntry_count_self,
      refBits_withRefBits]
    refine if_congr ?_ rfl rfl
    simp only [count, refBits, pageFree] at *
    omega

theorem physForceFreePage_ok {s s' : Mm} {i : ℕ}
    (hok : physForceFreePage i s = .ok s') :
    i ≤ s.ppages ∧
      ((s.count i = pageFree ∧ s' = s.setEntry i pageFree) ∨
       (s.count i ≠ pageFree ∧ ∃ w,
        w = (if s.count i = pageWired then dec64 s.wiredPages
          else s.wiredPages) ∧
        s' = ((s.physPageWasFreed (s.pageAddr i)).setEntry i
          pageFree).setWiredPages w)) := by
  simp only [physForceFreePage, Outcome.bind_eq_ok, panicIf_eq_ok,
    Outcome.pure_eq_ok] at hok
  obtain ⟨-, hle, hok⟩ := hok
  refine ⟨Nat.le_of_not_lt hle, ?_⟩
  by_cases hfree : s.count i = pageFree
  · left
    have hwired : s.count i ≠ pageWired := by rw [hfree]; decide
    simp only [hfree, ne_eq, not_true_eq_false, if_false] at hok
    exact ⟨hfree, by rw [← hok, if_neg (by decide)]⟩
  · right
    refine ⟨hfree, _, rfl, ?_⟩
    rw [← hok, if_pos hfree]
    by_cases hwired : s.count i = pageWired
    · rw [if_pos hwired, if_pos hwired, setWiredPages_physPageWasFreed,
        setWiredPages_setEntry]
    · rw [if_neg hwired, if_neg hwired, ← setWiredPages_setEntry,
        ← setWiredPages_physPageWasFreed]
      rfl

theorem markPhysWiredPage_ok {s s' : Mm} {i : ℕ}
    (hok : markPhysWiredPage i s = .ok s') :
    i ≤ s.ppages ∧
      (∃ entry, s.physGetEntry (s.pageAddr i) = .ok entry ∧
        refBits entry = pageFree) ∧
      s' = ((s.setEntry i (withRefBits (s.ppageList i)
        pageWired)).setFreePages (dec64 s.freePages)).setWiredPages
          (inc64 s.wiredPages) := by
  simp only [markPhysWiredPage, Outcome.bind_eq_ok, panicIf_eq_ok,
    Outcome.pure_eq_ok, not_not] at hok
  obtain ⟨entry, hentry, -, hfree, -, hle, hok⟩ := hok
  exact ⟨Nat.le_of_not_lt hle, ⟨entry, hentry, hfree⟩, hok.symm⟩

/-! ## What no call changes -/

/-- The parts of the state that no allocator call after `alloc_init`
touches. -/
structure SameLayout (s s' : Mm) : Prop where
  boot : s'.boot = s.boot
  ppages : s'.ppages = s.ppages
  is16k : s'.is16k = s.is16k
  allocStaticBase : s'.allocStaticBase = s.allocStaticBase
  ttbFreelist : s'.ttbFreelist = s.ttbFreelist

namespace SameLayout

variable {s s₁ s₂ : Mm}

theorem refl (s : Mm) : SameLayout s s := ⟨rfl, rfl, rfl, rfl, rfl⟩

theorem trans (h : SameLayout s s₁) (h' : SameLayout s₁ s₂) :
    SameLayout s s₂ :=
  ⟨h'.boot.trans h.boot, h'.ppages.trans h.ppages, h'.is16k.trans h.is16k,
    h'.allocStaticBase.trans h.allocStaticBase,
    h'.ttbFreelist.trans h.ttbFreelist⟩

theorem pageAddr (h : SameLayout s s₁) (i : ℕ) :
    s₁.pageAddr i = s.pageAddr i := by
  simp [Mm.pageAddr, h.boot]

theorem bzero (s : Mm) (addr len : ℕ) : SameLayout s (s.bzero addr len) :=
  ⟨rfl, rfl, rfl, rfl, rfl⟩

theorem physPageWasFreed (s : Mm) (pa i entry : ℕ) :
    SameLayout s ((s.physPageWasFreed pa).setEntry i entry) := by
  refine ⟨?_, ?_, ?_, ?_, ?_⟩ <;> simp [setEntry]

theorem physReferencePage {i : ℕ} (hok : physReferencePage i s = .ok s₁) :
    SameLayout s s₁ := by
  obtain ⟨-, ⟨-, rfl⟩ | ⟨-, -, rfl⟩ | ⟨-, rfl⟩⟩ := physReferencePage_ok hok
  · exact refl s₁
  · exact ⟨rfl, rfl, rfl, rfl, rfl⟩
  · exact ⟨rfl, rfl, rfl, rfl, rfl⟩

theorem physDereferencePage {i : ℕ}
    (hok : physDereferencePage i s = .ok s₁) : SameLayout s s₁ := by
  obtain ⟨-, -, entry, -, rfl⟩ := physDereferencePage_ok hok
  split
  · exact physPageWasFreed s _ _ _
  · exact ⟨rfl, rfl, rfl, rfl, rfl⟩

theorem physForceFreePage {i : ℕ} (hok : physForceFreePage i s = .ok s₁) :
    SameLayout s s₁ := by
  obtain ⟨-, ⟨-, rfl⟩ | ⟨-, w, -, rfl⟩⟩ := physForceFreePage_ok hok
  · exact ⟨rfl, rfl, rfl, rfl, rfl⟩
  · have h := physPageWasFreed s (s.pageAddr i) i pageFree
    exact ⟨h.boot, h.ppages, h.is16k, h.allocStaticBase, h.ttbFreelist⟩

theorem markPhysWiredPage {i : ℕ} (hok : markPhysWiredPage i s = .ok s₁) :
    SameLayout s s₁ := by
  obtain ⟨-, -, rfl⟩ := markPhysWiredPage_ok hok
  exact ⟨rfl, rfl, rfl, rfl, rfl⟩

theorem physUnlinkPage {i : ℕ} (hok : physUnlinkPage i s = .ok s₁) :
    SameLayout s s₁ := by
  rw [physUnlinkPage_ok hok, unlinkNode_shape]
  exact ⟨rfl, rfl, rfl, rfl, rfl⟩

theorem forRange {body : ℕ → Mm → Outcome Mm} {i n : ℕ}
    (hbody : ∀ j a b, body j a = .ok b → SameLayout a b)
    (hok : Outcome.forRange body i n s = .ok s₁) : SameLayout s s₁ :=
  Outcome.forRange_preserves (P := fun a => SameLayout s a)
    (fun j a b _ _ ha hab => ha.trans (hbody j a b hab)) (refl s) hok

theorem physReference {pa size : ℕ}
    (hok : physReference pa size s = .ok s₁) : SameLayout s s₁ := by
  unfold Mm.physReference at hok
  split at hok
  · cases hok; exact refl s
  split at hok
  · cases hok; exact refl s
  · simp only [Outcome.bind_eq_ok] at hok
    obtain ⟨-, -, hok⟩ := hok
    exact forRange (fun _ _ _ => physReferencePage) hok

theorem physDereference {pa size : ℕ}
    (hok : physDereference pa size s = .ok s₁) : SameLayout s s₁ := by
  unfold Mm.physDereference at hok
  split at hok
  · cases hok; exact refl s
  split at hok
  · cases hok; exact refl s
  · simp only [Outcome.bind_eq_ok] at hok
    obtain ⟨-, -, hok⟩ := hok
    exact forRange (fun _ _ _ => physDereferencePage) hok

theorem physUnlinkContiguous {pa size : ℕ}
    (hok : physUnlinkContiguous pa size s = .ok s₁) : SameLayout s s₁ := by
  unfold Mm.physUnlinkContiguous at hok
  split at hok
  · cases hok; exact refl s
  split at hok
  · cases hok; exact refl s
  · simp only [Outcome.bind_eq_ok] at hok
    obtain ⟨-, -, hok⟩ := hok
    exact forRange (fun _ _ _ => physUnlinkPage) hok

theorem physForceFree {pa size : ℕ}
    (hok : physForceFree pa size s = .ok s₁) : SameLayout s s₁ := by
  simp only [Mm.physForceFree, Outcome.bind_eq_ok] at hok
  obtain ⟨-, -, hok⟩ := hok
  exact forRange (fun _ _ _ => physForceFreePage) hok

theorem markPhysWired {pa size : ℕ}
    (hok : markPhysWired pa size s = .ok s₁) : SameLayout s s₁ := by
  simp only [Mm.markPhysWired, Outcome.bind_eq_ok] at hok
  obtain ⟨-, -, hok⟩ := hok
  exact forRange (fun _ _ _ => markPhysWiredPage) hok

end SameLayout

/-! ## The invariant across one turn -/

namespace FreeListSans

variable {s s' : Mm} {l : List ℕ} {X : Finset ℕ} {i : ℕ}

theorem physReferencePage_busy (h : FreeListSans s l X)
    (hbusy : s.count i ≠ pageFree)
    (hok : physReferencePage i s = .ok s') : FreeListSans s' l X := by
  obtain ⟨-, ⟨-, rfl⟩ | ⟨hwired, -, rfl⟩ | ⟨hfree, -⟩⟩ :=
    physReferencePage_ok hok
  · exact h
  · refine h.setEntry_busy (Or.inl hbusy) (Or.inl ?_)
    rw [refBits_withRefBits]
    simp only [count, refBits, pageFree, pageWired] at *
    omega
  · exact absurd hfree hbusy

theorem physReferencePage_taken (h : FreeListSans s l X) (hi : i ∈ X)
    (hok : physReferencePage i s = .ok s') :
    FreeListSans s' l (X.erase i) := by
  have hfree := (h.sansFree i hi).2
  obtain ⟨-, ⟨hwired, -⟩ | ⟨-, hbusy, -⟩ | ⟨-, rfl⟩⟩ :=
    physReferencePage_ok hok
  · rw [hfree] at hwired
    exact absurd hwired (by decide)
  · exact absurd hfree hbusy
  · have hpos : 0 < s.freePages := by
      rw [h.total]
      exact Nat.add_pos_right _ (Finset.card_pos.mpr ⟨i, hi⟩)
    have hlt : s.freePages < 2 ^ 64 := by
      have := h.freePages_le
      have := h.ppages_lt
      omega
    rw [dec64_of_pos hpos hlt]
    refine h.setEntry_taken hi ?_
    rw [refBits_withRefBits]
    simp only [count, refBits, pageFree] at *
    omega

theorem physDereferencePage (h : FreeListSans s l X) (hi : i < s.ppages)
    (hok : physDereferencePage i s = .ok s') :
    ∃ l', FreeListSans s' l' X := by
  obtain ⟨-, hbusy, entry, hentry, rfl⟩ := physDereferencePage_ok hok
  by_cases hlast : s.count i = 1
  · rw [if_pos hlast]
    exact ⟨_, h.pushFreed hi hbusy (by rw [hentry, hlast]; rfl)⟩
  · rw [if_neg hlast]
    refine ⟨l, h.setEntry_busy (Or.inl hbusy) (Or.inl ?_)⟩
    simp only [hentry, pageFree] at *
    omega

/-- Freeing a page that is free changes nothing. -/
theorem setEntry_free (h : FreeListSans s l X) (hfree : s.count i = pageFree) :
    FreeListSans (s.setEntry i pageFree) l X := by
  refine ⟨h.chain, h.nodup, ?_, ?_, h.total, h.sized⟩
  · intro pa
    rw [h.mem_iff]
    refine exists_congr fun j => ?_
    by_cases hji : j = i
    · subst hji
      simp [hfree]
    · simp [setEntry_count_of_ne _ _ _ hji]
  · intro j hj
    obtain ⟨hlt, hjfree⟩ := h.sansFree j hj
    refine ⟨hlt, ?_⟩
    by_cases hji : j = i
    · subst hji
      exact setEntry_count_self _ _ _
    · rw [setEntry_count_of_ne _ _ _ hji, hjfree]

theorem physForceFreePage (h : FreeListSans s l X) (hi : i < s.ppages)
    (hok : physForceFreePage i s = .ok s') :
    ∃ l', FreeListSans s' l' X := by
  obtain ⟨-, ⟨hfree, rfl⟩ | ⟨hbusy, w, -, rfl⟩⟩ := physForceFreePage_ok hok
  · exact ⟨l, h.setEntry_free hfree⟩
  · have hpush := h.pushFreed hi hbusy
      (rfl : refBits pageFree = pageFree)
    exact ⟨_, hpush.chain, hpush.nodup, hpush.mem_iff, hpush.sansFree,
      hpush.total, hpush.sized⟩

/-- Memory outside the free pages may change. -/
theorem congr_mem (h : FreeListSans s l X) {m : ℕ → ℕ}
    (hnext : ∀ i, i < s.ppages → i ∉ X → s.count i = pageFree →
      m (s.pageAddr i) = s.mem (s.pageAddr i))
    (hprev : ∀ i, i < s.ppages → i ∉ X → s.count i = pageFree →
      m (s.pageAddr i + 8) = s.mem (s.pageAddr i + 8)) :
    FreeListSans { s with mem := m } l X := by
  refine ⟨h.chain.congr ?_ ?_, h.nodup, h.mem_iff, h.sansFree, h.total,
    h.sized⟩
  · intro y hy
    obtain ⟨j, hj, hjX, hfree, rfl⟩ := h.exists_page hy
    exact hnext j hj hjX hfree
  · intro y hy
    obtain ⟨j, hj, hjX, hfree, rfl⟩ := h.exists_page hy
    exact hprev j hj hjX hfree

end FreeListSans

/-! ## The invariant across one call -/

/-- The call reaches index `ppages`, one past the last counter. -/
def ReachesEnd (s : Mm) (pa size : ℕ) : Prop :=
  s.boot.physBase ≤ pa ∧
    (pa - s.boot.physBase) / pageSize ≤ s.ppages ∧
    s.ppages < (pa - s.boot.physBase) / pageSize + size / pageSize

/-- The whole pages of `[pa, pa + size)` are pages of RAM. -/
def InRam (s : Mm) (pa size : ℕ) : Prop :=
  size / pageSize = 0 ∨ s.boot.physBase ≤ pa ∧ pa < 2 ^ 64 ∧
    (pa - s.boot.physBase) / pageSize + size / pageSize ≤ s.ppages

/-- A call on RAM addresses is its loop. -/
theorem physReference_iff {s s' : Mm} {pa size : ℕ} (hpa : pa ≠ 0)
    (hram : s.boot.physBase ≤ pa) :
    physReference pa size s = .ok s' ↔
      (pa - s.boot.physBase) % pageSize = 0 ∧
        Outcome.forRange physReferencePage
          ((pa - s.boot.physBase) / pageSize) (size / pageSize) s
            = .ok s' := by
  unfold physReference
  rw [if_neg hpa, if_neg (Nat.not_lt.mpr hram)]
  simp

theorem physDereference_iff {s s' : Mm} {pa size : ℕ} (hpa : pa ≠ 0)
    (hram : s.boot.physBase ≤ pa) :
    physDereference pa size s = .ok s' ↔
      (pa - s.boot.physBase) % pageSize = 0 ∧
        Outcome.forRange physDereferencePage
          ((pa - s.boot.physBase) / pageSize) (size / pageSize) s
            = .ok s' := by
  unfold physDereference
  rw [if_neg hpa, if_neg (Nat.not_lt.mpr hram)]
  simp

theorem physReference_ignored {s : Mm} {pa size : ℕ}
    (h : pa = 0 ∨ pa < s.boot.physBase) :
    physReference pa size s = .ok s := by
  unfold physReference
  rcases h with rfl | h
  · rfl
  · rw [if_pos h, ite_self]

theorem physDereference_ignored {s : Mm} {pa size : ℕ}
    (h : pa = 0 ∨ pa < s.boot.physBase) :
    physDereference pa size s = .ok s := by
  unfold physDereference
  rcases h with rfl | h
  · rfl
  · rw [if_pos h, ite_self]

/-- A loop that goes past a refused index does not return. -/
theorem forRange_index_le {body : ℕ → Mm → Outcome Mm} {i n : ℕ}
    {s s' : Mm} (hle : ∀ j a b, body j a = .ok b → j ≤ a.ppages)
    (hlayout : ∀ j a b, body j a = .ok b → SameLayout a b)
    (hok : Outcome.forRange body i n s = .ok s') :
    n = 0 ∨ i + n ≤ s.ppages + 1 := by
  have hlast := Outcome.forRange_invariant
    (P := fun j a => a.ppages = s.ppages ∧ (j = i ∨ j ≤ s.ppages + 1))
    (fun j a b _ _ ha hab => by
      have hj := hle j a b hab
      exact ⟨(hlayout j a b hab).ppages.trans ha.1,
        Or.inr (by rw [ha.1] at hj; omega)⟩)
    ⟨rfl, Or.inl rfl⟩ hok
  rcases hlast.2 with h | h
  · exact Or.inl (by omega)
  · exact Or.inr h

namespace FreeListSans

variable {s s' : Mm} {l : List ℕ} {X : Finset ℕ} {pa size : ℕ}

theorem physDereference (h : FreeListSans s l X)
    (hend : ¬ s.ReachesEnd pa size)
    (hok : physDereference pa size s = .ok s') :
    ∃ l', FreeListSans s' l' X := by
  by_cases hignored : pa = 0 ∨ pa < s.boot.physBase
  · rw [physDereference_ignored hignored] at hok
    cases hok
    exact ⟨l, h⟩
  · push Not at hignored
    obtain ⟨hpa, hram⟩ := hignored
    obtain ⟨-, hloop⟩ := (physDereference_iff hpa hram).mp hok
    have hbound := forRange_index_le
      (fun j a b hab => (physDereferencePage_ok hab).1)
      (fun _ _ _ => SameLayout.physDereferencePage) hloop
    have hrange : size / pageSize = 0 ∨
        (pa - s.boot.physBase) / pageSize + size / pageSize ≤ s.ppages := by
      rcases hbound with hzero | hle
      · exact Or.inl hzero
      · by_contra hnot
        push Not at hnot
        obtain ⟨hpos, hgt⟩ := hnot
        have hone : 1 ≤ size / pageSize := Nat.one_le_iff_ne_zero.mpr hpos
        exact hend ⟨hram, by omega, hgt⟩
    exact (Outcome.forRange_preserves
      (P := fun a => a.ppages = s.ppages ∧ ∃ l', FreeListSans a l' X)
      (fun j a b _ hj ha hab => by
        obtain ⟨hpp, l₁, hl₁⟩ := ha
        refine ⟨(SameLayout.physDereferencePage hab).ppages.trans hpp, ?_⟩
        exact hl₁.physDereferencePage (by omega) hab)
      ⟨rfl, l, h⟩ hloop).2

theorem physForceFree (h : FreeListSans s l X) (hram : s.InRam pa size)
    (hok : physForceFree pa size s = .ok s') :
    ∃ l', FreeListSans s' l' X := by
  simp only [Mm.physForceFree, Outcome.bind_eq_ok] at hok
  obtain ⟨-, -, hloop⟩ := hok
  have hrange : size / pageSize = 0 ∨
      sub64 pa s.boot.physBase / pageSize + size / pageSize ≤ s.ppages := by
    rcases hram with hzero | ⟨hbase, hlt, hle⟩
    · exact Or.inl hzero
    · rw [sub64_of_le hbase hlt]
      exact Or.inr hle
  exact (Outcome.forRange_preserves
    (P := fun a => a.ppages = s.ppages ∧ ∃ l', FreeListSans a l' X)
    (fun j a b _ hj ha hab => by
      obtain ⟨hpp, l₁, hl₁⟩ := ha
      refine ⟨(SameLayout.physForceFreePage hab).ppages.trans hpp, ?_⟩
      exact hl₁.physForceFreePage (by omega) hab)
    ⟨rfl, l, h⟩ hloop).2

end FreeListSans

end Mm

end PongoOS
