import PongoOS.Mm.VmSpace
import PongoOS.Support.RefForest

/-!
# Reference counts of address spaces

An address space holds its parent.  `vm_create`, `vm_reference` and `vm_release`
keep the count of every space but `kernel_vm_space` equal to the number of its
children and of the references from elsewhere, and a space is freed with the
last of them.
-/

namespace PongoOS

open Holders RefForest

namespace Vm

/-- The spaces `L` with their counts and parents. -/
def forest (L : Finset ℕ) (s : Vm) : Forest ℕ where
  nodes := L
  count a := (s.space a).refcount
  parent a := (s.space a).parent

/-- The spaces `L` count their children in `L` and the references `ext`. -/
structure Refs (ext : ℕ → ℕ) (L : Finset ℕ) (s : Vm) : Prop where
  counts : Counts 0 kernel refcountGlobal ext (s.forest L)
  static : (s.space kernel).refcount = refcountGlobal

/-- Another reference to `a` does not make its count that of a static space. -/
def Referable (a : ℕ) (s : Vm) : Prop :=
  a ≠ 0 → a ≠ kernel → (s.space a).refcount + 1 ≠ refcountGlobal

instance (a : ℕ) (s : Vm) : Decidable (s.Referable a) :=
  inferInstanceAs (Decidable (a ≠ 0 → a ≠ kernel →
    (s.space a).refcount + 1 ≠ refcountGlobal))

section Refs

variable {s s' : Vm} {ext ext' : ℕ → ℕ} {L : Finset ℕ} {a p n : ℕ}

theorem Refs.congr (h : s.Refs ext L)
    (heq : ∀ a, a ≠ 0 → a ≠ kernel → ext' a = ext a) : s.Refs ext' L :=
  ⟨h.counts.congr heq, h.static⟩

theorem Refs.bump_static (h : s.Refs ext L) (ha : a = 0 ∨ a = kernel) :
    s.Refs (bump ext a) L := by
  apply h.congr
  intro b h0 hkernel
  apply bump_of_ne
  rintro rfl
  exact ha.elim h0 hkernel

theorem Refs.of_bump_static (h : s.Refs (bump ext a) L)
    (ha : a = 0 ∨ a = kernel) : s.Refs ext L := by
  apply h.congr
  intro b h0 hkernel
  symm
  apply bump_of_ne
  rintro rfl
  exact ha.elim h0 hkernel

theorem Refs.of_space (h : s.Refs ext L) (hspace : s'.space = s.space) :
    s'.Refs ext L := by
  have hforest : s'.forest L = s.forest L := by
    unfold forest
    rw [hspace]
  refine ⟨hforest ▸ h.counts, ?_⟩
  rw [hspace]
  exact h.static

theorem setRefcount_forest :
    (s.setRefcount a n).forest L = (s.forest L).setCount a n := by
  unfold forest Forest.setCount setRefcount
  congr 1 <;>
    · funext b
      by_cases hb : b = a <;> simp [hb]

theorem Refs.heap (h : s.Refs ext L) (ha : a ∈ L) (hkernel : a ≠ kernel) :
    0 < (s.space a).refcount ∧ (s.space a).refcount < refcountGlobal :=
  (h.counts.count a ha hkernel).2

theorem setRefcount_static (h : s.Refs ext L) (hkernel : a ≠ kernel) :
    ((s.setRefcount a n).space kernel).refcount = refcountGlobal := by
  unfold setRefcount
  rw [setSpace_space, Function.update_of_ne (Ne.symm hkernel)]
  exact h.static

/-! ## References -/

theorem vmReference_live (a : ℕ) : (s.vmReference a).live = s.live := by
  unfold vmReference
  split_ifs <;> rfl

theorem vmReference_refs (h : s.Refs ext L) (ha : a = 0 ∨ a ∈ L)
    (href : s.Referable a) : (s.vmReference a).Refs (bump ext a) L := by
  unfold vmReference
  by_cases h0 : a = 0
  · rw [if_pos h0]
    exact h.bump_static (Or.inl h0)
  rw [if_neg h0]
  by_cases hkernel : a = kernel
  · subst hkernel
    rw [if_pos h.static]
    exact h.bump_static (Or.inr rfl)
  have hmem := ha.resolve_left h0
  obtain ⟨hpos, hlt⟩ := h.heap hmem hkernel
  rw [if_neg hlt.ne]
  refine ⟨?_, setRefcount_static h hkernel⟩
  have hmod : ((s.space a).refcount + 1) % 2 ^ 32 =
      (s.space a).refcount + 1 := by
    unfold refcountGlobal at hlt
    omega
  rw [hmod, setRefcount_forest]
  exact h.counts.take hmem hkernel (href h0 hkernel)

theorem asidAlloc_frame {asid : ℕ} (hok : s.asidAlloc = .ok (asid, s')) :
    s'.space = s.space ∧ s'.live = s.live := by
  unfold asidAlloc at hok
  split at hok
  · cases hok
    exact ⟨rfl, rfl⟩
  · cases hok

theorem asidFree_frame {asid : ℕ} (hok : s.asidFree asid = .ok s') :
    s'.space = s.space ∧ s'.live = s.live := by
  simp only [asidFree, Outcome.bind_eq_ok, Outcome.pure_eq_ok] at hok
  obtain ⟨-, -, rfl⟩ := hok
  exact ⟨rfl, rfl⟩

/-- The new space has one reference, and takes one to its parent. -/
theorem vmCreate_refs (h : s.Refs ext s.live) (h0 : a ≠ 0) (ha : a ∉ s.live)
    (hp : p = 0 ∨ p ∈ s.live) (href : s.Referable p)
    (hok : s.vmCreate p a = .ok s') :
    s'.live = insert a s.live ∧ s'.Refs (bump ext a) s'.live := by
  simp only [vmCreate, Outcome.bind_eq_ok, Prod.exists,
    Outcome.pure_eq_ok] at hok
  obtain ⟨ttbr1, mm, -, asid, s₁, hasid, rfl⟩ := hok
  obtain ⟨hspace, hlive⟩ := asidAlloc_frame hasid
  have href₁ : s₁.Referable p := by
    unfold Referable
    rw [hspace]
    exact href
  have h₂ := vmReference_refs (h.of_space hspace) hp href₁
  generalize hs₂ : s₁.vmReference p = s₂ at h₂
  have hlive₂ : s₂.live = s.live := by
    rw [← hs₂, vmReference_live]
    exact hlive
  have hnew : a ≠ kernel := by
    rintro rfl
    exact ha h.counts.root
  rw [setSpace_live, setLive_live, hlive₂]
  refine ⟨rfl, ?_, ?_⟩
  · have hforest : ∀ v : VmSpace, v.refcount = 1 → v.parent = p →
        ((s₂.setLive (insert a s.live)).setSpace a v).forest
          (insert a s.live) = (s₂.forest s.live).insert a p := by
      intro v hone hparent
      unfold forest Forest.insert
      congr 1 <;>
        · funext b
          by_cases hb : b = a <;> simp [hb, hone, hparent]
    rw [hforest _ rfl rfl]
    exact h₂.counts.insert h0 ha (by decide)
  · rw [setSpace_space, Function.update_of_ne (Ne.symm hnew), setLive_space]
    exact h₂.static

/-! ## Releases -/

/-- `vm_release` returns a reference, and frees the spaces `F` that have no
other one. -/
theorem vmRelease_refs {fuel : ℕ} (h : s.Refs (bump ext a) L)
    (hok : s.vmRelease fuel a = .ok s') :
    ∃ F, s'.live = s.live \ F ∧ s'.Refs ext (L \ F) := by
  induction fuel generalizing s s' a L with
  | zero => cases hok
  | succ fuel ih =>
      rw [vmRelease] at hok
      by_cases h0 : a = 0
      · rw [if_pos h0] at hok
        cases hok
        refine ⟨∅, Finset.sdiff_empty.symm, ?_⟩
        rw [Finset.sdiff_empty]
        exact h.of_bump_static (Or.inl h0)
      rw [if_neg h0] at hok
      by_cases hkernel : a = kernel
      · rw [hkernel, if_pos h.static] at hok
        cases hok
        refine ⟨∅, Finset.sdiff_empty.symm, ?_⟩
        rw [Finset.sdiff_empty]
        exact h.of_bump_static (Or.inr hkernel)
      obtain ⟨hpos, hlt⟩ := h.heap (h.counts.mem h0) hkernel
      rw [if_neg hlt.ne] at hok
      have hpred : ((s.space a).refcount + 0xffffffff) % 2 ^ 32 =
          (s.space a).refcount - 1 := by
        unfold refcountGlobal at hlt
        omega
      dsimp only at hok
      rw [hpred] at hok
      by_cases hone : (s.space a).refcount = 1
      · simp only [if_pos hone, Outcome.bind_eq_ok, Outcome.pure_eq_ok] at hok
        obtain ⟨-, -, s₂, hparent, mm, -, s₃, hasid, rfl⟩ := hok
        obtain ⟨hspace, hlive⟩ := asidFree_frame hasid
        have herase := h.counts.erase h0 hkernel hone
          ((s.space a).refcount - 1)
        rw [← setRefcount_forest] at herase
        have hself : ((s.setRefcount a ((s.space a).refcount - 1)).space
            a).parent = (s.space a).parent := by
          simp [setRefcount]
        rw [hself] at hparent
        have h₁ : (s.setRefcount a ((s.space a).refcount - 1)).Refs
            (bump ext (s.space a).parent) (L.erase a) :=
          ⟨herase, setRefcount_static h hkernel⟩
        obtain ⟨F, hlive₂, h₂⟩ := ih h₁ hparent
        refine ⟨insert a F, ?_, ?_⟩
        · rw [setLive_live, hlive, setMm_live, hlive₂, Finset.sdiff_insert]
          rfl
        · rw [Finset.sdiff_insert, ← Finset.erase_sdiff_comm]
          exact h₂.of_space hspace
      · simp only [if_neg hone, Outcome.pure_eq_ok] at hok
        obtain rfl := hok
        refine ⟨∅, Finset.sdiff_empty.symm, ?_⟩
        rw [Finset.sdiff_empty]
        refine ⟨?_, setRefcount_static h hkernel⟩
        rw [setRefcount_forest]
        exact h.counts.drop hone

/-! ## Mappings -/

theorem vmSpaceMapPagePhysicalProt_frame {vaddr physical : ℕ} {prot : Prot}
    (hok : s.vmSpaceMapPagePhysicalProt a vaddr physical prot = .ok s') :
    s'.space = s.space ∧ s'.live = s.live := by
  by_cases htt1 : vaddr / 2 ^ 60 % 8 ≠ 0
  · simp only [vmSpaceMapPagePhysicalProt, if_pos htt1, Outcome.bind_eq_ok,
      Outcome.pure_eq_ok] at hok
    obtain ⟨-, -, mm, -, mm', -, rfl⟩ := hok
    exact ⟨rfl, rfl⟩
  · simp only [vmSpaceMapPagePhysicalProt, if_neg htt1, Outcome.bind_eq_ok,
      Outcome.pure_eq_ok] at hok
    obtain ⟨mm, -, rfl⟩ := hok
    exact ⟨rfl, rfl⟩

theorem setTableBit_forest {i : ℕ} {b : Bool} :
    (s.setTableBit a i b).forest L = s.forest L := by
  unfold forest setTableBit
  congr 1 <;>
    · funext c
      by_cases hc : c = a <;> simp [hc]

theorem setTableBit_refs {i : ℕ} {b : Bool} (h : s.Refs ext L) :
    (s.setTableBit a i b).Refs ext L := by
  constructor
  · rw [setTableBit_forest]
    exact h.counts
  · have hforest := setTableBit_forest (s := s) (L := L) (a := a) (i := i)
      (b := b)
    have hcount := congrArg (fun f => f.count kernel) hforest
    exact hcount.trans h.static

/-- Giving a range back changes no count. -/
theorem vmDeallocate_refs {addr size : ℕ} {r : KernResult}
    (h : s.Refs ext L) (hok : s.vmDeallocate a addr size = .ok (r, s')) :
    s'.live = s.live ∧ s'.Refs ext L := by
  unfold vmDeallocate at hok
  dsimp only at hok
  split_ifs at hok
  · cases hok
    exact ⟨rfl, h⟩
  · simp only [Outcome.bind_eq_ok, Outcome.pure_eq_ok, Prod.mk.injEq] at hok
    obtain ⟨s₁, hrange, -, rfl⟩ := hok
    refine Outcome.forRange_preserves
      (P := fun k => k.live = s.live ∧ k.Refs ext L) ?_ ⟨rfl, h⟩ hrange
    intro i k k' _ _ hk hpage
    simp only [vmDeallocatePage, Outcome.bind_eq_ok,
      Outcome.pure_eq_ok] at hpage
    obtain ⟨k₁, hmap, rfl⟩ := hpage
    obtain ⟨hspace, hlive⟩ := vmSpaceMapPagePhysicalProt_frame hmap
    exact ⟨hlive.trans hk.1, setTableBit_refs (hk.2.of_space hspace)⟩
  · cases hok
    exact ⟨rfl, h⟩

end Refs

end Vm

end PongoOS
