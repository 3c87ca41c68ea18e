import Mathlib.Data.Finset.Card
import Mathlib.Logic.Function.Basic
import Mathlib.Tactic.Common

/-!
# Counting holders

Every `i` of a finite set holds one reference, to `f i`.  `holders S f a` is the
number of references to `a`.  It changes by one when a holder comes or goes.
-/

namespace Holders

variable {ι α : Type*} [DecidableEq α] {S : Finset ι} {f g : ι → α} {i : ι}
  {a b : α}

def holders (S : Finset ι) (f : ι → α) (a : α) : ℕ :=
  (S.filter fun i => f i = a).card

theorem holders_congr (h : ∀ i ∈ S, f i = g i) :
    holders S f a = holders S g a := by
  unfold holders
  congr 1
  apply Finset.filter_congr
  intro i hi
  rw [h i hi]

theorem holders_pos (hi : i ∈ S) (ha : f i = a) : 0 < holders S f a := by
  apply Finset.card_pos.mpr
  exact ⟨i, Finset.mem_filter.mpr ⟨hi, ha⟩⟩

theorem ne_of_holders_eq_zero (h : holders S f a = 0) (hi : i ∈ S) :
    f i ≠ a := by
  intro ha
  exact absurd h (holders_pos hi ha).ne'

theorem holders_eq_zero (h : ∀ i ∈ S, f i ≠ a) : holders S f a = 0 := by
  by_contra hne
  obtain ⟨i, hi⟩ := Finset.card_pos.mp (Nat.pos_of_ne_zero hne)
  obtain ⟨hmem, ha⟩ := Finset.mem_filter.mp hi
  exact h i hmem ha

variable [DecidableEq ι]

theorem holders_insert (hi : i ∉ S) :
    holders (insert i S) f a = holders S f a + if f i = a then 1 else 0 := by
  unfold holders
  rw [Finset.filter_insert]
  split_ifs with ha
  · rw [Finset.card_insert_of_notMem]
    intro hmem
    exact hi (Finset.mem_of_mem_filter i hmem)
  · rfl

theorem holders_erase (hi : i ∈ S) :
    holders (S.erase i) f a + (if f i = a then 1 else 0) = holders S f a := by
  have hinsert := holders_insert (f := f) (a := a) (Finset.notMem_erase i S)
  rw [Finset.insert_erase hi] at hinsert
  exact hinsert.symm

theorem holders_update (hi : i ∈ S) :
    holders S (Function.update f i b) a + (if f i = a then 1 else 0) =
      holders S f a + if b = a then 1 else 0 := by
  have hsame : holders (S.erase i) (Function.update f i b) a =
      holders (S.erase i) f a := by
    apply holders_congr
    intro j hj
    exact Function.update_of_ne (Finset.ne_of_mem_erase hj) b f
  have hnew := holders_erase (f := Function.update f i b) (a := a) hi
  have hold := holders_erase (f := f) (a := a) hi
  rw [Function.update_self] at hnew
  omega

end Holders
