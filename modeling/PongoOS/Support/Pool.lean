import Mathlib.Data.Finset.Card
import Mathlib.Data.Set.Function
import Mathlib.Logic.Function.Basic

/-!
# Identifiers that are taken and given back

Each owner has one identifier, and no two owners have the same.  `used` marks
those that an owner has.
-/

namespace Pool

variable {ι α : Type*} {used : ι → Bool} {owners : Finset α} {f g : α → ι}
  {a : α} {i : ι}

structure Owned (used : ι → Bool) (owners : Finset α) (f : α → ι) : Prop where
  used_iff : ∀ i, used i = true ↔ ∃ a ∈ owners, f a = i
  injOn : Set.InjOn f owners

namespace Owned

theorem used_of_mem (h : Owned used owners f) (ha : a ∈ owners) : used (f a) = true :=
  (h.used_iff (f a)).mpr ⟨a, ha, rfl⟩

theorem congr (h : Owned used owners f) (hf : ∀ a ∈ owners, g a = f a) :
    Owned used owners g where
  used_iff i := by
    rw [h.used_iff]
    exact exists_congr fun a => and_congr_right fun ha => by rw [hf a ha]
  injOn a ha b hb hab := h.injOn ha hb (by rwa [← hf a ha, ← hf b hb])

/-- A new owner takes an identifier that is free. -/
theorem take [DecidableEq ι] [DecidableEq α] (h : Owned used owners f)
    (ha : a ∉ owners) (hfree : used i = false) (hf : ∀ b ∈ owners, g b = f b)
    (hself : g a = i) :
    Owned (Function.update used i true) (insert a owners) g := by
  have hnone : ∀ b ∈ owners, f b ≠ i := by
    rintro b hb rfl
    exact Bool.false_ne_true (hfree.symm.trans (h.used_of_mem hb))
  constructor
  · intro j
    rw [Finset.exists_mem_insert, hself]
    by_cases hj : j = i
    · subst hj
      simp
    · rw [Function.update_of_ne hj, h.used_iff]
      constructor
      · rintro ⟨b, hb, hfb⟩
        exact .inr ⟨b, hb, (hf b hb).trans hfb⟩
      · rintro (hij | ⟨b, hb, hgb⟩)
        · exact absurd hij.symm hj
        · exact ⟨b, hb, (hf b hb).symm.trans hgb⟩
  · rw [Finset.coe_insert, Set.injOn_insert (by exact_mod_cast ha)]
    refine ⟨(h.congr hf).injOn, ?_⟩
    rintro ⟨b, hb, hgb⟩
    exact hnone b hb ((hf b hb).symm.trans (hgb.trans hself))

/-- An owner goes, and its identifier is free. -/
theorem giveBack [DecidableEq ι] [DecidableEq α] (h : Owned used owners f)
    (ha : a ∈ owners) :
    Owned (Function.update used (f a) false) (owners.erase a) f where
  used_iff j := by
    by_cases hj : j = f a
    · subst hj
      rw [Function.update_self]
      refine iff_of_false Bool.false_ne_true ?_
      rintro ⟨b, hb, hfb⟩
      obtain ⟨hne, hmem⟩ := Finset.mem_erase.mp hb
      exact hne (h.injOn hmem ha hfb)
    · rw [Function.update_of_ne hj, h.used_iff]
      constructor
      · rintro ⟨b, hb, rfl⟩
        refine ⟨b, Finset.mem_erase.mpr ⟨?_, hb⟩, rfl⟩
        rintro rfl
        exact hj rfl
      · rintro ⟨b, hb, rfl⟩
        exact ⟨b, Finset.mem_of_mem_erase hb, rfl⟩
  injOn := h.injOn.mono (by exact_mod_cast Finset.erase_subset a owners)

/-- All of `n` identifiers are in use exactly if there are `n` owners. -/
theorem all_used_iff {used : ℕ → Bool} {f : α → ℕ} {n : ℕ}
    (h : Owned used owners f) (hlt : ∀ a ∈ owners, f a < n) :
    (∀ i < n, used i = true) ↔ owners.card = n := by
  have hcard : (owners.image f).card = owners.card :=
    Finset.card_image_of_injOn h.injOn
  have hsub : owners.image f ⊆ Finset.range n := by
    intro i hi
    obtain ⟨a, ha, rfl⟩ := Finset.mem_image.mp hi
    exact Finset.mem_range.mpr (hlt a ha)
  constructor
  · intro hall
    rw [← hcard, ← Finset.card_range n]
    apply congrArg Finset.card
    apply Finset.Subset.antisymm hsub
    intro i hi
    obtain ⟨a, ha, hfa⟩ := (h.used_iff i).mp (hall i (Finset.mem_range.mp hi))
    exact Finset.mem_image.mpr ⟨a, ha, hfa⟩
  · intro hn i hi
    have himage : owners.image f = Finset.range n :=
      Finset.eq_of_subset_of_card_le hsub (by rw [Finset.card_range, hcard, hn])
    have hmem : i ∈ owners.image f := himage ▸ Finset.mem_range.mpr hi
    obtain ⟨a, ha, hfa⟩ := Finset.mem_image.mp hmem
    exact (h.used_iff i).mpr ⟨a, ha, hfa⟩

end Owned

end Pool
