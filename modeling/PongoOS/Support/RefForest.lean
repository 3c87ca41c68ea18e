import PongoOS.Support.Holders

/-!
# Reference counts in a forest

The nodes of a forest count the references to them: those of their children
and those from outside.  `ext a` is the number of the latter.  A node goes when
its count does, and gives its reference to its parent back to the outside.
`null` is no node, and the count of `root` is not kept.
-/

namespace RefForest

open Holders

structure Forest (α : Type*) where
  nodes : Finset α
  count : α → ℕ
  parent : α → α

variable {α : Type*} [DecidableEq α]

/-- One reference to `x` more. -/
def bump (ext : α → ℕ) (x a : α) : ℕ := ext a + if x = a then 1 else 0

theorem bump_self (ext : α → ℕ) (x : α) : bump ext x x = ext x + 1 := by
  unfold bump
  rw [if_pos rfl]

theorem bump_of_ne {x a : α} (ext : α → ℕ) (h : x ≠ a) :
    bump ext x a = ext a := by
  unfold bump
  rw [if_neg h, Nat.add_zero]

namespace Forest

variable (f : Forest α)

@[simps]
def setCount (a : α) (n : ℕ) : Forest α :=
  { f with count := Function.update f.count a n }

@[simps]
def erase (a : α) : Forest α := { f with nodes := f.nodes.erase a }

/-- A new node with one reference to it. -/
@[simps]
def insert (a p : α) : Forest α where
  nodes := Insert.insert a f.nodes
  count := Function.update f.count a 1
  parent := Function.update f.parent a p

end Forest

/-- Every count is the number of references and below `limit`. -/
structure Counts (null root : α) (limit : ℕ) (ext : α → ℕ) (f : Forest α) :
    Prop where
  count : ∀ a ∈ f.nodes, a ≠ root →
    f.count a = ext a + holders f.nodes f.parent a ∧ 0 < f.count a ∧
      f.count a < limit
  outside : ∀ a, a ≠ null → 0 < ext a → a ∈ f.nodes
  parent : ∀ a ∈ f.nodes, f.parent a ≠ null → f.parent a ∈ f.nodes
  root : root ∈ f.nodes
  null : null ∉ f.nodes

namespace Counts

variable {null root a p : α} {limit : ℕ} {ext ext' : α → ℕ} {f : Forest α}

theorem ne_null (h : Counts null root limit ext f) (ha : a ∈ f.nodes) :
    a ≠ null := by
  rintro rfl
  exact h.null ha

/-- References to `null` and to the root do not matter. -/
theorem congr (h : Counts null root limit ext f)
    (heq : ∀ a, a ≠ null → a ≠ root → ext' a = ext a) :
    Counts null root limit ext' f where
  count a ha hroot := by
    rw [heq a (h.ne_null ha) hroot]
    exact h.count a ha hroot
  outside a h0 hpos := by
    by_cases hroot : a = root
    · exact hroot ▸ h.root
    · rw [heq a h0 hroot] at hpos
      exact h.outside a h0 hpos
  parent := h.parent
  root := h.root
  null := h.null

theorem mem (h : Counts null root limit (bump ext a) f) (h0 : a ≠ null) :
    a ∈ f.nodes := by
  apply h.outside a h0
  rw [bump_self]
  exact Nat.succ_pos _

/-- A node exists exactly as long as there is a reference to it. -/
theorem mem_iff (h : Counts null root limit ext f) (h0 : a ≠ null)
    (hroot : a ≠ root) :
    a ∈ f.nodes ↔ 0 < ext a + holders f.nodes f.parent a := by
  constructor
  · intro ha
    obtain ⟨hcount, hpos, -⟩ := h.count a ha hroot
    exact hcount ▸ hpos
  · intro hpos
    by_contra ha
    have hext : ext a = 0 := by
      by_contra hne
      exact ha (h.outside a h0 (Nat.pos_of_ne_zero hne))
    have hnone : holders f.nodes f.parent a = 0 := by
      apply holders_eq_zero
      intro b hb heq
      exact ha (heq ▸ h.parent b hb (heq ▸ h0))
    omega

theorem take (h : Counts null root limit ext f) (ha : a ∈ f.nodes)
    (hroot : a ≠ root) (hlimit : f.count a + 1 ≠ limit) :
    Counts null root limit (bump ext a)
      (f.setCount a (f.count a + 1)) where
  count b hb hbroot := by
    by_cases hab : a = b
    · subst hab
      obtain ⟨hcount, hpos, hlt⟩ := h.count a ha hroot
      rw [bump_self, Forest.setCount_count, Function.update_self]
      refine ⟨?_, Nat.succ_pos _, by omega⟩
      rw [hcount]
      exact Nat.add_right_comm _ _ _
    · rw [bump_of_ne ext hab, Forest.setCount_count,
        Function.update_of_ne (Ne.symm hab)]
      exact h.count b hb hbroot
  outside b h0 hpos := by
    by_cases hab : a = b
    · exact hab ▸ ha
    · rw [bump_of_ne ext hab] at hpos
      exact h.outside b h0 hpos
  parent := h.parent
  root := h.root
  null := h.null

theorem drop (h : Counts null root limit (bump ext a) f)
    (hlast : f.count a ≠ 1) :
    Counts null root limit ext (f.setCount a (f.count a - 1)) where
  count b hb hbroot := by
    have hcounts := h.count b hb hbroot
    by_cases hab : a = b
    · subst hab
      obtain ⟨hcount, hpos, hlt⟩ := hcounts
      rw [bump_self] at hcount
      rw [Forest.setCount_count, Function.update_self]
      have hnodes : holders (f.setCount a (f.count a - 1)).nodes
          (f.setCount a (f.count a - 1)).parent a =
            holders f.nodes f.parent a := rfl
      rw [hnodes]
      omega
    · rw [bump_of_ne ext hab] at hcounts
      rw [Forest.setCount_count, Function.update_of_ne (Ne.symm hab)]
      exact hcounts
  outside b hb0 hpos := by
    apply h.outside b hb0
    unfold bump
    exact Nat.lt_of_lt_of_le hpos (Nat.le_add_right _ _)
  parent := h.parent
  root := h.root
  null := h.null

/-- The last reference is from outside. -/
theorem last (h : Counts null root limit (bump ext a) f) (h0 : a ≠ null)
    (hroot : a ≠ root) (hone : f.count a = 1) :
    ext a = 0 ∧ ∀ b ∈ f.nodes, f.parent b ≠ a := by
  obtain ⟨hcount, -, -⟩ := h.count a (h.mem h0) hroot
  rw [hone, bump_self] at hcount
  have hnone : holders f.nodes f.parent a = 0 := by omega
  refine ⟨by omega, ?_⟩
  intro b hb
  exact ne_of_holders_eq_zero hnone hb

/-- A node whose last reference is dropped goes, and leaves its reference to
its parent. -/
theorem erase (h : Counts null root limit (bump ext a) f) (h0 : a ≠ null)
    (hroot : a ≠ root) (hone : f.count a = 1) (n : ℕ) :
    Counts null root limit (bump ext (f.parent a))
      ((f.setCount a n).erase a) := by
  have hmem := h.mem h0
  obtain ⟨hext, hleaf⟩ := h.last h0 hroot hone
  constructor
  · intro b hb hbroot
    obtain ⟨hba, hb⟩ := Finset.mem_erase.mp hb
    have hcounts := h.count b hb hbroot
    rw [bump_of_ne ext (Ne.symm hba)] at hcounts
    have hchild : holders (f.nodes.erase a) f.parent b +
        (if f.parent a = b then 1 else 0) = holders f.nodes f.parent b :=
      holders_erase hmem
    have hafter : holders ((f.setCount a n).erase a).nodes
        ((f.setCount a n).erase a).parent b =
          holders (f.nodes.erase a) f.parent b := rfl
    rw [hafter, Forest.erase_count, Forest.setCount_count,
      Function.update_of_ne hba]
    unfold bump
    omega
  · intro b hb0 hpos
    have hb : b ∈ f.nodes ∧ b ≠ a := by
      by_cases hpb : f.parent a = b
      · have hpa : f.parent a ≠ null := hpb ▸ hb0
        refine ⟨hpb ▸ h.parent a hmem hpa, ?_⟩
        rintro rfl
        exact hleaf _ hmem hpb
      · rw [bump_of_ne ext hpb] at hpos
        constructor
        · apply h.outside b hb0
          unfold bump
          exact Nat.lt_of_lt_of_le hpos (Nat.le_add_right _ _)
        · rintro rfl
          omega
    exact Finset.mem_erase.mpr ⟨hb.2, hb.1⟩
  · intro b hb hpb
    obtain ⟨-, hb⟩ := Finset.mem_erase.mp hb
    exact Finset.mem_erase.mpr ⟨hleaf b hb, h.parent b hb hpb⟩
  · exact Finset.mem_erase.mpr ⟨Ne.symm hroot, h.root⟩
  · intro hnull
    exact h.null (Finset.mem_of_mem_erase hnull)

/-- The reference to `p` becomes that of a new child. -/
theorem insert (h : Counts null root limit (bump ext p) f) (h0 : a ≠ null)
    (ha : a ∉ f.nodes) (hlimit : 1 < limit) :
    Counts null root limit (bump ext a) (f.insert a p) := by
  have hp : p = null ∨ p ∈ f.nodes := by
    by_cases hp0 : p = null
    · exact Or.inl hp0
    · exact Or.inr (h.mem hp0)
  have hpa : p ≠ a := by
    rintro rfl
    exact ha (h.mem h0)
  have hext : ext a = 0 := by
    by_contra hne
    apply ha (h.outside a h0 _)
    rw [bump_of_ne ext hpa]
    exact Nat.pos_of_ne_zero hne
  have hsame : ∀ b, holders f.nodes (Function.update f.parent a p) b =
      holders f.nodes f.parent b := by
    intro b
    apply holders_congr
    intro c hc
    apply Function.update_of_ne
    rintro rfl
    exact ha hc
  have hnew : ∀ b, holders (f.insert a p).nodes (f.insert a p).parent b =
      holders f.nodes f.parent b + if p = b then 1 else 0 := by
    intro b
    have hinsert := holders_insert (f := Function.update f.parent a p)
      (a := b) ha
    rw [hsame, Function.update_self] at hinsert
    exact hinsert
  have hleaf : holders f.nodes f.parent a = 0 := by
    apply holders_eq_zero
    intro b hb heq
    exact ha (heq ▸ h.parent b hb (heq ▸ h0))
  constructor
  · intro b hb hbroot
    rw [hnew, Forest.insert_count]
    by_cases hab : a = b
    · subst hab
      rw [Function.update_self, bump_self, hext, hleaf, if_neg hpa]
      exact ⟨rfl, Nat.one_pos, hlimit⟩
    · have hb' := Finset.mem_of_mem_insert_of_ne hb (Ne.symm hab)
      have hcounts := h.count b hb' hbroot
      rw [Function.update_of_ne (Ne.symm hab), bump_of_ne ext hab]
      unfold bump at hcounts
      omega
  · intro b hb0 hpos
    by_cases hab : a = b
    · exact hab ▸ Finset.mem_insert_self a _
    · rw [bump_of_ne ext hab] at hpos
      apply Finset.mem_insert_of_mem
      apply h.outside b hb0
      unfold bump
      exact Nat.lt_of_lt_of_le hpos (Nat.le_add_right _ _)
  · intro b hb hpb
    apply Finset.mem_insert_of_mem
    by_cases hab : b = a
    · subst hab
      rw [Forest.insert_parent, Function.update_self] at hpb ⊢
      exact hp.resolve_left hpb
    · have hb' := Finset.mem_of_mem_insert_of_ne hb hab
      rw [Forest.insert_parent, Function.update_of_ne hab] at hpb ⊢
      exact h.parent b hb' hpb
  · exact Finset.mem_insert_of_mem h.root
  · intro hnull
    rcases Finset.mem_insert.mp hnull with heq | hnull
    · exact h0 heq.symm
    · exact h.null hnull

end Counts

end RefForest
