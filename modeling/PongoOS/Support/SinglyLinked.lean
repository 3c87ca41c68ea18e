import Mathlib.Data.List.Nodup
import Mathlib.Logic.Function.Basic
import Mathlib.Tactic.Common

/-!
# Singly linked lists

`Path next null a l` says that following `next` from `a` visits exactly the
nodes `l` and then meets `null`.  A node from which `null` is not reached, as
on a cycle, has no path.
-/

namespace SinglyLinked

variable {α : Type*} {next next' : α → α} {null a x t : α} {l m : List α}

def Path (next : α → α) (null : α) : α → List α → Prop
  | a, [] => a = null
  | a, x :: l => a = x ∧ x ≠ null ∧ Path next null (next x) l

instance Path.decidable [DecidableEq α] (next : α → α) (null : α) :
    (a : α) → (l : List α) → Decidable (Path next null a l)
  | a, [] => inferInstanceAs (Decidable (a = null))
  | a, x :: l =>
      have := Path.decidable next null (next x) l
      inferInstanceAs
        (Decidable (a = x ∧ x ≠ null ∧ Path next null (next x) l))

namespace Path

theorem ne_null (h : Path next null a l) (hx : x ∈ l) : x ≠ null := by
  induction l generalizing a with
  | nil => cases hx
  | cons y l ih =>
      rcases List.mem_cons.mp hx with rfl | hx
      · exact h.2.1
      · exact ih h.2.2 hx

theorem unique (h : Path next null a l) (h' : Path next null a m) :
    l = m := by
  induction l generalizing a m with
  | nil =>
      cases m with
      | nil => rfl
      | cons y m => exact absurd (h'.1.symm.trans h) h'.2.1
  | cons x l ih =>
      cases m with
      | nil => exact absurd (h.1.symm.trans h') h.2.1
      | cons y m =>
          obtain ⟨rfl, -, hrest⟩ := h
          obtain ⟨rfl, -, hrest'⟩ := h'
          rw [ih hrest hrest']

theorem congr (h : Path next null a l) (hnext : ∀ x ∈ l, next' x = next x) :
    Path next' null a l := by
  induction l generalizing a with
  | nil => exact h
  | cons y l ih =>
      obtain ⟨rfl, hy, hrest⟩ := h
      refine ⟨rfl, hy, ?_⟩
      rw [hnext a List.mem_cons_self]
      exact ih hrest fun x hx => hnext x (List.mem_cons_of_mem _ hx)

/-- `t` is put in front. -/
theorem push [DecidableEq α] (h : Path next null a l) (ht : t ∉ l)
    (h0 : t ≠ null) : Path (Function.update next t a) null t (t :: l) := by
  refine ⟨rfl, h0, ?_⟩
  rw [Function.update_self]
  refine h.congr fun x hx => Function.update_of_ne ?_ _ _
  rintro rfl
  exact ht hx

/-- A node that comes twice would be on a cycle. -/
theorem nodup (h : Path next null a l) : l.Nodup := by
  induction l generalizing a with
  | nil => exact List.nodup_nil
  | cons x l ih =>
      have hrest := h.2.2
      refine List.nodup_cons.mpr ⟨?_, ih hrest⟩
      intro hx
      obtain ⟨l₁, l₂, rfl⟩ := List.append_of_mem hx
      have hsuffix : ∀ {b : α} {m : List α}, Path next null b (m ++ x :: l₂) →
          Path next null x (x :: l₂) := by
        intro b m hm
        induction m generalizing b with
        | nil => exact ⟨rfl, hm.2.1, hm.2.2⟩
        | cons y m ihm => exact ihm hm.2.2
      have hx₁ : Path next null x (x :: (l₁ ++ x :: l₂)) := ⟨rfl, h.2.1, hrest⟩
      have hlength := congrArg List.length (hx₁.unique (hsuffix hrest))
      rw [List.length_cons, List.length_append, List.length_cons] at hlength
      omega

/-- The node after `x` is taken out. -/
theorem remove [DecidableEq α] (h : Path next null a (l ++ x :: t :: m)) :
    Path (Function.update next x (next t)) null a (l ++ x :: m) := by
  have hnodup := h.nodup
  induction l generalizing a with
  | nil =>
      obtain ⟨rfl, hx, rfl, -, hrest⟩ := h
      refine ⟨rfl, hx, ?_⟩
      rw [Function.update_self]
      apply hrest.congr
      intro y hy
      apply Function.update_of_ne
      rintro rfl
      exact (List.nodup_cons.mp hnodup).1 (List.mem_cons_of_mem _ hy)
  | cons y l ih =>
      obtain ⟨rfl, hy, hrest⟩ := h
      rw [List.cons_append, List.nodup_cons] at hnodup
      refine ⟨rfl, hy, ?_⟩
      rw [Function.update_of_ne]
      · exact ih hrest hnodup.2
      · rintro rfl
        exact hnodup.1 (List.mem_append_right _ List.mem_cons_self)

end Path

end SinglyLinked
