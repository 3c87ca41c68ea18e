import Mathlib.Data.List.Nodup
import Mathlib.Logic.Function.Basic
import Mathlib.Tactic.Common

/-!
# Circular doubly linked lists

`Circular next prev l` says that `l` lists, in order and without repetition,
the members of one ring: `next` leads from each member to the following one and
from the last to the first, and `prev` leads back.  The ring may be listed from
any of its members on.
-/

namespace Ring

variable {α : Type*} {next prev next' prev' : α → α} {a b x t : α}
  {l r : List α}

/-- `a`, then the members of `l`, then `b`, linked both ways. -/
def Seg (next prev : α → α) : α → List α → α → Prop
  | a, [], b => next a = b ∧ prev b = a
  | a, x :: l, b => (next a = x ∧ prev x = a) ∧ Seg next prev x l b

theorem Seg.append :
    Seg next prev a (l ++ x :: r) b ↔
      Seg next prev a l x ∧ Seg next prev x r b := by
  induction l generalizing a with
  | nil => exact Iff.rfl
  | cons y l ih => simp only [List.cons_append, Seg, ih, and_assoc]

theorem Seg.congr (h : Seg next prev a l b)
    (hnext : ∀ x ∈ a :: l, next' x = next x)
    (hprev : ∀ x ∈ l ++ [b], prev' x = prev x) : Seg next' prev' a l b := by
  induction l generalizing a with
  | nil =>
      exact ⟨(hnext a (by simp)).trans h.1, (hprev b (by simp)).trans h.2⟩
  | cons y l ih =>
      obtain ⟨⟨hy, hya⟩, hrest⟩ := h
      refine ⟨⟨(hnext a (by simp)).trans hy, (hprev y (by simp)).trans hya⟩,
        ih hrest ?_ ?_⟩
      · exact fun x hx => hnext x (List.mem_cons_of_mem _ hx)
      · exact fun x hx => hprev x (List.mem_cons_of_mem _ hx)

theorem Seg.next_mem (h : Seg next prev a l b) : next a ∈ l ++ [b] := by
  cases l with
  | nil => simp [h.1]
  | cons y l => simp [h.1.1]

/-- The members of one ring, in order. -/
structure Circular (next prev : α → α) (l : List α) : Prop where
  nodup : l.Nodup
  links : ∀ a r, l = a :: r → Seg next prev a r a

namespace Circular

theorem nil : Circular next prev ([] : List α) :=
  ⟨List.nodup_nil, fun _ _ h => absurd h (by simp)⟩

theorem cons_iff :
    Circular next prev (a :: l) ↔ (a :: l).Nodup ∧ Seg next prev a l a := by
  constructor
  · exact fun h => ⟨h.nodup, h.links a l rfl⟩
  · rintro ⟨hnodup, hseg⟩
    refine ⟨hnodup, fun b r heq => ?_⟩
    cases heq
    exact hseg

theorem rotate (h : Circular next prev (l ++ r)) :
    Circular next prev (r ++ l) := by
  cases l with
  | nil => simpa using h
  | cons a l =>
      cases r with
      | nil => simpa using h
      | cons b r =>
          obtain ⟨hnodup, hseg⟩ := cons_iff.mp h
          obtain ⟨hfirst, hsecond⟩ := Seg.append.mp hseg
          have hnodup' : (b :: r ++ a :: l).Nodup :=
            List.nodup_append_comm.mp hnodup
          exact cons_iff.mpr
            ⟨hnodup', Seg.append.mpr ⟨hsecond, hfirst⟩⟩

/-- The ring listed from its member `x` on. -/
theorem rotate_cons (h : Circular next prev (l ++ x :: r)) :
    Circular next prev (x :: (r ++ l)) := h.rotate

theorem congr {next' prev' : α → α} (h : Circular next prev l)
    (hnext : ∀ x ∈ l, next' x = next x) (hprev : ∀ x ∈ l, prev' x = prev x) :
    Circular next' prev' l := by
  refine ⟨h.nodup, fun a r hl => ?_⟩
  subst hl
  refine (h.links a r rfl).congr hnext fun x hx => hprev x ?_
  simpa [or_comm] using hx

theorem next_mem (h : Circular next prev l) (hx : x ∈ l) : next x ∈ l := by
  obtain ⟨l₁, l₂, rfl⟩ := List.append_of_mem hx
  have hseg := (cons_iff.mp h.rotate_cons).2
  have hmem := hseg.next_mem
  simp only [List.mem_append, List.mem_cons, List.not_mem_nil, or_false]
    at hmem ⊢
  tauto

/-- The first member is followed by the second. -/
theorem next_head (h : Circular next prev (a :: b :: l)) : next a = b :=
  (cons_iff.mp h).2.1.1

variable [DecidableEq α]

/-- A ring of one. -/
theorem single (t : α) (next prev : α → α) :
    Circular (Function.update next t t) (Function.update prev t t) [t] :=
  cons_iff.mpr ⟨List.nodup_singleton t, by simp [Seg]⟩

/-- `t` is put behind `a`. -/
theorem insert (h : Circular next prev (a :: l)) (ht : t ∉ a :: l) :
    Circular (Function.update (Function.update next t (next a)) a t)
      (Function.update (Function.update prev t a) (next a) t)
      (t :: l ++ [a]) := by
  obtain ⟨hnodup, hseg⟩ := cons_iff.mp h
  have hta : t ≠ a := fun h => ht (h ▸ List.mem_cons_self)
  have hal : a ∉ l := (List.nodup_cons.mp hnodup).1
  have hna : next a ≠ t := by
    intro hna
    have hmem := h.next_mem (x := a) (by simp)
    exact ht (hna ▸ hmem)
  refine cons_iff.mpr ⟨?_, Seg.append.mpr ⟨?_, ?_⟩⟩
  · have hswap : ([a] ++ t :: l).Nodup := by
      simp only [List.cons_append, List.nil_append, List.nodup_cons,
        List.mem_cons, not_or] at hnodup ht ⊢
      exact ⟨⟨Ne.symm ht.1, hnodup.1⟩, ht.2, hnodup.2⟩
    exact List.nodup_append_comm.mp hswap
  · cases l with
    | nil =>
        have hself : next a = a := hseg.1
        simp [Seg, hself, hta]
    | cons b l =>
        obtain ⟨⟨hab, hba⟩, hrest⟩ := hseg
        rw [hab] at hna
        refine ⟨⟨?_, ?_⟩, hrest.congr ?_ ?_⟩
        · rw [Function.update_of_ne hta, Function.update_self, hab]
        · rw [hab, Function.update_self]
        · intro x hx
          have hxa : x ≠ a := fun heq => hal (heq ▸ hx)
          have hxt : x ≠ t :=
            fun heq => ht (heq ▸ List.mem_cons_of_mem _ hx)
          rw [Function.update_of_ne hxa, Function.update_of_ne hxt]
        · intro x hx
          have hxb : x ≠ b := by
            rintro rfl
            simp only [List.mem_append, List.mem_cons, List.not_mem_nil,
              or_false, List.nodup_cons, not_or] at hx hnodup
            rcases hx with hx | rfl
            · exact hnodup.2.1 hx
            · exact hnodup.1.1 rfl
          have hxt : x ≠ t := by
            rintro rfl
            simp only [List.mem_append, List.mem_cons, List.not_mem_nil,
              or_false, not_or] at hx ht
            tauto
          rw [hab, Function.update_of_ne hxb, Function.update_of_ne hxt]
  · refine ⟨Function.update_self _ _ _, ?_⟩
    rw [Function.update_of_ne hna.symm, Function.update_self]

/-- The first member leaves a ring of at least two. -/
theorem remove (h : Circular next prev (a :: b :: l)) :
    Circular (Function.update next (prev a) (next a))
      (Function.update prev (next a) (prev a)) (b :: l) := by
  obtain ⟨hnodup, hseg⟩ := cons_iff.mp h
  obtain ⟨⟨hab, hba⟩, hrest⟩ := hseg
  refine cons_iff.mpr ⟨(List.nodup_cons.mp hnodup).2, ?_⟩
  rw [hab]
  rcases List.eq_nil_or_concat l with rfl | ⟨m, z, rfl⟩
  · have hself : prev a = b := hrest.2
    simp [Seg, hself]
  · rw [List.concat_eq_append] at hrest hnodup ⊢
    obtain ⟨hm, hz, hprev⟩ := Seg.append.mp hrest
    rw [hprev]
    simp only [List.nodup_cons, List.mem_cons, List.mem_append,
      List.not_mem_nil, or_false, not_or] at hnodup
    obtain ⟨⟨hanb, ham, haz⟩, ⟨hbm, hbz⟩, hmz⟩ := hnodup
    refine Seg.append.mpr ⟨hm.congr ?_ ?_, ?_, ?_⟩
    · intro x hx
      refine Function.update_of_ne ?_ _ _
      rintro rfl
      rcases List.mem_cons.mp hx with rfl | hx
      · exact hbz rfl
      · exact (List.disjoint_of_nodup_append hmz) hx (by simp)
    · intro x hx
      refine Function.update_of_ne ?_ _ _
      rintro rfl
      simp only [List.mem_append, List.mem_cons, List.not_mem_nil,
        or_false] at hx
      rcases hx with hx | rfl
      · exact hbm hx
      · exact hbz rfl
    · exact Function.update_self _ _ _
    · exact Function.update_self _ _ _

end Circular

end Ring
