import Mathlib.Data.List.Induction
import Mathlib.Order.Bounds.Basic

/-!
# Laying pieces over an image

An image gives a value at every address.  Pieces are laid over it one after the
other, each with values for its own range of addresses.  The value found at an
address in the end is that of the last piece that covers the address.
-/

namespace PongoOS

/-- The last element of the list with the property. -/
def lastWhere {β : Type} (P : β → Prop) [DecidablePred P] (l : List β) :
    Option β :=
  (l.filter fun b => P b).getLast?

section Last

variable {β : Type} {P : β → Prop} [DecidablePred P] {l : List β} {b : β}

theorem lastWhere_concat_of_pos (h : P b) : lastWhere P (l ++ [b]) = some b := by
  simp [lastWhere, h]

theorem lastWhere_concat_of_neg (h : ¬ P b) :
    lastWhere P (l ++ [b]) = lastWhere P l := by
  simp [lastWhere, h]

theorem lastWhere_of_mem (hb : b ∈ l) (h : P b) :
    ∃ c, lastWhere P l = some c ∧ c ∈ l ∧ P c := by
  have hmem : b ∈ l.filter fun b => P b := List.mem_filter.mpr ⟨hb, by simpa⟩
  have hsome := List.getLast?_eq_some_getLast (List.ne_nil_of_mem hmem)
  have hlast := List.mem_filter.mp (List.getLast_mem (List.ne_nil_of_mem hmem))
  exact ⟨_, hsome, hlast.1, by simpa using hlast.2⟩

theorem mem_of_lastWhere (h : lastWhere P l = some b) : b ∈ l ∧ P b := by
  have hmem := List.mem_filter.mp (List.mem_of_getLast? h)
  exact ⟨hmem.1, by simpa using hmem.2⟩

end Last

/-- Values for the addresses from `start` up to, but without, `stop`. -/
structure Piece (α : Type) where
  start : ℕ
  stop : ℕ
  value : ℕ → α

namespace Piece

variable {α : Type} {p q : Piece α} {ps : List (Piece α)} {f g : ℕ → α} {a : ℕ}

def Covers (p : Piece α) (a : ℕ) : Prop := p.start ≤ a ∧ a < p.stop

instance (p : Piece α) (a : ℕ) : Decidable (p.Covers a) :=
  inferInstanceAs (Decidable (_ ∧ _))

/-- The image after the piece was laid over it. -/
def lay (f : ℕ → α) (p : Piece α) : ℕ → α := fun a =>
  if p.Covers a then p.value a else f a

/-- The pieces are laid from the first to the last. -/
def layAll (f : ℕ → α) (ps : List (Piece α)) : ℕ → α := ps.foldl lay f

/-- The last of the pieces that cover `a`. -/
def last (ps : List (Piece α)) (a : ℕ) : Option (Piece α) :=
  lastWhere (fun p => p.Covers a) ps

theorem lay_mk {start stop : ℕ} {value : ℕ → α} :
    lay f ⟨start, stop, value⟩ a =
      if start ≤ a ∧ a < stop then value a else f a := rfl

theorem lay_of_covers (h : p.Covers a) : lay f p a = p.value a := if_pos h

theorem lay_of_not_covers (h : ¬ p.Covers a) : lay f p a = f a := if_neg h

@[simp] theorem layAll_nil : layAll f [] = f := rfl

@[simp] theorem layAll_cons : layAll f (p :: ps) = layAll (lay f p) ps := rfl

theorem layAll_append {qs : List (Piece α)} :
    layAll f (ps ++ qs) = layAll (layAll f ps) qs :=
  List.foldl_append

/-- The last piece that covers an address decides its value. -/
theorem layAll_apply :
    layAll f ps a = (last ps a).elim (f a) fun p => p.value a := by
  induction ps using List.reverseRecOn with
  | nil => rfl
  | append_singleton ps p ih =>
      rw [layAll_append, layAll_cons, layAll_nil]
      by_cases hcovers : p.Covers a
      · rw [lay_of_covers hcovers, last,
          lastWhere_concat_of_pos (P := fun q : Piece α => q.Covers a) hcovers]
        rfl
      · rw [lay_of_not_covers hcovers, last,
          lastWhere_concat_of_neg (P := fun q : Piece α => q.Covers a) hcovers, ih]
        rfl

theorem layAll_of_not_covers (h : ∀ p ∈ ps, ¬ p.Covers a) :
    layAll f ps a = f a := by
  induction ps generalizing f with
  | nil => rfl
  | cons p ps ih =>
      rw [layAll_cons, ih fun q hq => h q (List.mem_cons_of_mem _ hq),
        lay_of_not_covers (h p List.mem_cons_self)]

/-- No address is covered by both. -/
def Apart (p q : Piece α) : Prop := ∀ a, ¬ (p.Covers a ∧ q.Covers a)

/-- Where no two pieces overlap the order does not matter. -/
theorem layAll_of_mem (hapart : ps.Pairwise Apart) (hp : p ∈ ps)
    (h : p.Covers a) : layAll f ps a = p.value a := by
  induction ps generalizing f with
  | nil => cases hp
  | cons q ps ih =>
      obtain ⟨hfirst, hrest⟩ := List.pairwise_cons.mp hapart
      rw [layAll_cons]
      rcases List.mem_cons.mp hp with rfl | hp
      · rw [layAll_of_not_covers fun r hr hcovers => hfirst r hr a ⟨h, hcovers⟩,
          lay_of_covers h]
      · exact ih hrest hp

/-- A piece laid over one of the same range takes its place, if none of the
pieces in between overlaps it. -/
theorem layAll_replace {qs : List (Piece α)} (hstart : q.start = p.start)
    (hstop : q.stop = p.stop) (hapart : ∀ r ∈ qs, Apart p r) :
    layAll f (ps ++ q :: qs ++ [p]) = layAll f (ps ++ p :: qs) := by
  funext a
  rw [layAll_append, layAll_append, layAll_append, layAll_cons, layAll_cons,
    layAll_cons, layAll_nil]
  by_cases hcovers : p.Covers a
  · rw [lay_of_covers hcovers, layAll_of_not_covers, lay_of_covers hcovers]
    intro r hr hr'
    exact hapart r hr a ⟨hcovers, hr'⟩
  · have hnot : ¬ q.Covers a := by
      unfold Covers at hcovers ⊢
      rwa [hstart, hstop]
    rw [lay_of_not_covers hcovers, layAll_apply, layAll_apply,
      lay_of_not_covers hcovers, lay_of_not_covers hnot]

/-- The addresses that some piece covers. -/
def Covered (ps : List (Piece α)) : Set ℕ := {a | ∃ p ∈ ps, p.Covers a}

def bounds (p : Piece α) : ℕ × ℕ := (p.start, p.stop)

end Piece

/-! ## The range of several intervals -/

/-- The range is widened until it includes the interval. -/
def widen (range interval : ℕ × ℕ) : ℕ × ℕ :=
  (if interval.1 < range.1 then interval.1 else range.1,
    if range.2 < interval.2 then interval.2 else range.2)

def extent (range : ℕ × ℕ) (intervals : List (ℕ × ℕ)) : ℕ × ℕ :=
  intervals.foldl widen range

section Extent

variable {r i : ℕ × ℕ} {l : List (ℕ × ℕ)}

@[simp] theorem extent_nil : extent r [] = r := rfl

@[simp] theorem extent_cons : extent r (i :: l) = extent (widen r i) l := rfl

theorem widen_fst : (widen r i).1 ≤ r.1 ∧ (widen r i).1 ≤ i.1 ∧
    ((widen r i).1 = r.1 ∨ (widen r i).1 = i.1) := by
  simp only [widen]
  split <;> omega

theorem widen_snd : r.2 ≤ (widen r i).2 ∧ i.2 ≤ (widen r i).2 ∧
    ((widen r i).2 = r.2 ∨ (widen r i).2 = i.2) := by
  simp only [widen]
  split <;> omega

theorem extent_le_range : (extent r l).1 ≤ r.1 ∧ r.2 ≤ (extent r l).2 := by
  induction l generalizing r with
  | nil => exact ⟨Nat.le_refl _, Nat.le_refl _⟩
  | cons i l ih =>
      rw [extent_cons]
      exact ⟨Nat.le_trans ih.1 widen_fst.1, Nat.le_trans widen_snd.1 ih.2⟩

theorem extent_le_of_mem (h : i ∈ l) :
    (extent r l).1 ≤ i.1 ∧ i.2 ≤ (extent r l).2 := by
  induction l generalizing r with
  | nil => cases h
  | cons j l ih =>
      rw [extent_cons]
      rcases List.mem_cons.mp h with rfl | h
      · exact ⟨Nat.le_trans extent_le_range.1 widen_fst.2.1,
          Nat.le_trans widen_snd.2.1 extent_le_range.2⟩
      · exact ih h

/-- The lower end is that of the range or of an interval. -/
theorem extent_fst_mem :
    (extent r l).1 = r.1 ∨ ∃ i ∈ l, (extent r l).1 = i.1 := by
  induction l generalizing r with
  | nil => exact .inl rfl
  | cons j l ih =>
      rw [extent_cons]
      rcases ih (r := widen r j) with heq | ⟨i, hi, heq⟩
      · rw [heq]
        exact widen_fst.2.2.imp_right fun h => ⟨j, List.mem_cons_self, h⟩
      · exact .inr ⟨i, List.mem_cons_of_mem _ hi, heq⟩

theorem extent_snd_mem :
    (extent r l).2 = r.2 ∨ ∃ i ∈ l, (extent r l).2 = i.2 := by
  induction l generalizing r with
  | nil => exact .inl rfl
  | cons j l ih =>
      rw [extent_cons]
      rcases ih (r := widen r j) with heq | ⟨i, hi, heq⟩
      · rw [heq]
        exact widen_snd.2.2.imp_right fun h => ⟨j, List.mem_cons_self, h⟩
      · exact .inr ⟨i, List.mem_cons_of_mem _ hi, heq⟩

/-- No range is found exactly if every interval ends below the start of every
one. -/
theorem extent_empty_iff {top : ℕ} (htop : 0 < top) (hl : ∀ i ∈ l, i.1 ≤ top) :
    (extent (top, 0) l).2 < (extent (top, 0) l).1 ↔
      ∀ i ∈ l, ∀ j ∈ l, i.2 < j.1 := by
  constructor
  · intro h i hi j hj
    have hstop := (extent_le_of_mem (r := (top, 0)) hi).2
    have hstart := (extent_le_of_mem (r := (top, 0)) hj).1
    omega
  · intro h
    rcases extent_snd_mem (r := (top, 0)) (l := l) with hsnd | ⟨i, hi, hsnd⟩ <;>
      rcases extent_fst_mem (r := (top, 0)) (l := l) with hfst | ⟨j, hj, hfst⟩
    · rw [hsnd, hfst]
      exact htop
    · have hpos := h j hj j hj
      rw [hsnd, hfst]
      exact Nat.zero_lt_of_lt hpos
    · rw [hsnd, hfst]
      exact Nat.lt_of_lt_of_le (h i hi i hi) (hl i hi)
    · rw [hsnd, hfst]
      exact h i hi j hj

end Extent

namespace Piece

variable {α : Type} {ps : List (Piece α)} {top : ℕ}

/-- The range that is found for pieces which are not empty, starting with a
range that is, goes from the lowest to behind the highest address covered. -/
theorem extent_covered (hpieces : ∀ p ∈ ps, p.start < p.stop ∧ p.stop ≤ top)
    (hne : ¬ (extent (top, 0) (ps.map bounds)).2 <
      (extent (top, 0) (ps.map bounds)).1) (htop : 0 < top) :
    (extent (top, 0) (ps.map bounds)).1 < (extent (top, 0) (ps.map bounds)).2 ∧
      IsLeast (Covered ps) (extent (top, 0) (ps.map bounds)).1 ∧
      IsGreatest (Covered ps) ((extent (top, 0) (ps.map bounds)).2 - 1) := by
  have hle := fun p (hp : p ∈ ps) =>
    extent_le_of_mem (r := (top, 0)) (List.mem_map_of_mem (f := bounds) hp)
  have hfst := extent_fst_mem (r := (top, 0)) (l := ps.map bounds)
  have hsnd := extent_snd_mem (r := (top, 0)) (l := ps.map bounds)
  generalize extent (top, 0) (ps.map bounds) = e at *
  have hnil : ps ≠ [] := by
    rintro rfl
    simp at hfst hsnd
    omega
  obtain ⟨q, hq⟩ := List.exists_mem_of_ne_nil _ hnil
  have hqe := hle q hq
  have hqp := hpieces q hq
  simp only [bounds] at hle hqe
  refine ⟨by omega, ?_, ?_⟩
  · constructor
    · rcases hfst with heq | ⟨i, hi, heq⟩
      · omega
      · obtain ⟨p, hp, rfl⟩ := List.mem_map.mp hi
        exact ⟨p, hp, Nat.le_of_eq heq.symm, heq ▸ (hpieces p hp).1⟩
    · rintro a ⟨p, hp, hcovers⟩
      exact Nat.le_trans (hle p hp).1 hcovers.1
  · constructor
    · rcases hsnd with heq | ⟨i, hi, heq⟩
      · omega
      · obtain ⟨p, hp, rfl⟩ := List.mem_map.mp hi
        have hlt := (hpieces p hp).1
        simp only [bounds] at heq
        exact ⟨p, hp, by omega, by omega⟩
    · rintro a ⟨p, hp, hcovers⟩
      have hstop := (hle p hp).2
      have ha := hcovers.2
      omega

end Piece

end PongoOS
