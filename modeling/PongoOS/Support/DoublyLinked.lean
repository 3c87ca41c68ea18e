import Mathlib.Data.List.Nodup
import Mathlib.Tactic.Common

/-!
# Doubly linked lists

`Chain next prev null p xs h` says that following `next` from `h` visits
exactly the nodes `xs`, ends at `null`, and that `prev` leads back from each
node to the one before it, the first node's predecessor being `p`.  The links
are two functions on an arbitrary type of nodes, so a list stored in memory is
described by the two functions that read its link words.

The edit lemmas are stated pointwise: they ask what the new links are on the
nodes of the list and say nothing about any other node.
-/

namespace DoublyLinked

variable {α : Type*} {next prev next' prev' : α → α} {null : α}

def Chain (next prev : α → α) (null : α) : α → List α → α → Prop
  | _, [], h => h = null
  | p, x :: xs, h =>
      h = x ∧ x ≠ null ∧ prev x = p ∧ Chain next prev null x xs (next x)

@[simp] theorem chain_nil {p h : α} :
    Chain next prev null p [] h ↔ h = null := Iff.rfl

@[simp] theorem chain_cons {p x h : α} {xs : List α} :
    Chain next prev null p (x :: xs) h ↔
      h = x ∧ x ≠ null ∧ prev x = p ∧
        Chain next prev null x xs (next x) := Iff.rfl

namespace Chain

variable {p h x : α} {xs ys : List α}

theorem ne_null (hc : Chain next prev null p xs h) (hx : x ∈ xs) :
    x ≠ null := by
  induction xs generalizing p h with
  | nil => simp at hx
  | cons y ys ih =>
      obtain ⟨-, hne, -, hrest⟩ := hc
      rcases List.mem_cons.mp hx with rfl | hx
      · exact hne
      · exact ih hrest hx

theorem head_eq (hc : Chain next prev null p xs h) :
    h = xs.head?.getD null := by
  cases xs with
  | nil => exact hc
  | cons y ys => exact hc.1

theorem head_mem (hc : Chain next prev null p xs h) (hh : h ≠ null) :
    h ∈ xs := by
  cases xs with
  | nil => exact absurd hc hh
  | cons y ys => simp [hc.1]

theorem eq_nil_iff (hc : Chain next prev null p xs h) :
    xs = [] ↔ h = null := by
  cases xs with
  | nil => simpa using hc
  | cons y ys =>
      obtain ⟨rfl, hne, -, -⟩ := hc
      simp [hne]

/-- The nodes are determined by the head and the forward links. -/
theorem unique {q : α} (hx : Chain next prev null p xs h)
    (hy : Chain next prev' null q ys h) : xs = ys := by
  induction xs generalizing p q ys h with
  | nil => exact (hy.eq_nil_iff.mpr hx).symm
  | cons x xs ih =>
      cases ys with
      | nil => exact hx.eq_nil_iff.mpr hy
      | cons y ys =>
          obtain ⟨rfl, -, -, hx⟩ := hx
          obtain ⟨rfl, -, -, hy⟩ := hy
          rw [ih hx hy]

theorem congr (hc : Chain next prev null p xs h)
    (hnext : ∀ y ∈ xs, next' y = next y)
    (hprev : ∀ y ∈ xs, prev' y = prev y) :
    Chain next' prev' null p xs h := by
  induction xs generalizing p h with
  | nil => exact hc
  | cons y ys ih =>
      obtain ⟨hh, hne, hp, hrest⟩ := hc
      refine ⟨hh, hne, ?_, ?_⟩
      · rw [hprev y (by simp), hp]
      · rw [hnext y (by simp)]
        exact ih hrest (fun z hz => hnext z (by simp [hz]))
          (fun z hz => hprev z (by simp [hz]))

/-- The successor of a node is the next list entry, or `null` at the end. -/
theorem next_eq (hc : Chain next prev null p (xs ++ x :: ys) h) :
    next x = ys.head?.getD null := by
  induction xs generalizing p h with
  | nil => exact hc.2.2.2.head_eq
  | cons z zs ih => exact ih hc.2.2.2

/-- The predecessor of a node is the list entry before it, or `p` at the
front. -/
theorem prev_eq (hc : Chain next prev null p (xs ++ x :: ys) h) :
    prev x = xs.getLast?.getD p := by
  induction xs generalizing p h with
  | nil => simpa using hc.2.2.1
  | cons z zs ih =>
      have hx := ih hc.2.2.2
      cases zs with
      | nil => simpa using hx
      | cons w ws => simpa [List.getLast?_cons] using hx

theorem mem_tail_of_next (hc : Chain next prev null p (xs ++ x :: ys) h) :
    next x = null ∨ next x ∈ ys := by
  rw [hc.next_eq]
  cases ys with
  | nil => exact Or.inl rfl
  | cons y ys => exact Or.inr (by simp)

theorem mem_init_of_prev (hc : Chain next prev null p (xs ++ x :: ys) h) :
    (xs = [] ∧ prev x = p) ∨ prev x ∈ xs := by
  rw [hc.prev_eq]
  cases hlast : xs.getLast? with
  | none => exact Or.inl ⟨List.getLast?_eq_none_iff.mp hlast, rfl⟩
  | some y => exact Or.inr (by simpa using List.mem_of_getLast? hlast)

/-- Re-rooting: only the predecessor of the first node changes. -/
theorem reroot {q : α} (hc : Chain next prev null p xs h)
    (hnodup : xs.Nodup)
    (hnext : ∀ y ∈ xs, next' y = next y)
    (hfirst : h ∈ xs → prev' h = q)
    (hprev : ∀ y ∈ xs, y ≠ h → prev' y = prev y) :
    Chain next' prev' null q xs h := by
  cases xs with
  | nil => exact hc
  | cons x xs =>
      obtain ⟨rfl, hne, -, hrest⟩ := hc
      have hnotMem : h ∉ xs := (List.nodup_cons.mp hnodup).1
      refine ⟨rfl, hne, hfirst (by simp), ?_⟩
      rw [hnext h (by simp)]
      refine hrest.congr (fun y hy => hnext y (by simp [hy])) ?_
      intro y hy
      exact hprev y (by simp [hy]) (fun heq => hnotMem (heq ▸ hy))

/-- Pushing a fresh node `n` in front of the list. -/
theorem push {n : α} (hc : Chain next prev null p xs h)
    (hnodup : (n :: xs).Nodup) (hn : n ≠ null)
    (hnextNew : next' n = h) (hprevNew : prev' n = p)
    (hnext : ∀ y ∈ xs, next' y = next y)
    (hfirst : h ∈ xs → prev' h = n)
    (hprev : ∀ y ∈ xs, y ≠ h → prev' y = prev y) :
    Chain next' prev' null p (n :: xs) n := by
  refine ⟨rfl, hn, hprevNew, ?_⟩
  rw [hnextNew]
  exact hc.reroot (List.nodup_cons.mp hnodup).2 hnext hfirst hprev

/-- Unlinking a node from the middle: its two neighbours are joined. -/
theorem unlink (hc : Chain next prev null p (xs ++ x :: ys) h)
    (hnodup : (xs ++ x :: ys).Nodup)
    (hnextPrev : prev x ∈ xs → next' (prev x) = next x)
    (hnext : ∀ y ∈ xs ++ ys, y ≠ prev x → next' y = next y)
    (hprevNext : next x ∈ ys → prev' (next x) = prev x)
    (hprev : ∀ y ∈ xs ++ ys, y ≠ next x → prev' y = prev y)
    (hp : p ∉ xs ++ ys) :
    Chain next' prev' null p (xs ++ ys) (if xs = [] then next x else h) := by
  induction xs generalizing p h with
  | nil =>
      have hprevx : prev x = p := hc.2.2.1
      rw [if_pos rfl]
      refine hc.2.2.2.reroot (List.nodup_cons.mp hnodup).2 ?_ ?_ ?_
      · intro y hy
        exact hnext y hy (fun heq => hp (by rwa [← hprevx, ← heq]))
      · intro hmem
        rw [hprevNext hmem, hprevx]
      · exact hprev
  | cons z zs ih =>
      have hchain := hc
      obtain ⟨rfl, hne, hpz, hrest⟩ := hc
      obtain ⟨hzNotMem, hnodup'⟩ := List.nodup_cons.mp hnodup
      have hzNext : h ≠ next x := by
        rintro heq
        rcases hchain.mem_tail_of_next with hnull | hmem
        · exact hne (heq.trans hnull)
        · exact hzNotMem (by simp [heq, hmem])
      have hzys : h ∉ zs ++ ys := fun hmem => hzNotMem (by
        rcases List.mem_append.mp hmem with hm | hm <;> simp [hm])
      have hih := ih hrest hnodup'
        (fun hmem => hnextPrev (List.mem_cons_of_mem _ hmem))
        (fun y hy => hnext y (List.mem_cons_of_mem _ hy))
        (fun y hy => hprev y (List.mem_cons_of_mem _ hy)) hzys
      refine ⟨by simp, hne, ?_, ?_⟩
      · rw [hprev h (by simp) hzNext, hpz]
      · -- the node before `x` now points past it; every other link is kept
        rcases hrest.mem_init_of_prev with ⟨rfl, hprevx⟩ | hmem
        · rw [← hprevx, hnextPrev (by simp [hprevx])]
          simpa [hprevx] using hih
        · have hzPrev : h ≠ prev x := fun heq =>
            hzys (by simp [heq, hmem])
          have hzs : zs ≠ [] := List.ne_nil_of_mem hmem
          rw [hnext h (by simp) hzPrev]
          simpa [hzs] using hih

end Chain

end DoublyLinked
