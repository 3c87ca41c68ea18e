import Mathlib.Data.Int.Basic
import Mathlib.Data.List.Basic

/-!
# Ordered forests

A forest is a list of trees, given by its first tree and the rest.  `preorder`
lists the labels of its nodes with their depths, each node before its children
and the children before the rest.
-/

namespace PongoOS

inductive OrderedForest (α : Type) where
  | nil
  | cons (label : α) (children rest : OrderedForest α)
deriving Repr

namespace OrderedForest

variable {α : Type}

/-- How many trees there are. -/
def width : OrderedForest α → ℕ
  | nil => 0
  | cons _ _ rest => rest.width + 1

/-- How many nodes the longest path down has. -/
def height : OrderedForest α → ℕ
  | nil => 0
  | cons _ children rest => max (children.height + 1) rest.height

/-- The labels in preorder, where the roots have depth `depth`. -/
def preorder : OrderedForest α → ℤ → List (ℤ × α)
  | nil, _ => []
  | cons a children rest, depth =>
      (depth, a) :: (children.preorder (depth + 1) ++ rest.preorder depth)

/-- The labels in preorder. -/
def labels : OrderedForest α → List α
  | nil => []
  | cons a children rest => a :: (children.labels ++ rest.labels)

theorem map_snd_preorder (F : OrderedForest α) (depth : ℤ) :
    (F.preorder depth).map Prod.snd = F.labels := by
  induction F generalizing depth with
  | nil => rfl
  | cons a children rest ihc ihr =>
      rw [preorder, labels, List.map_cons, List.map_append, ihc, ihr]

end OrderedForest

end PongoOS
