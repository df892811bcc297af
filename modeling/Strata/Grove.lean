/-! Ordered groves of labelled trees.

A grove is a list of trees, given by the label of its first tree, the grove below that label and the
remaining trees. One recursion covers both directions. -/
namespace Strata

inductive Grove (α : Type) where
  | nil
  | cons (top : α) (below rest : Grove α)
deriving DecidableEq, Repr

namespace Grove

variable {α : Type}

/-- The number of labels. -/
def size : Grove α → Nat
  | nil => 0
  | cons _ below rest => below.size + rest.size + 1

/-- The labels in document order, each with its depth. -/
def leveled (depth : Nat) : Grove α → List (α × Nat)
  | nil => []
  | cons top below rest => (top, depth) :: (below.leveled (depth + 1) ++ rest.leveled depth)

/-- The labels in document order. -/
def labels : Grove α → List α
  | nil => []
  | cons top below rest => top :: (below.labels ++ rest.labels)

theorem labels_eq_leveled (g : Grove α) (depth : Nat) :
    (g.leveled depth).map Prod.fst = g.labels := by
  induction g generalizing depth with
  | nil => rfl
  | cons top below rest ihb ihr => simp [leveled, labels, ihb, ihr]

end Grove

end Strata
