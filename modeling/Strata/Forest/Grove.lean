import Strata.Forest.Basic
import Strata.Grove

/-! Groves in a forest.

`plant` puts a grove below a node, label by label in document order; `grove` reads what is below a
node back. -/
namespace Strata.Forest

variable {α : Type}

/-- The grove becomes the last children of `parent`. The new nodes come in document order. -/
def plant (f : Forest α) (parent : NodeId) : Grove α → List NodeId × Forest α
  | .nil => ([], f)
  | .cons top below rest =>
    let (id, f) := f.append parent top
    let (inner, f) := plant f id below
    let (outer, f) := plant f parent rest
    (id :: (inner ++ outer), f)

/-- The trees of some nodes, down to a depth. -/
def groveOf (f : Forest α) : Nat → List NodeId → Grove α
  | 0, _ => .nil
  | fuel + 1, ids =>
    ids.foldr (fun id rest =>
      match f.get? id with
      | none => rest
      | some data => .cons data (groveOf f fuel (f.children id)) rest) .nil

/-- What is below a node. -/
def grove (f : Forest α) (id : NodeId) : Grove α := f.groveOf f.slots.size (f.children id)

end Strata.Forest
