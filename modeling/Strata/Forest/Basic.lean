/-! Forests of nodes.

A forest holds every node of every tree in numbered slots. A node is known by its slot and by a
version that tells it from earlier tenants of that slot, so an identifier stays valid while its node
lives, wherever it moves, and means nothing afterwards. Slots are reused, the one freed last first:
identifiers therefore follow creation only as long as nothing is removed. -/
namespace Strata

structure NodeId where
  slot : Nat
  version : Nat
deriving DecidableEq, Repr

namespace NodeId

/-- The order of identifiers: by slot, then by version. -/
def before (a b : NodeId) : Bool := a.slot < b.slot || (a.slot == b.slot && a.version < b.version)

end NodeId

/-- A live node. -/
structure Forest.Entry (α : Type) where
  version : Nat
  data : α
  parent : Option NodeId
  children : List NodeId
deriving Repr

structure Forest (α : Type) where
  slots : Array (Option (Forest.Entry α)) := #[]
  /-- Identifiers for the free slots, the one that is given out next first. -/
  free : List NodeId := []
deriving Repr

namespace Forest

variable {α : Type}

def empty : Forest α := {}

/-! ### Reading -/

def entry? (f : Forest α) (id : NodeId) : Option (Entry α) :=
  (f.slots[id.slot]?.join).filter (·.version == id.version)

def get? (f : Forest α) (id : NodeId) : Option α := (f.entry? id).map Entry.data

/-- The identifier belongs to a node that lives. -/
def contains (f : Forest α) (id : NodeId) : Bool := (f.entry? id).isSome

def parent? (f : Forest α) (id : NodeId) : Option NodeId := (f.entry? id).bind Entry.parent

/-- The nodes directly below, in order. A node that does not live has none. -/
def children (f : Forest α) (id : NodeId) : List NodeId :=
  ((f.entry? id).map Entry.children).getD []

/-- The place of a node among the nodes below its parent. -/
def index? (f : Forest α) (id : NodeId) : Option Nat := do
  let parent ← f.parent? id
  (f.children parent).idxOf? id

/-- The number of live nodes. -/
def size (f : Forest α) : Nat := f.slots.countP Option.isSome

/-! ### Writing -/

/-- The forest with the entry of a live node changed. -/
def modify (f : Forest α) (id : NodeId) (change : Entry α → Entry α) : Forest α :=
  match f.entry? id with
  | some e => { f with slots := f.slots.setIfInBounds id.slot (some (change e)) }
  | none => f

/-- The forest with the data of a live node changed. -/
def update (f : Forest α) (id : NodeId) (change : α → α) : Forest α :=
  f.modify id fun e => { e with data := change e.data }

/-- A new node without a parent. -/
def create (f : Forest α) (data : α) : NodeId × Forest α :=
  match f.free with
  | id :: free =>
    (id, { slots := f.slots.setIfInBounds id.slot (some ⟨id.version, data, none, []⟩), free })
  | [] => (⟨f.slots.size, 0⟩, { f with slots := f.slots.push (some ⟨0, data, none, []⟩) })

/-- The forest without one node: its slot is free, with the next version. -/
def release (f : Forest α) (id : NodeId) : Forest α :=
  match f.entry? id with
  | some _ =>
    { slots := f.slots.setIfInBounds id.slot none
      free := ⟨id.slot, id.version + 1⟩ :: f.free }
  | none => f

/-- A node without a parent becomes the child of `parent` at `index`, or its last child when there
are fewer. -/
def attach (f : Forest α) (id parent : NodeId) (index : Nat) : Forest α :=
  if f.contains parent then
    let f := f.modify parent fun e =>
      { e with children := e.children.insertIdx (min index e.children.length) id }
    f.modify id fun e => { e with parent := some parent }
  else f

/-- A node loses its parent and keeps what is below it. -/
def detach (f : Forest α) (id : NodeId) : Forest α :=
  match f.parent? id with
  | none => f
  | some parent =>
    let f := f.modify id fun e => { e with parent := none }
    f.modify parent fun e => { e with children := e.children.filter (· != id) }

/-- A new child of `parent` at `index`. -/
def insertChild (f : Forest α) (parent : NodeId) (index : Nat) (data : α) : NodeId × Forest α :=
  let (id, f) := f.create data
  (id, f.attach id parent index)

/-- A new last child of `parent`. -/
def append (f : Forest α) (parent : NodeId) (data : α) : NodeId × Forest α :=
  f.insertChild parent (f.children parent).length data

/-- A new node directly before a sibling; none when that has no parent. -/
def addBefore? (f : Forest α) (sibling : NodeId) (data : α) : Option (NodeId × Forest α) := do
  let parent ← f.parent? sibling
  let index ← f.index? sibling
  return f.insertChild parent index data

/-- A new node directly behind a sibling; none when that has no parent. -/
def addAfter? (f : Forest α) (sibling : NodeId) (data : α) : Option (NodeId × Forest α) := do
  let parent ← f.parent? sibling
  let index ← f.index? sibling
  return f.insertChild parent (index + 1) data

/-- A node moves with all below it and becomes the child of `parent` at `index`, counted without the
node itself. -/
def move (f : Forest α) (id parent : NodeId) (index : Nat) : Forest α :=
  (f.detach id).attach id parent index

/-- A node moves behind the children that `parent` has. -/
def moveLast (f : Forest α) (id parent : NodeId) : Forest α :=
  f.move id parent (f.children parent).length

/-! ### Traversal

In a forest no node is met twice on the way down, so the number of slots bounds every walk. -/

/-- The nodes that a walk meets when `stack` holds those to be met next: each live node of the
stack, then what is below it, unless `skip` holds of it. -/
def walkStack (f : Forest α) (skip : NodeId → α → Bool) : Nat → List NodeId → List NodeId
  | 0, _ => []
  | _, [] => []
  | fuel + 1, id :: stack =>
    match f.get? id with
    | none => walkStack f skip fuel stack
    | some data =>
      id :: walkStack f skip fuel (if skip id data then stack else f.children id ++ stack)

/-- The nodes below `start` in document order, without those below a node that `skip` holds of. -/
def walk (f : Forest α) (start : NodeId) (skip : NodeId → α → Bool) : List NodeId :=
  walkStack f skip f.slots.size (f.children start)

/-- The nodes below `start` in document order. -/
def below (f : Forest α) (start : NodeId) : List NodeId := f.walk start fun _ _ => false

/-- The outermost nodes below `start` that `p` holds of, in document order. -/
def outermost (f : Forest α) (start : NodeId) (p : α → Bool) : List NodeId :=
  (f.walk start fun _ data => p data).filter fun id => (f.get? id).any p

/-- A node and the nodes above it, the nearest first. -/
def upward (f : Forest α) : Nat → NodeId → List NodeId
  | 0, id => [id]
  | fuel + 1, id =>
    match f.parent? id with
    | none => [id]
    | some parent => id :: upward f fuel parent

/-- A node and the nodes above it, the nearest first. -/
def lineage (f : Forest α) (id : NodeId) : List NodeId := f.upward f.slots.size id

/-- The topmost node above a live node, or the node itself. -/
def root? (f : Forest α) (id : NodeId) : Option NodeId :=
  if f.contains id then (f.lineage id).getLast? else none

/-- The nodes in the order in which the removal of some nodes frees them: each node before what is
below it, the last child first. -/
def removalOrder (f : Forest α) : Nat → List NodeId → List NodeId
  | 0, _ => []
  | _, [] => []
  | fuel + 1, id :: stack => id :: removalOrder f fuel ((f.children id).reverse ++ stack)

/-- The forest without a node and without all below it. -/
def remove (f : Forest α) (id : NodeId) : Forest α :=
  if f.contains id then
    (f.removalOrder f.slots.size [id]).foldl release (f.detach id)
  else f

end Forest

end Strata
