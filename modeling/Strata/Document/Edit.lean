import Strata.Document.Basic

/-! Edits of a document.

An edit is refused when it names a parent, or a node to be moved or changed, that does not live, and
when it would move a node to a place below itself. All other edits keep a document a forest. A node
named for removal, or as the neighbour of a new one, need not live. -/
namespace Strata.Document

inductive Edit where
  /-- A new node without a parent. -/
  | create (data : Node)
  /-- A new last child. -/
  | append (parent : NodeId) (data : Node)
  | insertChild (parent : NodeId) (index : Nat) (data : Node)
  | addBefore (sibling : NodeId) (data : Node)
  | addAfter (sibling : NodeId) (data : Node)
  | remove (id : NodeId)
  | move (id parent : NodeId) (index : Nat)
  /-- A move behind the children that `parent` has. -/
  | moveLast (id parent : NodeId)
  /-- The statements of a text become the last children. -/
  | addText (parent : NodeId) (text : String)
  | withParams (id : NodeId) (params : String)
deriving Repr

inductive Refusal where
  | parent
  | node
  | ownSubtree
deriving DecidableEq, Repr

/-- What an edit did beside changing the document. -/
structure Edited where
  document : Document
  /-- The new nodes in document order. -/
  added : List NodeId := []
  /-- The node that was removed. -/
  removed : Option Node := none
  /-- Why not all of a text was added. -/
  error : Option Css.ParseError := none

namespace Edit

def refuseParent (doc : Document) (parent : NodeId) : Option Refusal :=
  if doc.contains parent then none else some .parent

def refuseMove (doc : Document) (id parent : NodeId) : Option Refusal :=
  if !doc.contains id then some .node
  else if !doc.contains parent then some .parent
  else if (doc.lineage parent).contains id then some .ownSubtree
  else none

/-- Why a document refuses an edit, if it does. -/
def refusal? (doc : Document) : Edit → Option Refusal
  | append parent _ | insertChild parent _ _ | addText parent _ => refuseParent doc parent
  | move id parent _ | moveLast id parent => refuseMove doc id parent
  | withParams id _ => if doc.contains id then none else some .node
  | create _ | addBefore _ _ | addAfter _ _ | remove _ => none

/-- The effect of an edit that is not refused. -/
def perform (doc : Document) : Edit → Edited
  | create data => one (doc.create data)
  | append parent data => one (Forest.append doc parent data)
  | insertChild parent index data => one (doc.insertChild parent index data)
  | addBefore sibling data => ((doc.addBefore? sibling data).map one).getD { document := doc }
  | addAfter sibling data => ((doc.addAfter? sibling data).map one).getD { document := doc }
  | remove id => { document := doc.remove id, removed := doc.get? id }
  | move id parent index => { document := Forest.move doc id parent index }
  | moveLast id parent => { document := doc.moveLast id parent }
  | addText parent text =>
    let addition := doc.addText parent text
    { document := addition.document, added := addition.added, error := addition.error }
  | withParams id params => { document := doc.update id (Node.withParams params) }
where
  one (created : NodeId × Document) : Edited := { document := created.2, added := [created.1] }

/-- The effect of an edit, or why it is refused. -/
def apply (doc : Document) (e : Edit) : Except Refusal Edited :=
  match e.refusal? doc with
  | some r => .error r
  | none => .ok (e.perform doc)

end Edit

end Strata.Document
