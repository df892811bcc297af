import Strata.Css.Statement
import Strata.Css.Print
import Strata.Forest.Grove

/-! Documents: the trees of every stylesheet in one forest.

Each stylesheet has a root node. As all trees share the forest, a node can move from one stylesheet
to another and keep its identifier. -/
namespace Strata

abbrev Document := Forest Node

namespace Document

/-- The printed form of a node with all below it. Of a root only what is below it is printed. -/
def css (doc : Document) (id : NodeId) : String :=
  match doc.get? id with
  | none => ""
  | some node =>
    if node.isRoot then Css.print (doc.grove id)
    else Css.print (.cons node (doc.grove id) .nil)

/-- The outcome of reading a text into a document. -/
structure Addition where
  /-- The new nodes in document order. -/
  added : List NodeId
  document : Document
  error : Option Css.ParseError

/-- The statements of a text become the last children of `parent`. What comes before an error is
added all the same. -/
def addText (doc : Document) (parent : NodeId) (text : String) : Addition :=
  let (trees, error) := Css.read text
  let (added, document) := doc.plant parent trees
  { added, document, error }

/-- The outermost imports below a node, in document order. -/
def imports (doc : Document) (id : NodeId) : List NodeId := doc.outermost id Node.isImportRule

end Document

end Strata
