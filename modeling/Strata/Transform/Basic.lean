import Strata.Document.Basic
import Strata.Error
import Strata.Settings

/-! Transforms: changes to one stylesheet.

Transforms run in a row, once the layers of the stylesheet are known and before it is split. The
first that fails ends the row, and the document stays as the ones before left it. -/
namespace Strata

/-- What a transform may know about the stylesheet. -/
structure SheetFacts where
  file : Option FilePath := none
  layers : List String := []
  settings : Settings := {}

structure Transform where
  name : String
  /-- The document with the tree below a root changed. -/
  apply : SheetFacts → NodeId → Document → Except MigrationError Document

namespace Transform

/-- Runs transforms in a row, up to the first that fails. -/
def runAll (ts : List Transform) (context : SheetFacts) (root : NodeId) (doc : Document) :
    Document × Option MigrationError :=
  match ts with
  | [] => (doc, none)
  | t :: ts =>
    match t.apply context root doc with
    | .ok doc => runAll ts context root doc
    | .error e => (doc, some e)

end Transform

end Strata
