import Strata.ImportGraph
import Strata.Layers
import Strata.Cleanup
import Strata.Transform.LayerBlocks

/-! A migration runs every pass over a workspace and plans the changes to files.

First the graph of imports, then the layers, then the transforms, which need the layers, then the
split, and last the cleanup. The plan is what has to be written and deleted; nothing here touches a
file. -/
namespace Strata

/-- A change to a file. -/
inductive FileChange where
  | write (path : FilePath) (contents : String)
  | delete (path : FilePath)
deriving DecidableEq, Repr

namespace FileChange

def path : FileChange → FilePath
  | write path _ => path
  | delete path => path

/-- A line about the change. -/
def line : FileChange → String
  | write path _ => "write  " ++ path.text
  | delete path => "delete " ++ path.text

end FileChange

/-- What a migration decided. -/
structure Report where
  destinations : DestinationCounts := {}
  derivations : Derivations := {}
  cleanup : Cleanup := {}
  plan : List FileChange := []

namespace Workspace

/-! ### Plans -/

/-- The printed form of the stylesheet that was loaded from a path, other than one. -/
def printLoadedFrom? (w : Workspace) (id : SheetId) (path : FilePath) : Option String :=
  (w.ids.filter (· != id)).findSome? fun other =>
    ((w.get? other).filter fun s => !s.derived && s.file == some path).map Sheet.loadedPrint

/-- The change that the state of a stylesheet asks for. A stylesheet is written when its printed form
is not the one that was loaded from its path, and one marked for deletion is deleted unless another
has its path. -/
def change? (w : Workspace) (id : SheetId) : Option FileChange := do
  let s ← w.get? id
  let path ← s.file
  if !w.holdsFile id then none
  else if s.discarded then if s.derived then none else some (.delete path)
  else
    let css := w.css id
    let present := if s.derived then w.printLoadedFrom? id path else some s.loadedPrint
    if present = some css then none else some (.write path (css ++ "\n"))

/-- The changes to files, in the order of registration. -/
def plan (w : Workspace) : List FileChange := w.ids.filterMap w.change?

/-! ### Transforms -/

/-- Runs transforms on a stylesheet. What they did before an error stays. -/
def runTransforms (w : Workspace) (settings : Settings) (ts : List Transform) (id : SheetId) :
    Workspace × Option MigrationError :=
  match w.get? id with
  | none => (w, some .unknownSheet)
  | some s =>
    let context : SheetFacts := { file := s.file, layers := s.layers, settings }
    let (doc, error) := Transform.runAll ts context s.root w.doc
    ({ w with doc }, error)

/-- Runs transforms on one stylesheet that has a file. -/
def transformFile (w : Workspace) (settings : Settings) (ts : List Transform) (id : SheetId) :
    Workspace × Option MigrationError :=
  match w.get? id with
  | none => (w, some .unknownSheet)
  | some s => if s.file.isNone then (w, some .missingFile) else w.runTransforms settings ts id

/-- Runs transforms on some stylesheets, up to the first error. -/
def transformAll (w : Workspace) (settings : Settings) (ts : List Transform) :
    List SheetId → Workspace × Option MigrationError
  | [] => (w, none)
  | id :: ids =>
    match w.runTransforms settings ts id with
    | (w, none) => transformAll w settings ts ids
    | (w, some e) => (w, some e)

/-! ### Migrations -/

/-- Runs every pass. The workspace keeps what was done before an error. -/
def migrate (w : Workspace) (settings : Settings) (ts : List Transform) (resolve : Resolution)
    (base : FilePath) : Workspace × Except MigrationError Report :=
  let (w, destinations) := w.connect resolve base
  match w.inheritLayers with
  | .error e => (w, .error e)
  | .ok (_, w) =>
    match w.transformAll settings ts w.ids with
    | (w, some e) => (w, .error e)
    | (w, none) =>
      match w.split settings with
      | .error e => (w, .error e)
      | .ok (w, derivations) =>
        let (w, cleanup) := w.cleanUp derivations
        (w, .ok { destinations, derivations, cleanup, plan := w.plan })

end Workspace

/-- A text without a file, transformed and printed. It has no importers and no file to split into. -/
def migrateText (ts : List Transform) (settings : Settings) (text : String) :
    Except MigrationError String :=
  match Css.parse text with
  | .error source => .error (.parse none source)
  | .ok trees =>
    let (root, doc) := (Forest.empty : Document).create .root
    let (_, doc) := Forest.plant doc root trees
    match Transform.runAll ts { settings } root doc with
    | (_, some e) => .error e
    | (doc, none) => .ok (Document.css doc root)

end Strata
