import Strata.Document.Basic
import Strata.Path.Normal
import Strata.Sheet

/-! Workspaces: the stylesheets of one migration.

Stylesheets in the order of registration, and the document that holds their trees. A path has at most
one holder, the stylesheet that a look-up of the path finds: registration refuses a path that is
held, and a stylesheet that a path is assigned to takes it from its holder. -/
namespace Strata

structure Workspace where
  doc : Document := {}
  sheets : Array Sheet := #[]

namespace Workspace

/-! ### Reading -/

def get? (w : Workspace) (id : SheetId) : Option Sheet := w.sheets[id]?

def ids (w : Workspace) : List SheetId := List.range w.sheets.size

/-- The stylesheet with an identifier; an identifier of none is an error. -/
def sheet (w : Workspace) (id : SheetId) : Except MigrationError Sheet :=
  match w.get? id with
  | some s => .ok s
  | none => .error .unknownSheet

/-- The stylesheet that holds a path. -/
def holderOf? (w : Workspace) (path : FilePath) : Option SheetId :=
  w.sheets.findIdx? fun s => s.holdsFile && s.file == some path.normalize

/-- The stylesheet whose tree holds a node. -/
def sheetOf? (w : Workspace) (node : NodeId) : Option SheetId := do
  let root ← w.doc.root? node
  w.sheets.findIdx? (·.root == root)

/-- The printed form of a stylesheet, empty for an identifier of none. -/
def css (w : Workspace) (id : SheetId) : String :=
  match w.get? id with
  | some s => w.doc.css s.root
  | none => ""

/-- The stylesheet has a path and holds it. -/
def holdsFile (w : Workspace) (id : SheetId) : Bool :=
  (w.get? id).any fun s => s.file.isSome && s.holdsFile

/-! ### Writing -/

def modify (w : Workspace) (id : SheetId) (change : Sheet → Sheet) : Workspace :=
  { w with sheets := w.sheets.modify id change }

/-- One more stylesheet. -/
def push (w : Workspace) (s : Sheet) : SheetId × Workspace :=
  (w.sheets.size, { w with sheets := w.sheets.push s })

/-- The error for a path that is held. -/
def taken? (w : Workspace) (file : Option FilePath) : Option MigrationError := do
  let path ← file
  let _ ← w.holderOf? path
  return .duplicateFile path

/-- A text becomes a stylesheet. On an error no stylesheet is added and no node of the text stays. -/
def load (w : Workspace) (file : Option FilePath) (text : String) :
    Except MigrationError SheetId × Workspace :=
  let file := file.map FilePath.normalize
  match w.taken? file with
  | some e => (.error e, w)
  | none =>
    let (root, doc) := w.doc.create .root
    let addition := Document.addText doc root text
    match addition.error with
    | some source => (.error (.parse file source), { w with doc := addition.document.remove root })
    | none =>
      let loadedPrint := Document.css addition.document root
      let s := { Sheet.new file text root with loadedPrint }
      let (id, w) := { w with doc := addition.document }.push s
      (.ok id, w)

/-- A tree becomes a derived stylesheet. -/
def addDerived (w : Workspace) (file : FilePath) (root : NodeId) :
    Except MigrationError (SheetId × Workspace) :=
  let file := file.normalize
  match w.taken? (some file) with
  | some e => .error e
  | none => .ok (w.push { Sheet.new (some file) (w.doc.css root) root with derived := true })

/-- A stylesheet takes over a path. Another that held it keeps the path without holding it. -/
def assignFile (w : Workspace) (id : SheetId) (path : FilePath) : Except MigrationError Workspace :=
  let path := path.normalize
  match w.get? id with
  | none => .error .unknownSheet
  | some _ =>
    let sheets := w.sheets.map fun s =>
      if s.file = some path then { s with holdsFile := false } else s
    .ok ({ w with sheets }.modify id fun s => { s with file := some path, holdsFile := true })

end Workspace

end Strata
