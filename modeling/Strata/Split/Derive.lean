import Strata.Path.Specifier
import Strata.Split.Decision

/-! The split: utilities move into derived stylesheets.

A donor is a stylesheet that is split. Its utilities move, in their order, into a stylesheet beside
it, named after the specifier of the first import of the donor; donors whose names lead to one path
share it, the utilities of the later one in front. Then every import of a donor gets a companion,
which names the derived stylesheet and nothing else: directly behind it, or in front of the utilities
of the importer when those have moved to a derived stylesheet of their own. -/
namespace Strata

/-- The stylesheets that were split, each with its derived stylesheet, in the order of splitting. -/
structure Derivations where
  pairs : List (SheetId × SheetId) := []
deriving DecidableEq, Repr

namespace Derivations

/-- The stylesheet that has the utilities of a donor. -/
def of? (d : Derivations) (donor : SheetId) : Option SheetId := d.pairs.lookup donor

/-- The derived stylesheets, in the order in which they were made. -/
def sheets (d : Derivations) : List SheetId :=
  d.pairs.foldl (fun ids (_, id) => if ids.contains id then ids else ids ++ [id]) []

def isEmpty (d : Derivations) : Bool := d.pairs.isEmpty

/-- One more donor, split last. -/
def push (d : Derivations) (donor derived : SheetId) : Derivations :=
  ⟨d.pairs ++ [(donor, derived)]⟩

end Derivations

namespace Workspace

/-! ### Paths of derived stylesheets -/

/-- The last name in the specifier of the first import that has a proper one. -/
def nameFromImports? (w : Workspace) (donor : SheetId) : Option String :=
  let names := (w.authoredImports donor).filterMap fun rule =>
    ((w.doc.get? rule).bind Node.params?).bind Css.specifier? |>.map FilePath.specifierName
  names.find? fun name => name != "" && name != "." && name != ".."

/-- Where the utilities of a donor go. -/
inductive Seat where
  | fresh (path : FilePath)
  /-- To a stylesheet that was derived just before. -/
  | shared (derived : SheetId)

/-- The path for the derived stylesheet of a file, when `attempt` names were taken before. -/
def derivedPath (settings : Settings) (file : FilePath) (name : String) (attempt : Nat) : FilePath :=
  (file.parent?.getD ⟨""⟩).join
    ⟨FilePath.derivedName name settings.suffix file.extension? attempt⟩

/-- What a path is good for: it was given out in this split, or it is free, or neither. -/
def seatAt? (w : Workspace) (made : List (FilePath × SheetId)) (path : FilePath) : Option Seat :=
  match made.find? fun (other, _) => other.same path with
  | some (_, derived) => some (.shared derived)
  | none => if (w.holderOf? path).isNone then some (.fresh path) else none

/-- The place for the utilities of a donor: the first of its names that is not taken. There are
more names to try than paths to take. -/
def seatFor (w : Workspace) (settings : Settings) (made : List (FilePath × SheetId))
    (donor : SheetId) : Except MigrationError Seat := do
  let s ← w.sheet donor
  match s.file with
  | none => .error .missingFile
  | some file =>
    let name := (w.nameFromImports? donor).getD (file.fileName?.getD "")
    let attempts := List.range (w.sheets.size + 1)
    let pathOf := derivedPath settings file name
    match attempts.findSome? fun attempt => w.seatAt? made (pathOf attempt) with
    | some seat => .ok seat
    | none => .error (.duplicateFile (pathOf 0))

/-! ### Moving utilities -/

/-- What a split has done so far. -/
structure SplitState where
  workspace : Workspace
  derivations : Derivations := {}
  /-- The paths of the derived stylesheets. -/
  made : List (FilePath × SheetId) := []

/-- Some nodes become the children of a new root, and that a derived stylesheet. -/
def deriveNew (w : Workspace) (path : FilePath) (nodes : List NodeId) :
    Except MigrationError (SheetId × Workspace) :=
  let (root, doc) := w.doc.create .root
  let doc := nodes.foldl (fun doc node => doc.moveLast node root) doc
  { w with doc }.addDerived path root

/-- Some nodes become the first children of a stylesheet's root. -/
def deriveShared (w : Workspace) (derived : SheetId) (nodes : List NodeId) :
    Except MigrationError Workspace := do
  let s ← w.sheet derived
  let doc := nodes.zipIdx.foldl (fun doc (node, index) => doc.move node s.root index) w.doc
  let w := { w with doc }
  return w.modify derived fun s => { s with content := w.css derived }

/-- The utilities of a donor move to its derived stylesheet. -/
def splitSheet (settings : Settings) (state : SplitState) (donor : SheetId) :
    Except MigrationError SplitState := do
  let w := state.workspace
  let nodes := w.utilities settings donor
  match ← w.seatFor settings state.made donor with
  | .fresh path =>
    let (derived, w) ← w.deriveNew path nodes
    return { workspace := w
             derivations := state.derivations.push donor derived
             made := (path, derived) :: state.made }
  | .shared derived =>
    let w ← w.deriveShared derived nodes
    return { state with workspace := w, derivations := state.derivations.push donor derived }

/-! ### Companions of imports -/

/-- An import added before, with these parameters, directly below a node. -/
def addedImport? (doc : Document) (container : NodeId) (params : String) : Option NodeId :=
  (doc.children container).find? fun child =>
    (doc.get? child).any fun n => n.isAdded && n.isImportRule && n.params? == some params

/-- An import at the end of the imports that a root starts with, unless it is there. -/
def importInHost (doc : Document) (root : NodeId) (node : Node) (params : String) :
    NodeId × Document :=
  match addedImport? doc root params with
  | some present => (present, doc)
  | none =>
    let leading := (doc.children root).takeWhile fun child => (doc.get? child).any Node.isImportRule
    doc.insertChild root leading.length node

/-- An import directly behind another, unless it is among its siblings. -/
def importBeside? (doc : Document) (rule : NodeId) (node : Node) (params : String) :
    Option (NodeId × Document) := do
  let container ← doc.parent? rule
  match addedImport? doc container params with
  | some present => return (present, doc)
  | none => doc.addAfter? rule node

/-- One import of a donor gets its companion. -/
def addCompanion (derivations : Derivations) (donor derived : SheetId) (target : FilePath)
    (w : Workspace) (rule : NodeId) : Workspace :=
  let result : Option Workspace := do
    let importer ← w.sheetOf? rule
    let written ← (w.doc.get? rule).bind Node.params?
    let specifier ← Css.specifier? written
    let host := (derivations.of? importer).filter (· != derived)
    let owner := host.getD importer
    let ownerSheet ← w.get? owner
    let params := Css.plainImport (FilePath.specifierInImport ownerSheet.dir? target specifier)
      (Css.importQuote written)
    let node := Node.addedImport params { sheet := donor, specifier }
    let (companion, doc) ← match host with
      | some _ => some (importInHost w.doc ownerSheet.root node params)
      | none => importBeside? w.doc rule node params
    return { w with doc }.modify derived fun s => (s.addInbound companion).addParent owner
  result.getD w

/-- Every import of a donor gets its companion. -/
def addCompanions (derivations : Derivations) (w : Workspace) (pair : SheetId × SheetId) :
    Except MigrationError Workspace := do
  let s ← w.sheet pair.2
  match s.file with
  | none => .error .missingFile
  | some target =>
    return (w.authoredImports pair.1).foldl (addCompanion derivations pair.1 pair.2 target) w

/-- Splits every stylesheet that is to be split. Which ones that are is settled before anything
moves. -/
def split (w : Workspace) (settings : Settings) :
    Except MigrationError (Workspace × Derivations) := do
  let state ← (w.donors settings).foldlM (splitSheet settings) { workspace := w }
  let w ← state.derivations.pairs.foldlM (addCompanions state.derivations) state.workspace
  return (w, state.derivations)

end Workspace

end Strata
