import Strata.Css.ImportParams
import Strata.Resolution.Basic
import Strata.Workspace.Basic

/-! The graph of imports.

Every outermost import of every stylesheet has a destination. One that leads to a stylesheet of the
workspace is an edge of the graph: the stylesheet it leads to keeps the import, the importer, and the
layers that the import names. -/
namespace Strata

/-- Where an import leads. -/
inductive Destination where
  | sheet (target : SheetId) (layers : List String)
  | nowhere
  /-- A file that is no stylesheet of the workspace. -/
  | outside
  /-- Its parameters have no target. -/
  | unreadable
deriving DecidableEq, Repr

/-- How many imports lead to each kind of destination. -/
structure DestinationCounts where
  sheet : Nat := 0
  nowhere : Nat := 0
  outside : Nat := 0
  unreadable : Nat := 0
deriving DecidableEq, Repr

def DestinationCounts.count (c : DestinationCounts) : Destination → DestinationCounts
  | .sheet .. => { c with sheet := c.sheet + 1 }
  | .nowhere => { c with nowhere := c.nowhere + 1 }
  | .outside => { c with outside := c.outside + 1 }
  | .unreadable => { c with unreadable := c.unreadable + 1 }

namespace Workspace

/-- Where an import in a file of `dir` leads. -/
def destination (w : Workspace) (resolve : Resolution) (dir : FilePath) (rule : NodeId) :
    Destination :=
  match (w.doc.get? rule).bind Node.params? with
  | none => .unreadable
  | some params =>
    match Css.specifier? params with
    | none => .unreadable
    | some specifier =>
      match resolve specifier dir with
      | none => .nowhere
      | some path =>
        match w.holderOf? path with
        | none => .outside
        | some target => .sheet target (Css.layerNames params)

/-- An import of `source` is kept at the stylesheet it leads to, if it leads to one. -/
def keepImport (w : Workspace) (source : SheetId) (rule : NodeId) : Destination → Workspace
  | .sheet target layers =>
    w.modify target fun s => layers.foldl Sheet.nameLayer ((s.addInbound rule).addParent source)
  | _ => w

/-- One import of a stylesheet is followed. -/
def followImport (resolve : Resolution) (source : SheetId) (dir : FilePath)
    (state : Workspace × DestinationCounts) (rule : NodeId) : Workspace × DestinationCounts :=
  let found := state.1.destination resolve dir rule
  (state.1.keepImport source rule found, state.2.count found)

/-- The imports of one stylesheet are followed. -/
def followImports (resolve : Resolution) (base : FilePath) (state : Workspace × DestinationCounts)
    (source : SheetId) : Workspace × DestinationCounts :=
  match state.1.get? source with
  | none => state
  | some s =>
    (state.1.doc.imports s.root).foldl (followImport resolve source (s.dir?.getD base)) state

/-- Every import of every stylesheet is followed. A stylesheet without a file imports as from a file
in `base`. -/
def connect (w : Workspace) (resolve : Resolution) (base : FilePath) :
    Workspace × DestinationCounts :=
  w.ids.foldl (followImports resolve base) (w, {})

end Workspace

end Strata
