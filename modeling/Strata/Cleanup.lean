import Strata.Split.Derive

/-! Cleanup: emptied stylesheets go.

A stylesheet that had content and prints as nothing is marked for deletion, and its imports are
removed. That may empty the importers, so passes repeat until one marks nothing. Then a derived
stylesheet whose donor is to be deleted takes over the path of the donor, and its imports name
that path. -/
namespace Strata

/-- What a cleanup changed. -/
structure Cleanup where
  /-- The stylesheets marked for deletion, in the order of marking. -/
  discarded : List SheetId := []
  /-- The derived stylesheets that took over a path. -/
  promoted : List SheetId := []
  /-- The number of passes, the last of which found nothing. -/
  passes : Nat := 0
deriving DecidableEq, Repr

namespace Workspace

/-! ### Emptied stylesheets -/

def isBlankText (s : String) : Bool := s.toList.all Text.isBlank

/-- Had content and prints as nothing. -/
def isEmptied (w : Workspace) (id : SheetId) : Bool :=
  (w.get? id).any fun s => !s.discarded && !isBlankText s.content && isBlankText (w.css id)

/-- A stylesheet is marked for deletion and its imports are removed. -/
def discard (w : Workspace) (id : SheetId) : Workspace :=
  match w.get? id with
  | none => w
  | some s =>
    let doc := s.inbound.foldl (fun doc rule => doc.remove rule) w.doc
    { w with doc }.modify id fun s => { s with discarded := true, inbound := [] }

/-- Passes until one finds nothing. Each of the others marks a stylesheet, which bounds them. -/
def discardEmptied : Nat → Workspace → Cleanup → Workspace × Cleanup
  | 0, w, done => (w, done)
  | fuel + 1, w, done =>
    let done := { done with passes := done.passes + 1 }
    match w.ids.filter w.isEmptied with
    | [] => (w, done)
    | emptied =>
      discardEmptied fuel (emptied.foldl discard w)
        { done with discarded := done.discarded ++ emptied }

/-! ### Vacated paths -/

/-- An import of a derived stylesheet names the path of a donor that it takes over. One added
beside an import of that donor gets the specifier of that import. -/
def readdress (donor : SheetId) (file : FilePath) (w : Workspace) (rule : NodeId) : Workspace :=
  let changed : Option String := do
    let node ← w.doc.get? rule
    let params ← node.params?
    let current ← Css.specifier? params
    let computed :=
      let dir := ((w.sheetOf? rule).bind w.get?).bind Sheet.dir?
      FilePath.specifierInImport dir file current
    let specifier := match node.origin with
      | some origin => if origin.sheet = donor then origin.specifier else computed
      | none => computed
    Css.replaceTarget? params specifier
  match changed with
  | none => w
  | some params => { w with doc := w.doc.update rule (Node.withParams params) }

/-- A derived stylesheet takes over the path of its donor when that is to be deleted, unless it
took over another before. -/
def takeOver (state : Workspace × Cleanup) (pair : SheetId × SheetId) :
    Workspace × Cleanup :=
  let (w, done) := state
  let (donor, derived) := pair
  match w.get? donor, w.get? derived with
  | some o, some d =>
    match o.file with
    | none => state
    | some file =>
      if o.discarded && !d.discarded && !done.promoted.contains derived then
        let w := d.inbound.foldl (readdress donor file) w
        match w.assignFile derived file with
        | .error _ => state
        | .ok w => (w, { done with promoted := done.promoted ++ [derived] })
      else state
  | _, _ => state

/-- Emptied stylesheets go, and the derived ones take over their paths. -/
def cleanUp (w : Workspace) (derivations : Derivations) : Workspace × Cleanup :=
  derivations.pairs.foldl takeOver (w.discardEmptied (w.sheets.size + 1) {})

end Workspace

end Strata
