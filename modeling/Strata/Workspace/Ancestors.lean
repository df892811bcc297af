import Strata.Workspace.Basic

/-! Ancestors of stylesheets: the parents, their parents, and so on.

The search goes from child to parent and remembers the path it came by. A parent on that path closes
a cycle of imports, and the error names the stylesheets on it in the order in which they import one
another. A path holds no stylesheet twice, so its length bounds the search. -/
namespace Strata.Workspace

/-- The files on the cycle that `parent` closes, when `path` leads to it from the last of its
members. -/
def cycle (w : Workspace) (path : List SheetId) (parent : SheetId) : List (Option FilePath) :=
  (parent :: (path.takeWhile (· != parent) ++ [parent])).map fun id => (w.get? id).bind Sheet.file

/-- Meets a parent of the first stylesheet on `path`. One not seen before is added to `seen`, and
`onward` goes on from it. -/
def meet (w : Workspace)
    (onward : (path parents seen : List SheetId) → Except MigrationError (List SheetId))
    (path seen : List SheetId) (parent : SheetId) : Except MigrationError (List SheetId) :=
  if parent ∈ path then .error (.importCycle (w.cycle path parent))
  else if parent ∈ seen then .ok seen
  else
    match w.sheet parent with
    | .error e => .error e
    | .ok s => onward (parent :: path) s.parents (seen ++ [parent])

/-- Visits some parents of the first stylesheet on `path`, and all above them, and adds those not
seen before to `seen`. -/
def climb (w : Workspace) :
    (fuel : Nat) → (path parents seen : List SheetId) → Except MigrationError (List SheetId)
  | 0, path, parents, seen => parents.foldlM (w.meet (fun _ _ _ => .error .unknownSheet) path) seen
  | fuel + 1, path, parents, seen => parents.foldlM (w.meet (w.climb fuel) path) seen

/-- The ancestors of a stylesheet, each once, those nearest along the first parents first. -/
def ancestors (w : Workspace) (id : SheetId) : Except MigrationError (List SheetId) := do
  let s ← w.sheet id
  w.climb w.sheets.size [id] s.parents []

/-- The ancestors of every stylesheet, in the order of registration. -/
def ancestorTable (w : Workspace) : Except MigrationError (List (List SheetId)) :=
  w.ids.mapM w.ancestors

end Strata.Workspace
