import Strata.Workspace.Ancestors

/-! Layers pass from a stylesheet to all it imports. -/
namespace Strata.Workspace

/-- The layers that imports of some stylesheets name. -/
def namedLayersOf (w : Workspace) (ids : List SheetId) : List String :=
  ids.flatMap fun id => ((w.get? id).map Sheet.namedLayers).getD []

/-- Every stylesheet gets the layers that imports of its ancestors name. Also gives the ancestors of
each; when the imports are cyclic nothing changes. -/
def inheritLayers (w : Workspace) : Except MigrationError (List (List SheetId) × Workspace) := do
  let table ← w.ancestorTable
  let sheets := w.sheets.mapIdx fun id s => s.inheritLayers (w.namedLayersOf (table.getD id []))
  return (table, { w with sheets })

end Strata.Workspace
