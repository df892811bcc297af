import Strata.Listing

/-! Projects: stylesheets in memory, migrated as a whole.

A project registers its files in the order of their paths, resolves imports among them, migrates and
applies the plan to its own files. The result is a project again. -/
namespace Strata

structure Project where
  root : FilePath
  files : FileSet := []
  settings : Settings := {}
  transforms : List Transform := Transform.standard

namespace Project

/-- A path inside the project. -/
def path (p : Project) (inner : FilePath) : FilePath := (p.root.join inner).normalize

/-- The project with one more file. -/
def add (p : Project) (inner : FilePath) (contents : String) : Project :=
  { p with files := p.files.insert (p.path inner) contents }

/-- The contents of a file of the project. -/
def read? (p : Project) (inner : FilePath) : Option String := p.files.get? (p.path inner)

/-- The paths of the files, seen from the root. -/
def paths (p : Project) : List String := p.files.paths.map (Listing.pathFrom p.root)

/-- Every file as a stylesheet, up to the first that cannot be one. -/
def workspace (p : Project) : Except MigrationError Workspace :=
  p.files.foldlM (fun w (path, contents) =>
    match w.load (some path) contents with
    | (.ok _, w) => .ok w
    | (.error e, _) => .error e) {}

def applyChange (files : FileSet) : FileChange → FileSet
  | .write path contents => files.insert path contents
  | .delete path => files.erase path

/-- The project with the changes of a plan. -/
def apply (p : Project) (plan : List FileChange) : Project :=
  { p with files := plan.foldl applyChange p.files }

/-- A project behind a migration, and what the migration did. -/
structure Outcome where
  report : Report
  workspace : Workspace
  project : Project

def migrate (p : Project) : Except MigrationError Outcome := do
  let loaded ← p.workspace
  let (workspace, result) :=
    loaded.migrate p.settings p.transforms (Resolution.known p.files.paths) p.root
  let report ← result
  return { report, workspace, project := p.apply report.plan }

/-- Migrates again what was migrated. -/
def Outcome.again (m : Outcome) : Except MigrationError Outcome := m.project.migrate

end Project

end Strata
