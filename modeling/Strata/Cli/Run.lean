import Strata.Cli.Arguments
import Strata.Migration
import Strata.Path.Absolute
import Strata.Resolution.Package
import Strata.Settings.Reader

/-! One run of the program.

Loads the settings and the stylesheets, migrates them, and lists the plan or carries it out. The run
asks the disk for all it needs, so it is the same on a disk in memory and on the real one. -/
namespace Strata.Cli

/-- What is left of a run beside the disk. -/
structure Outcome where
  exitCode : Nat
  output : String := ""
  errors : String := ""
deriving DecidableEq, Repr

/-- Lines of output. -/
def lines (ls : List String) : String := .join (ls.map (· ++ "\n"))

/-- Why a run ends early. -/
structure Failure where
  message : String
  cause : Option String := none

namespace Failure

/-- The text for the error output. The cause stands below, each line indented. -/
def render (f : Failure) : String :=
  let cause := match f.cause with
    | none => ""
    | some cause =>
      let lines := (Text.splitAll '\n' cause.toList).map fun line => "    " ++ String.ofList line
      "\n\nCaused by:\n" ++ "\n".intercalate lines
  "Error: " ++ f.message ++ cause ++ "\n"

def ofDisk (what : String) (e : DiskError) : Failure := { message := what, cause := some e.message }

def ofMigration (e : MigrationError) : Failure := { message := e.message, cause := e.cause? }

end Failure

variable {m : Type → Type} [Monad m]

/-! ### Loading -/

def loadSettings (disk : DiskAccess m) : Option FilePath → ExceptT Failure m Settings
  | none => return {}
  | some path => do
    match ← disk.readText path with
    | .error e => throw (.ofDisk ("failed to read config " ++ path.text ++ ": " ++ e.message) e)
    | .ok text =>
      match Settings.ofToml? text with
      | some s => return s
      | none => throw { message := "failed to parse config " ++ path.text }

/-- Hidden names and packages are not searched. -/
def isSearched (name : String) : Bool := name.toList.head? != some '.' && name != "node_modules"

/-- The stylesheets below a directory, down to a depth. -/
def stylesheetsBelow (disk : DiskAccess m) : (depth : Nat) → FilePath → m (List FilePath)
  | 0, _ => return []
  | depth + 1, dir => do
    let names := (← disk.names dir).filter isSearched
    let found ← names.mapM fun name => do
      let path := dir.join ⟨name⟩
      if ← disk.isDirectory path then stylesheetsBelow disk depth path
      else if path.extension? == some "css" && (← disk.isFile path) then return [path]
      else return []
    return found.flatten

/-- More than the directories that a path can name, one below the other. -/
def searchDepth : Nat := 4096

/-- The stylesheets that an argument stands for: itself, or those below it. -/
def stylesheetsOf (disk : DiskAccess m) (cwd argument : FilePath) : m (List FilePath) := do
  let path := cwd.absolute argument
  if ← disk.isDirectory path then stylesheetsBelow disk searchDepth path else return [path]

/-- The paths without those that equal the one before. -/
def dropRepeats : List FilePath → List FilePath
  | [] => []
  | p :: ps =>
    match dropRepeats ps with
    | [] => [p]
    | q :: qs => if p.same q then p :: qs else p :: q :: qs

/-- All stylesheets to migrate, each once, in order. -/
def collect (disk : DiskAccess m) (cwd : FilePath) (arguments : List FilePath) :
    m (List FilePath) := do
  let found ← arguments.mapM (stylesheetsOf disk cwd)
  return dropRepeats (found.flatten.mergeSort fun p q => !q.before p)

def loadSheet (disk : DiskAccess m) (w : Workspace) (path : FilePath) :
    ExceptT Failure m Workspace := do
  match ← disk.readText path with
  | .error e => throw (.ofDisk ("Failed to read file: " ++ path.text) e)
  | .ok text =>
    match w.load (some path) text with
    | (.ok _, w) => return w
    | (.error e, _) => throw (.ofMigration e)

/-! ### Resolving -/

/-- The specifiers of all imports with the directories they start from. -/
def specifiers (w : Workspace) (base : FilePath) : List (String × FilePath) :=
  w.sheets.toList.flatMap fun s =>
    (w.doc.imports s.root).filterMap fun rule => do
      let params ← (w.doc.get? rule).bind Node.params?
      return (← Css.specifier? params, s.dir?.getD base)

/-- The fields of a manifest that name a stylesheet. -/
def manifestFields : List String := ["style"]

/-- A resolution that knows where each import leads on the disk. -/
def resolution (disk : DiskAccess m) (w : Workspace) (base : FilePath) : m Resolution := do
  let table ← (specifiers w base).mapM fun query => do
    return (query, ← Resolution.onDisk disk manifestFields query.1 query.2)
  return fun specifier dir => (table.lookup (specifier, dir)).join

/-! ### Running -/

def carryOut (disk : DiskAccess m) : FileChange → ExceptT Failure m Unit
  | .write path contents => do
    match ← disk.write path contents with
    | .error e => throw (.ofDisk ("Failed to write file: " ++ path.text) e)
    | .ok _ => return
  | .delete path => do
    match ← disk.delete path with
    | .error e => throw (.ofDisk ("Failed to delete file: " ++ path.text) e)
    | .ok _ => return

/-- Migrates and gives what to print. -/
def migrate (disk : DiskAccess m) (cwd : FilePath) (o : Options) : ExceptT Failure m String := do
  let settings ← loadSettings disk o.config
  let files ← ExceptT.lift (collect disk cwd o.paths)
  let w ← files.foldlM (loadSheet disk) {}
  let resolve ← ExceptT.lift (resolution disk w cwd)
  match w.migrate settings Transform.standard resolve cwd with
  | (_, .error e) => throw (.ofMigration e)
  | (_, .ok report) =>
    if o.dryRun then return lines (report.plan.map FileChange.line)
    else
      report.plan.forM (carryOut disk)
      return ""

/-- What `--help` prints; the program goes by the name `layersplit`. -/
def helpText : String := lines
  ["Move utility definitions out of layered stylesheets into sibling files",
    "",
    "Usage: layersplit [OPTIONS] <PATHS>...",
    "",
    "Arguments:",
    "  <PATHS>...  Stylesheets or directories to migrate. Directories are searched for \x60.css\x60 files recursively",
    "",
    "Options:",
    "  -c, --config <CONFIG>  TOML config file",
    "      --dry-run          Print the planned writes and deletes without touching any file",
    "  -v, --verbose          Log migration decisions",
    "  -h, --help             Print help"]

def usageText : String := lines
  ["error: the arguments are not understood", "", "For more information, try '--help'."]

/-- Runs the program with some arguments in the directory `cwd`. -/
def run (disk : DiskAccess m) (cwd : FilePath) (arguments : List String) : m Outcome := do
  match request? {} arguments with
  | none => return { exitCode := 2, errors := usageText }
  | some .help => return { exitCode := 0, output := helpText }
  | some (.migrate o) =>
    match ← (migrate disk cwd o).run with
    | .ok output => return { exitCode := 0, output }
    | .error f => return { exitCode := 1, errors := f.render }

end Strata.Cli
