import Strata.Disk.Access
import Strata.Json
import Strata.Resolution.Basic

/-! Resolution on a disk.

Paths are looked up as they are. The name of a package is looked up in the directory `node_modules`
of the importing file's directory and of every directory above it. A package gives its stylesheet in
a field of its manifest, or has an index. -/
namespace Strata.Resolution

variable {m : Type → Type} [Monad m]

/-- The first file that a path may mean, as a normal path. -/
def firstPresent (disk : DiskAccess m) (p : FilePath) : m (Option FilePath) := do
  return (← (variants p).findM? disk.isFile).map FilePath.normalize

/-- The entry that a manifest gives in the first of some fields that holds a string. -/
def manifestStylesheet? (fields : List String) (manifest : String) : Option String := do
  let j ← Json.parse? manifest
  fields.findSome? fun field => (j.member? field).bind Json.string?

/-- The stylesheet that the manifest of a package leads to. -/
def packageStylesheet (disk : DiskAccess m) (fields : List String) (package : FilePath) :
    m (Option FilePath) := do
  match ← disk.readText (package.join ⟨"package.json"⟩) with
  | .error _ => return none
  | .ok manifest =>
    match manifestStylesheet? fields manifest with
    | none => return none
    | some entry => firstPresent disk (package.join ⟨entry⟩)

/-- What a specifier leads to in one package, given the path inside it. -/
def inPackage (disk : DiskAccess m) (fields : List String) (package : FilePath)
    (inner : Option String) : m (Option FilePath) := do
  if !(← disk.isDirectory package) then return none
  match inner with
  | some inner => firstPresent disk (package.join ⟨inner⟩)
  | none =>
    match ← packageStylesheet disk fields package with
    | some found => return some found
    | none => firstPresent disk (package.join ⟨"index.css"⟩)

/-- What a specifier leads to on a disk. Manifests name their stylesheets in `fields`. -/
def onDisk (disk : DiskAccess m) (fields : List String) (specifier : String) (dir : FilePath) :
    m (Option FilePath) := do
  if specifier.isEmpty || isExternal specifier then return none
  else if isPath specifier then firstPresent disk (dir.join ⟨specifier⟩)
  else
    let (name, inner) := packageParts specifier
    dir.ancestors.findSomeM? fun above =>
      inPackage disk fields ((above.join ⟨"node_modules"⟩).join ⟨name⟩) inner

end Strata.Resolution
