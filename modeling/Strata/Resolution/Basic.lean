import Strata.Path.Normal
import Strata.Text.Caseless

/-! Resolution of import specifiers.

A specifier and the directory of the importing file lead to a path, if they lead anywhere. A
specifier is external, or a path, or the name of something in a package. A path may leave out
the extension of a stylesheet, or name the directory of an index. -/
namespace Strata

/-- What a specifier in a file of a directory leads to. -/
abbrev Resolution := (specifier : String) → (dir : FilePath) → Option FilePath

namespace Resolution

/-- Leads away from all files. -/
def isExternal (specifier : String) : Bool :=
  ["http:", "https:", "data:", "//"].any fun scheme =>
    (Text.afterCaseless? scheme.toList specifier.toList).isSome

/-- Leads from the directory of the importing file, or from the root. -/
def isPath (specifier : String) : Bool :=
  specifier == "." || specifier == ".." ||
    [['.', '/'], ['.', '.', '/'], ['/']].any fun head => head.isPrefixOf specifier.toList

/-- The files that a path may mean, the likeliest first. -/
def variants (p : FilePath) : List FilePath :=
  let inferred := if p.extension?.isNone then [⟨p.text ++ ".css"⟩] else []
  p :: (inferred ++ [p.join ⟨"index.css"⟩])

/-- The paths that a specifier may mean when only paths count. -/
def pathVariants (specifier : String) (dir : FilePath) : List FilePath :=
  if specifier.isEmpty || isExternal specifier || !isPath specifier then []
  else variants (dir.join ⟨specifier⟩)

/-- The resolution that knows some files by their normal paths, and no packages. -/
def known (files : List FilePath) : Resolution := fun specifier dir =>
  ((pathVariants specifier dir).map FilePath.normalize).find? (files.map FilePath.normalize).contains

/-- The name of a package, two names when the first is a scope, and the path inside the package. -/
def packageParts (specifier : String) : String × Option String :=
  let names := (Text.splitAll '/' specifier.toList)
  let count := if specifier.toList.head? = some '@' then 2 else 1
  let inner := ['/'].intercalate (names.drop count)
  (.ofList (['/'].intercalate (names.take count)),
    if inner.isEmpty then none else some (.ofList inner))

end Resolution

end Strata
