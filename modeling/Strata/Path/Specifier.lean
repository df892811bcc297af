import Strata.Path.Normal

/-! Specifiers and names of files.

A specifier is the text that leads from a directory to a file. Here are the relative specifier
between two paths, the specifier that an importer uses, and the name of a file derived from
another. -/
namespace Strata.FilePath

/-- The length of the longest common start of two lists. -/
def commonLength : List Component → List Component → Nat
  | a :: as, b :: bs => if a = b then commonLength as bs + 1 else 0
  | _, _ => 0

/-- The text of a path with slashes for backslashes. -/
def slashed (p : FilePath) : String := p.text.map fun c => if c = '\\' then '/' else c

/-- The specifier that leads from a directory to a path: two dots for every directory to leave, then
the names to enter, and a dot in front unless the whole starts with two dots. From an absolute
directory nothing leads to a relative path, whose own text then stands. -/
def specifierTo (dir target : FilePath) : String :=
  let fromParts := dir.normalComponents
  let toParts := target.normalComponents
  if fromParts.head? ≠ toParts.head? ∧ dir.isAbsolute = true then target.normalize.slashed
  else
    let common := commonLength fromParts toParts
    let ups := List.replicate (fromParts.length - common) ".."
    let joined := "/".intercalate (ups ++ (toParts.drop common).map Component.text)
    if joined.toList.take 2 = ['.', '.'] then joined else "./" ++ joined

/-- The specifier that an importer in `dir` uses for `target`. Without a directory it is `sibling`, a
specifier of some file beside `target`, with its last name exchanged. -/
def specifierInImport (dir : Option FilePath) (target : FilePath) (sibling : String) : String :=
  match dir with
  | some dir => specifierTo dir target
  | none =>
    let name := target.fileName?.getD ""
    match Text.splitLast? '/' (Text.dropEndChar '/' sibling.toList) with
    | some (head, _) => .ofList head ++ "/" ++ name
    | none => name

/-- The last name in a specifier. -/
def specifierName (specifier : String) : String :=
  let trimmed := Text.dropEndChar '/' specifier.toList
  match Text.splitLast? '/' trimmed with
  | some (_, name) => .ofList name
  | none => .ofList trimmed

/-- The name of the file derived from one called `name`: `suffix` goes in front of the extension, and
so does a number when `attempt` names were taken before. A name without a proper extension takes
`fallback`. -/
def derivedName (name suffix : String) (fallback : Option String) (attempt : Nat) : String :=
  let (stem, ext) : String × Option String :=
    match Text.splitLast? '.' name.toList with
    | some (s :: stem, e :: ext) => (.ofList (s :: stem), some (.ofList (e :: ext)))
    | _ => (name, fallback)
  let counter := if attempt = 0 then "" else "." ++ toString attempt
  let ending := match ext with
    | some ext => "." ++ ext
    | none => ""
  stem ++ "." ++ suffix ++ counter ++ ending

end Strata.FilePath
