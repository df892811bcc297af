import Strata.Path.Basic

/-! Normal paths.

A normal path has no single dots, unless it is a dot, and two dots only at the start of a relative
path. `normalize` only reads the text: a name and the two dots behind it cancel, and the root is its
own parent. -/
namespace Strata.FilePath

/-- The components read so far, the last one first, and one more. -/
def fold (seen : List Component) (c : Component) : List Component :=
  match c, seen with
  | .current, _ => seen
  | .parent, .name _ :: more => more
  | .parent, .root :: _ => seen
  | c, _ => c :: seen

/-- The components of the normal form. -/
def normalComponents (p : FilePath) : List Component := (p.components.foldl fold []).reverse

def normalize (p : FilePath) : FilePath :=
  match p.normalComponents with
  | [] => ⟨"."⟩
  | cs => ofComponents cs

end Strata.FilePath
