import Strata.Path.Basic

/-! Files in memory: contents by path, in the order of paths. -/
namespace Strata

abbrev FileSet := List (FilePath × String)

namespace FileSet

/-- The contents of the file at a path. -/
def get? (files : FileSet) (path : FilePath) : Option String :=
  (files.find? fun (p, _) => p.same path).map Prod.snd

/-- The files with one more. A file that is there keeps its path and gets the new contents. -/
def insert (path : FilePath) (contents : String) : FileSet → FileSet
  | [] => [(path, contents)]
  | (p, old) :: more =>
    if p.same path then (p, contents) :: more
    else if path.before p then (path, contents) :: (p, old) :: more
    else (p, old) :: insert path contents more

/-- The files without the one at a path. -/
def erase (path : FilePath) (files : FileSet) : FileSet := files.filter fun (p, _) => !p.same path

def paths (files : FileSet) : List FilePath := files.map Prod.fst

end FileSet

end Strata
