import Strata.FileSet
import Strata.Migration
import Strata.Path.Specifier

/-! Plans and files as text, with paths seen from a directory. -/
namespace Strata.Listing

/-- A path seen from `root`, whole when it leads elsewhere. -/
def pathFrom (root path : FilePath) : String :=
  ((FilePath.stripBase? root path).getD path).slashed

/-- A change: what is done, and for a write what the file holds then. -/
def change (root : FilePath) : FileChange → String
  | .write path contents =>
    let ending := if contents.toList.getLast? == some '\n' then "" else "\n"
    "write " ++ pathFrom root path ++ "\n" ++ contents ++ ending
  | .delete path => "delete " ++ pathFrom root path ++ "\n"

/-- The changes of a plan, one behind the other. -/
def plan (root : FilePath) (changes : List FileChange) : String :=
  Text.endTrimmed (.join (changes.map (change root)))

/-- A file: a header with its path, then what it holds without the blanks at the end. -/
def file (root : FilePath) (path : FilePath) (contents : String) : String :=
  let header := "── " ++ pathFrom root path ++ " ──"
  let body := Text.endTrimmed contents
  if body.isEmpty then header else header ++ "\n" ++ body

/-- The files in the order of their paths. -/
def files (root : FilePath) (set : FileSet) : String :=
  "\n".intercalate (set.map fun (path, contents) => file root path contents)

end Strata.Listing
