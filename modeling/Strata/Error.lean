import Strata.Css.Statement
import Strata.Path.Basic

/-! Errors that end a migration. -/
namespace Strata

inductive MigrationError where
  | parse (file : Option FilePath) (source : Css.ParseError)
  | duplicateFile (path : FilePath)
  | missingFile
  /-- Stylesheets that each import the next, the last being the first. -/
  | importCycle (chain : List (Option FilePath))
  | unknownSheet
  | transform (name reason : String)
deriving DecidableEq, Repr

namespace MigrationError

/-- How a stylesheet is called, one without a file too. -/
def fileLabel (file : Option FilePath) : String :=
  match file with
  | some path => path.text
  | none => "<anonymous>"

def message : MigrationError → String
  | parse file source => "failed to parse " ++ fileLabel file ++ ": " ++ source.message
  | duplicateFile path => "stylesheet " ++ path.text ++ " is already registered"
  | missingFile => "cannot migrate a stylesheet without a file path"
  | importCycle chain => "import cycle detected: " ++ " -> ".intercalate (chain.map fileLabel)
  | unknownSheet => "unknown stylesheet"
  | transform name reason => "transform \x60" ++ name ++ "\x60 failed: " ++ reason

/-- The message of the error behind an error. -/
def cause? : MigrationError → Option String
  | parse _ source => some source.message
  | _ => none

end MigrationError

end Strata
