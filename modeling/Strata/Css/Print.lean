import Strata.Grove
import Strata.Node

/-! The printed form of a stylesheet.

One statement a line, two blanks of indentation a level, no line end at the end. An empty block is a
pair of braces, and an empty sheet is the empty text. -/
namespace Strata.Css

def indentation (depth : Nat) : String := .join (List.replicate depth "  ")

/-- The first line of a statement, up to its block if it has one. -/
def header (form : NodeForm) : String :=
  match form with
  | .root => ""
  | .atRule name params _ => "@" ++ name ++ (if params.isEmpty then "" else " " ++ params)
  | .rule selector => selector
  | .declaration property value important =>
    property ++ ": " ++ value ++ (if important then " !important" else "")
  | .comment text => "/*" ++ text ++ "*/"

/-- The statements of a grove, a line each, at `depth`. -/
def printAt (depth : Nat) : Grove Node → String
  | .nil => ""
  | .cons top below rest =>
    let block : String :=
      match below with
      | .nil => "\x7b\x7d"
      | .cons .. => "\x7b\n" ++ printAt (depth + 1) below ++ "\n" ++ indentation depth ++ "\x7d"
    let statement : String :=
      match top.form with
      | .root => printAt depth below
      | .atRule _ _ true | .rule _ => header top.form ++ " " ++ block
      | .atRule _ _ false | .declaration .. => header top.form ++ ";"
      | .comment _ => header top.form
    let line := indentation depth ++ statement
    match rest with
    | .nil => line
    | .cons .. => line ++ "\n" ++ printAt depth rest

/-- A sheet's statements. -/
def print (g : Grove Node) : String := printAt 0 g

end Strata.Css
