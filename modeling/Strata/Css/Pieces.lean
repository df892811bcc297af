import Strata.Text.Blank

/-! Parameter lists cut at their top-level separators.

A separator counts only outside quotes and brackets of every kind, and not behind a backslash. A
quote, a bracket or a backslash is never a separator. Runs of separators make no empty pieces. -/
namespace Strata.Css

/-- Where a scan of a parameter list stands. -/
structure ScanState where
  /-- Brackets open; a closing bracket too many leaves none open. -/
  depth : Nat := 0
  /-- The quote that is open. -/
  quote : Option Char := none
  /-- A backslash came directly before. -/
  escaped : Bool := false
deriving DecidableEq, Repr

def isQuote (c : Char) : Bool := c == '"' || c == '\''

def opensBracket (c : Char) : Bool := c == '(' || c == '[' || c == '{'

def closesBracket (c : Char) : Bool := c == ')' || c == ']' || c == '}'

/-- Quotes, brackets and the backslash steer a scan. -/
def isSteering (c : Char) : Bool := isQuote c || opensBracket c || closesBracket c || c == '\\'

namespace ScanState

/-- At the top level a character is free to be a separator. -/
def isTop (s : ScanState) : Bool := s.depth == 0 && s.quote.isNone && !s.escaped

def next (s : ScanState) (c : Char) : ScanState :=
  if s.escaped then { s with escaped := false }
  else if c = '\\' then { s with escaped := true }
  else
    match s.quote with
    | some q => if c = q then { s with quote := none } else s
    | none =>
      if isQuote c then { s with quote := some c }
      else if opensBracket c then { s with depth := s.depth + 1 }
      else if closesBracket c then { s with depth := s.depth - 1 }
      else s

end ScanState

variable (isSeparator : Char → Bool)

/-- The text cut at every top-level separator. The first piece continues the text before. -/
def cut (s : ScanState) : List Char → List (List Char)
  | [] => [[]]
  | c :: cs =>
    if s.isTop && !isSteering c && isSeparator c then [] :: cut s cs
    else
      match cut (s.next c) cs with
      | [] => [[c]]
      | p :: ps => (c :: p) :: ps

/-- The pieces between top-level separators that are not empty. -/
def piecesBy (cs : List Char) : List (List Char) := (cut isSeparator {} cs).filter (!·.isEmpty)

/-- The pieces between white space. -/
def pieces (cs : List Char) : List (List Char) := piecesBy Text.isSpace cs

end Strata.Css
