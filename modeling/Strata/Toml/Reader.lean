import Strata.Json
import Strata.Toml.Table

/-! The reader of TOML 1.0 documents.

A document is a sequence of lines: blank ones, comments, headers, and keys with values. The kinds of
numbers and dates are told apart and checked, but not their values. Values nest at most 79 deep, and
a key has at most 79 parts. -/
namespace Strata.Toml

open Text (Scanner)
open Text.Scanner

/-! ### Blanks and comments -/

def isBlank (c : Char) : Bool := c == ' ' || c == '\t'

def blanks : Scanner Unit := do
  let _ ← takeWhile isBlank

/-- No control character but the tab. -/
def isPrintable (c : Char) : Bool := c == '\t' || (c.toNat ≥ 0x20 && c.toNat != 0x7F)

def comment : Scanner Unit := do
  char '#'
  let _ ← takeWhile isPrintable

/-- A line feed, alone or behind a carriage return. -/
def lineEnd : Scanner Unit := literal "\r\n" <|> char '\n'

/-- What may follow a statement on its line. -/
def lineRest : Scanner Unit := do
  blanks
  let _ ← maybe comment
  lineEnd <|> atEnd

/-- Blanks, line ends and comments. -/
def filler : Scanner Unit := do
  let _ ← many (lineEnd <|> (do comment; lineEnd) <|> (do let _ ← takeWhile1 isBlank))

/-! ### Strings -/

/-- The character that a backslash and what follows it stand for. -/
def escape : Scanner Char := do
  char '\\'
  match ← next with
  | 'b' => return '\x08'
  | 't' => return '\t'
  | 'n' => return '\n'
  | 'f' => return '\x0c'
  | 'r' => return '\r'
  | '"' => return '"'
  | '\\' => return '\\'
  | 'u' => Json.codePoint (← Json.hexDigits 4)
  | 'U' => Json.codePoint (← Json.hexDigits 8)
  | _ => fail

def basicChar : Scanner Char :=
  (satisfy fun c => isPrintable c && c != '"' && c != '\\') <|> escape

def basicString : Scanner String := do
  char '"'
  let cs ← many basicChar
  char '"'
  return .ofList cs

def literalString : Scanner String := do
  char '\''
  let cs ← takeWhile fun c => isPrintable c && c != '\''
  char '\''
  return .ofList cs

/-- A backslash at the end of a line hides all blanks and line ends that follow. -/
def hiddenLineEnd : Scanner (List Char) := do
  char '\\'
  blanks
  lineEnd
  let _ ← many (lineEnd <|> (do let _ ← takeWhile1 isBlank))
  return []

/-- One or two quotes that are not part of three. -/
def innerQuotes (quote : Char) : Scanner (List Char) := do
  let quotes ← takeWhile1 (· == quote)
  if quotes.length < 3 then return quotes else fail

/-- Up to two quotes in front of the closing three. -/
def closingQuotes (quote : Char) : Scanner (List Char) := do
  let quotes ← takeWhile1 (· == quote)
  if 3 ≤ quotes.length && quotes.length ≤ 5 then return quotes.drop 3 else fail

/-- A string in three quotes. A line end directly behind the first three does not count. -/
def multiline (quote : Char) (piece : Scanner (List Char)) : Scanner String := do
  literal (.ofList [quote, quote, quote])
  let _ ← maybe lineEnd
  let pieces ← many (piece <|> innerQuotes quote <|> (do lineEnd; return ['\n']))
  let quotes ← closingQuotes quote
  return .ofList (pieces.flatten ++ quotes)

def multilineBasic : Scanner String :=
  multiline '"' ((do return [← basicChar]) <|> hiddenLineEnd)

def multilineLiteral : Scanner String :=
  multiline '\'' (takeWhile1 fun c => isPrintable c && c != '\'')

def stringValue : Scanner String :=
  multilineBasic <|> basicString <|> multilineLiteral <|> literalString

/-! ### Keys -/

def isBareKey (c : Char) : Bool := c.isAlphanum || c == '_' || c == '-'

def simpleKey : Scanner String := do
  match ← peek? with
  | some '"' => basicString
  | some '\'' => literalString
  | _ => return .ofList (← takeWhile1 isBareKey)

/-- Parts with dots between them; blanks may stand around each. -/
def key : Scanner (List String) := do
  let parts ← separated1 (do blanks; let k ← simpleKey; blanks; return k) (char '.')
  if parts.length < 80 then return parts else fail

/-! ### Numbers and dates -/

/-- Digits, single underscores between them. -/
def digitRun (isDigit : Char → Bool) : Scanner (List Char) := do
  let first ← satisfy isDigit
  let more ← many (do
    let _ ← maybe (char '_')
    satisfy isDigit)
  return first :: more

/-- Digits without a superfluous zero in front. -/
def decimalDigits : Scanner (List Char) := do
  match ← peek? with
  | some '0' => char '0'; return ['0']
  | _ => digitRun Char.isDigit

/-- At most 64 bits, one of them for the sign. -/
def fits (negative : Bool) (n : Nat) : Bool := if negative then n ≤ Nat.pow 2 63 else n < Nat.pow 2 63

def radixInteger (radix : Nat) (head : String) (isDigit : Char → Bool) : Scanner Item := do
  literal head
  let digits ← digitRun isDigit
  let n := digits.foldl (fun n d => radix * n + Json.hexValue d) 0
  if fits false n then return .integer else fail

def decimalInteger : Scanner Item := do
  let negative ← Json.sign
  let digits ← decimalDigits
  if fits negative (Json.digitsValue digits) then return .integer else fail

def integer : Scanner Item := do
  if ← ahead (literal "0x") then radixInteger 16 "0x" Json.isHexDigit
  else if ← ahead (literal "0o") then radixInteger 8 "0o" fun c => '0' ≤ c && c ≤ '7'
  else if ← ahead (literal "0b") then radixInteger 2 "0b" fun c => c == '0' || c == '1'
  else decimalInteger

def exponent : Scanner Int := do
  let _ ← satisfy fun c => c == 'e' || c == 'E'
  let negative ← Json.sign
  let digits ← digitRun Char.isDigit
  return if negative then -(Json.digitsValue digits : Int) else Json.digitsValue digits

/-- The digits as a number times a power of ten. It is too large when positive and beyond every
double. -/
def isFloatInRange (negative : Bool) (whole fraction : List Char) (exponent : Int) : Bool :=
  negative || !isBeyond (Json.digitsValue (whole ++ fraction)) (exponent - fraction.length)
where
  isBeyond (n : Nat) (exponent : Int) : Bool :=
    n != 0 &&
      match exponent with
      | .ofNat e => e > 400 || n * Nat.pow 10 e ≥ Json.doubleLimit
      | .negSucc e =>
        let digits := (Nat.toDigits 10 n).length
        if e + 1 ≥ digits then false else n ≥ Json.doubleLimit * Nat.pow 10 (e + 1)

def decimalFloat : Scanner Item := do
  let negative ← Json.sign
  let whole ← decimalDigits
  match ← peek? with
  | some '.' =>
    char '.'
    let fraction ← digitRun Char.isDigit
    let e ← match ← peek? with
      | some 'e' | some 'E' => exponent
      | _ => pure 0
    if isFloatInRange negative whole fraction e then return .float else fail
  | some 'e' | some 'E' =>
    if isFloatInRange negative whole [] (← exponent) then return .float else fail
  | _ => fail

def specialFloat : Scanner Item := do
  let _ ← Json.sign
  literal "inf" <|> literal "nan"
  return .float

/-- A number of `count` digits between two bounds. -/
def field (count low high : Nat) : Scanner Nat := do
  let n := Json.digitsValue (← exactly count Char.isDigit)
  if low ≤ n && n ≤ high then return n else fail

def monthLength (year month : Nat) : Nat :=
  if month = 2 then
    if year % 4 = 0 ∧ (year % 100 ≠ 0 ∨ year % 400 = 0) then 29 else 28
  else if month = 4 ∨ month = 6 ∨ month = 9 ∨ month = 11 then 30
  else 31

def day : Scanner Unit := do
  let year ← field 4 0 9999
  char '-'
  let month ← field 2 1 12
  char '-'
  let _ ← field 2 1 (monthLength year month)

def time : Scanner Unit := do
  let _ ← field 2 0 23
  char ':'
  let _ ← field 2 0 59
  char ':'
  let _ ← field 2 0 60
  let _ ← maybe (do char '.'; let _ ← takeWhile1 Char.isDigit)

def offset : Scanner Unit :=
  (do let _ ← satisfy fun c => c == 'Z' || c == 'z') <|> (do
    let _ ← satisfy fun c => c == '+' || c == '-'
    let _ ← field 2 0 23
    char ':'
    let _ ← field 2 0 59)

/-- A day, with a time and an offset or without, or a time alone. -/
def date : Scanner Item := do
  (do
    day
    let _ ← maybe (do
      let _ ← satisfy fun c => c == 'T' || c == 't' || c == ' '
      time
      maybe offset)) <|> time
  return .date

def number : Scanner Item := date <|> decimalFloat <|> integer

/-! ### Values -/

def scalar : Scanner Item := do
  match ← peek? with
  | some '"' | some '\'' => return .string (← stringValue)
  | some 't' => literal "true"; return .boolean
  | some 'f' => literal "false"; return .boolean
  | some 'i' | some 'n' => specialFloat
  | _ => number <|> specialFloat

def array (value : Scanner Item) : Scanner Item := do
  char '['
  let item : Scanner Item := do
    filler
    let v ← value
    filler
    return v
  let items ← maybe (separated1 item (char ','))
  if items.isSome then
    let _ ← maybe (char ',')
  filler
  char ']'
  return .array (items.getD [])

/-- A dotted key and its value. -/
def assignment (value : Scanner Item) : Scanner (List String × Item) := do
  let k ← key
  char '='
  blanks
  let v ← value
  blanks
  return (k, v)

/-- The entries with one more assignment. -/
def assign? (es : Entries) (a : List String × Item) : Option Entries := do
  let last ← a.1.getLast?
  es.addDotted? a.1.dropLast last a.2

def inlineTable (value : Scanner Item) : Scanner Item := do
  char '\x7b'
  let assignments ← maybe (separated1 (assignment value) (char ','))
  blanks
  char '\x7d'
  match (assignments.getD []).foldlM assign? [] with
  | some es => return .table .inline es
  | none => fail

/-- A value, in which arrays and inline tables nest at most `depth` deep. -/
def value : (depth : Nat) → Scanner Item
  | 0 => scalar
  | depth + 1 => do
    match ← peek? with
    | some '[' => array (value depth)
    | some '\x7b' => inlineTable (value depth)
    | _ => scalar

/-! ### Documents -/

inductive Line where
  | empty
  | header (path : List String)
  | elementHeader (path : List String)
  | assignment (key : List String) (item : Item)

def headerLine : Scanner Line := do
  if ← ahead (literal "[[") then
    literal "[["
    let path ← key
    literal "]]"
    lineRest
    return .elementHeader path
  else
    char '['
    let path ← key
    char ']'
    lineRest
    return .header path

def assignmentLine : Scanner Line := do
  let (k, v) ← assignment (value 79)
  lineRest
  return .assignment k v

def line : Scanner Line := do
  blanks
  match ← peek? with
  | some '#' => comment; lineEnd <|> atEnd; return .empty
  | some '\n' | some '\r' => lineEnd; return .empty
  | some '[' => headerLine
  | _ => assignmentLine

/-- A document as far as it was read, and the path of the table that assignments go to. -/
abbrev Progress := Entries × List String

def Progress.add? (p : Progress) : Line → Option Progress
  | .empty => some p
  | .header path => do
    let last ← path.getLast?
    return (← p.1.openTable? path.dropLast last, path)
  | .elementHeader path => do
    let last ← path.getLast?
    return (← p.1.openElement? path.dropLast last, path)
  | .assignment k item => do
    let es ← p.1.modifyAt? p.2 fun es => assign? es (k, item)
    return (es, p.2)

/-- The table that a text describes. A mark of the byte order in front does not count. -/
def read? (text : String) : Option Entries := do
  let document : Scanner (List Line) := do
    let _ ← maybe (char '\uFEFF')
    let lines ← many line
    blanks
    return lines
  let lines ← Text.Scanner.run? document text.toList
  let (es, _) ← lines.foldlM Progress.add? ([], [])
  return es

end Strata.Toml
