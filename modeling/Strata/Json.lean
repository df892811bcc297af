import Strata.Text.Scanner

/-! JSON texts.

The reader takes JSON and nothing more: no comments, no commas too many, no control characters in
strings, no surrogates that stand alone. Numbers keep their text; one beyond the range of double
precision is refused. Of members with one name the last counts. Arrays and objects nest at most 127
deep. -/
namespace Strata

inductive Json where
  | null
  | boolean (value : Bool)
  | number (text : String)
  | string (value : String)
  | array (items : List Json)
  | object (members : List (String × Json))

namespace Json

/-- The value of the last member with a name, none for what is no object. -/
def member? (name : String) : Json → Option Json
  | object members => (members.reverse.find? fun m => m.1 == name).map Prod.snd
  | _ => none

def string? : Json → Option String
  | string s => some s
  | _ => none

/-! ### Numbers -/

/-- The nearest number with at most 53 binary digits, of two the even one. -/
def toDoublePrecision (n : Nat) : Nat :=
  let excess := n.log2 + 1 - 53
  let unit := Nat.pow 2 excess
  let quotient := n / unit
  let twice := 2 * (n % unit)
  if twice > unit || (twice == unit && quotient % 2 == 1) then (quotient + 1) * unit
  else quotient * unit

/-- From here on a number rounds to no finite double. -/
def doubleLimit : Nat := (Nat.pow 2 54 - 1) * Nat.pow 2 970

/-- `digits · 10 ^ exponent` is too large for a double. -/
def isTooLarge (digits : Nat) (exponent : Int) : Bool :=
  digits != 0 &&
    match exponent with
    | .ofNat e =>
      e > 308 || toDoublePrecision digits * toDoublePrecision (Nat.pow 10 e) ≥ doubleLimit
    | .negSucc _ => false

def digitsValue (ds : List Char) : Nat := ds.foldl (fun n d => 10 * n + (d.toNat - '0'.toNat)) 0

/-- A number takes part with as many leading digits as 64 bits hold. -/
def significand (n : Nat) : List Char → Nat × List Char
  | [] => (n, [])
  | d :: ds =>
    let more := 10 * n + (d.toNat - '0'.toNat)
    if more < Nat.pow 2 64 then significand more ds else (n, d :: ds)

/-- The parts of a number: whole digits, digits behind the point, and the exponent. -/
def isNumberInRange (whole fraction : List Char) (exponent : Int) : Bool :=
  let (n, dropped) := significand 0 whole
  let (n, unused) := significand n fraction
  let used := fraction.length - unused.length
  !isTooLarge n ((dropped.length : Int) - used + exponent)

open Text (Scanner)
open Text.Scanner

def sign : Scanner Bool := do
  match ← peek? with
  | some '-' => char '-'; return true
  | some '+' => char '+'; return false
  | _ => return false

def exponent : Scanner Int := do
  let _ ← satisfy fun c => c == 'e' || c == 'E'
  let negative ← sign
  let digits ← takeWhile1 Char.isDigit
  return if negative then -(digitsValue digits : Int) else digitsValue digits

def wholeDigits : Scanner (List Char) := do
  match ← peek? with
  | some '0' => char '0'; return ['0']
  | _ => takeWhile1 Char.isDigit

def fractionDigits : Scanner (List Char) := do
  match ← peek? with
  | some '.' => char '.'; takeWhile1 Char.isDigit
  | _ => return []

def numberParts : Scanner Bool := do
  let _ ← maybe (char '-')
  let whole ← wholeDigits
  let fraction ← fractionDigits
  match ← peek? with
  | some 'e' | some 'E' => return isNumberInRange whole fraction (← exponent)
  | _ => return isNumberInRange whole fraction 0

def numberText : Scanner Json := fun cs =>
  match numberParts cs with
  | some (true, rest) => some (number (.ofList (cs.take (cs.length - rest.length))), rest)
  | _ => none

/-! ### Strings -/

def hexValue (c : Char) : Nat :=
  if c.isDigit then c.toNat - '0'.toNat else c.toLower.toNat - 'a'.toNat + 10

def isHexDigit (c : Char) : Bool :=
  c.isDigit || ('a' ≤ c.toLower && c.toLower ≤ 'f')

def hexDigits (n : Nat) : Scanner Nat := do
  return (← exactly n isHexDigit).foldl (fun n d => 16 * n + hexValue d) 0

/-- The character with a code point; surrogates are none. -/
def codePoint (n : Nat) : Scanner Char :=
  if h : n.isValidChar then return .ofNatAux n h else fail

/-- The digits behind `\u`, and of a second such escape when the first is the first half of a
pair. -/
def unicodeEscape : Scanner Char := do
  let unit ← hexDigits 4
  if 0xD800 ≤ unit && unit < 0xDC00 then
    literal "\\u"
    let low ← hexDigits 4
    if 0xDC00 ≤ low && low < 0xE000 then
      codePoint (0x10000 + (unit - 0xD800) * 0x400 + (low - 0xDC00))
    else fail
  else codePoint unit

def stringChar : Scanner Char := do
  match ← next with
  | '"' => fail
  | '\\' =>
    match ← next with
    | '"' => return '"'
    | '\\' => return '\\'
    | '/' => return '/'
    | 'b' => return '\x08'
    | 'f' => return '\x0c'
    | 'n' => return '\n'
    | 'r' => return '\r'
    | 't' => return '\t'
    | 'u' => unicodeEscape
    | _ => fail
  | c => if c.toNat < 0x20 then fail else return c

def stringText : Scanner String := do
  char '"'
  let cs ← many stringChar
  char '"'
  return .ofList cs

/-! ### Values -/

def blanks : Scanner Unit := do
  let _ ← takeWhile fun c => c == ' ' || c == '\t' || c == '\n' || c == '\r'

def scalar : Scanner Json := do
  match ← peek? with
  | some 'n' => literal "null"; return null
  | some 't' => literal "true"; return boolean true
  | some 'f' => literal "false"; return boolean false
  | some '"' => return string (← stringText)
  | _ => numberText

/-- Items between an opening and a closing character, with commas between them. -/
def enclosed {α : Type} (opening closing : Char) (item : Scanner α) : Scanner (List α) := do
  char opening
  blanks
  if ← ahead (char closing) then
    char closing
    return []
  let items ← separated1 (do blanks; let a ← item; blanks; return a) (char ',')
  char closing
  return items

def member (item : Scanner Json) : Scanner (String × Json) := do
  let name ← stringText
  blanks
  char ':'
  blanks
  return (name, ← item)

/-- A value without the blanks around it, in which arrays and objects nest at most `depth` deep. -/
def value : (depth : Nat) → Scanner Json
  | 0 => scalar
  | depth + 1 => do
    match ← peek? with
    | some '[' => return array (← enclosed '[' ']' (value depth))
    | some '\x7b' => return object (← enclosed '\x7b' '\x7d' (member (value depth)))
    | _ => scalar

/-- The value that a text holds. -/
def parse? (text : String) : Option Json :=
  Text.Scanner.run? (do blanks; let v ← value 127; blanks; return v) text.toList

end Json

end Strata
