import Strata.Text.Blank

/-! Lexemes of a stylesheet.

A statement reader needs only the boundaries of statements, so the classes are coarse: punctuation,
white space, comments, strings, at-keywords, and words for everything else. `lexemes` cuts a text
into maximal pieces, each with its byte offset. Nothing is dropped: `spell_lexemes` says that the
pieces in a row are the text, and a string that is not closed on its line is a piece of its own
class. -/
namespace Strata.Css

inductive LexemeClass where
  | comment
  | atKeyword
  | doubleQuoted
  | singleQuoted
  | whitespace
  | word
  | braceOpen
  | braceClose
  | parenOpen
  | parenClose
  | semicolon
  | colon
  | slash
  | at
  /-- A string without its closing quote, up to the end of the line. -/
  | unclosed
deriving DecidableEq, Repr

structure Lexeme where
  kind : LexemeClass
  text : List Char
  /-- Byte offset of the first character. -/
  start : Nat
deriving DecidableEq, Repr

/-- The length of a text in UTF-8. -/
def byteLength (cs : List Char) : Nat := cs.foldl (fun n c => n + c.utf8Size) 0

namespace Lexeme

/-- Byte offset behind the last character. -/
def stop (l : Lexeme) : Nat := l.start + byteLength l.text

end Lexeme

/-! ### Extents

Each function here gets the text behind the opening of a piece and says how many more characters
belong to the piece. -/

/-- Up to and with the first comment end. -/
def commentExtent? : List Char → Option Nat
  | [] => none
  | '*' :: '/' :: _ => some 2
  | _ :: cs => (commentExtent? cs).map (· + 1)

/-- Up to and with the closing quote. A backslash hides the next character, and no line end may
come first, hidden or not. -/
def stringExtent? (quote : Char) : List Char → Option Nat
  | [] => none
  | '\n' :: _ => none
  | ['\\'] => none
  | '\\' :: '\n' :: _ => none
  | '\\' :: _ :: cs => (stringExtent? quote cs).map (· + 2)
  | c :: cs => if c = quote then some 1 else (stringExtent? quote cs).map (· + 1)

/-- Up to the end of the line. -/
def lineExtent (cs : List Char) : Nat := (cs.takeWhile (· != '\n')).length

def isKeywordStart (c : Char) : Bool := c.isAlpha || c == '_' || c == '-'

def isKeywordRest (c : Char) : Bool := isKeywordStart c || c.isDigit

def isWordChar (c : Char) : Bool :=
  !(Text.isSpace c || c == '{' || c == '}' || c == '(' || c == ')' || c == ';' || c == ':'
    || c == '"' || c == '\'' || c == '/' || c == '@')

/-- The class of the piece that starts with `c`, and how many characters of the rest are its own. -/
def extent (c : Char) (cs : List Char) : LexemeClass × Nat :=
  if c = '{' then (.braceOpen, 0)
  else if c = '}' then (.braceClose, 0)
  else if c = '(' then (.parenOpen, 0)
  else if c = ')' then (.parenClose, 0)
  else if c = ';' then (.semicolon, 0)
  else if c = ':' then (.colon, 0)
  else if c = '/' then
    match cs with
    | '*' :: body => match commentExtent? body with
      | some n => (.comment, n + 1)
      | none => (.slash, 0)
    | _ => (.slash, 0)
  else if c = '@' then
    match cs with
    | k :: ks => if isKeywordStart k then (.atKeyword, (ks.takeWhile isKeywordRest).length + 1)
      else (.at, 0)
    | [] => (.at, 0)
  else if c = '"' || c = '\'' then
    match stringExtent? c cs with
    | some n => (if c = '"' then .doubleQuoted else .singleQuoted, n)
    | none => (.unclosed, lineExtent cs)
  else if Text.isSpace c then (.whitespace, (cs.takeWhile Text.isSpace).length)
  else (.word, (cs.takeWhile isWordChar).length)

/-- The text cut into maximal pieces, the first of them at byte `start`. -/
def lexemesFrom (start : Nat) : List Char → List Lexeme
  | [] => []
  | c :: cs =>
    let l : Lexeme := ⟨(extent c cs).1, c :: cs.take (extent c cs).2, start⟩
    l :: lexemesFrom l.stop (cs.drop (extent c cs).2)
termination_by cs => cs.length
decreasing_by simp only [List.length_drop, List.length_cons]; omega

/-- The text cut into maximal pieces. -/
def lexemes (text : String) : List Lexeme := lexemesFrom 0 text.toList

/-- The pieces that are tokens. A string left open is none, and is dropped. -/
def tokens (text : String) : List Lexeme := (lexemes text).filter (·.kind != .unclosed)

/-- The text of some pieces in a row. -/
def spell (ls : List Lexeme) : List Char := ls.flatMap Lexeme.text

theorem spell_lexemesFrom (start : Nat) (cs : List Char) : spell (lexemesFrom start cs) = cs := by
  fun_induction lexemesFrom start cs with
  | case1 => rfl
  | case2 start c cs l ih =>
    simp only [spell, List.flatMap_cons] at ih ⊢
    rw [ih, List.cons_append, List.take_append_drop]

/-- Nothing of the text is lost. -/
theorem spell_lexemes (text : String) : spell (lexemes text) = text.toList :=
  spell_lexemesFrom 0 text.toList

end Strata.Css
