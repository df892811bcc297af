import Strata.Css.Lexeme
import Strata.Grove
import Strata.Node

/-! Statements of a stylesheet.

`statements` reads lexemes into a grove of nodes, up to a closing brace or to the end. Every text
that a node holds is a run of lexemes without the blanks at its ends, so it keeps its spelling. What
was read before an error stays in the result, blocks left open included: the reader of a whole text,
`read`, gives the trees and the error side by side. -/
namespace Strata.Css

/-! ### Errors -/

inductive ParseError where
  /-- A string that is not closed on its line. -/
  | unclosedString (position : Nat) (text : String)
  /-- A closing brace outside every block. -/
  | strayBrace (position : Nat)
  /-- Neither a block nor a colon. -/
  | missingColon (position : Nat) (text : String)
  /-- The end of the text inside a block. -/
  | unclosedBlock
deriving DecidableEq, Repr

namespace ParseError

/-- The byte that an error points at. -/
def position? : ParseError → Option Nat
  | unclosedString position _ => some position
  | strayBrace position => some position
  | missingColon position _ => some position
  | unclosedBlock => none

/-- What was wrong there. -/
def reason : ParseError → String
  | unclosedString _ text => "unrecognized input '" ++ text ++ "'"
  | strayBrace _ => "unmatched '\x7d'"
  | missingColon _ text => "expected ':' in declaration '" ++ text ++ "'"
  | unclosedBlock => "expected '\x7d'"

def message (e : ParseError) : String :=
  match e.position? with
  | some position => "unexpected token at byte " ++ toString position ++ ": " ++ e.reason
  | none => "unexpected end of input: " ++ e.reason

end ParseError

/-! ### Preludes -/

/-- The parentheses open behind a lexeme when `depth` are open before it. -/
def depthAfter (depth : Nat) : LexemeClass → Nat
  | .parenOpen => depth + 1
  | .parenClose => depth - 1
  | _ => depth

def endsPrelude : LexemeClass → Bool
  | .braceOpen | .semicolon | .braceClose => true
  | _ => false

/-- The lexemes up to the first brace or semicolon outside parentheses, and those from it on. -/
def splitPrelude (depth : Nat) : List Lexeme → List Lexeme × List Lexeme
  | [] => ([], [])
  | l :: ls =>
    if depth = 0 ∧ endsPrelude l.kind = true then ([], l :: ls)
    else
      let (body, rest) := splitPrelude (depthAfter depth l.kind) ls
      (l :: body, rest)

/-- The lexemes before and behind the first colon outside parentheses. -/
def splitColon? (depth : Nat) : List Lexeme → Option (List Lexeme × List Lexeme)
  | [] => none
  | l :: ls =>
    if depth = 0 ∧ l.kind = .colon then some ([], ls)
    else (splitColon? (depthAfter depth l.kind) ls).map fun (before, after) => (l :: before, after)

theorem splitPrelude_append (depth : Nat) (ls : List Lexeme) :
    (splitPrelude depth ls).1 ++ (splitPrelude depth ls).2 = ls := by
  fun_induction splitPrelude depth ls <;> simp_all

theorem length_splitPrelude (depth : Nat) (ls : List Lexeme) :
    (splitPrelude depth ls).2.length ≤ ls.length := by
  have := congrArg List.length (splitPrelude_append depth ls)
  simp only [List.length_append] at this
  omega

/-! ### The parts of a statement -/

/-- A run of lexemes as the text of a node. -/
def partText (ls : List Lexeme) : String := .ofList (Text.trim (spell ls))

/-- Byte offset behind the last lexeme. -/
def stopOf (first : Lexeme) (more : List Lexeme) : Nat := ((first :: more).getLast (by simp)).stop

/-- A comment's text without its marks. -/
def commentText (l : Lexeme) : String := .ofList ((l.text.drop 2).dropLast.dropLast)

/-- A value and whether `!important` stood behind it, in any case and with or without blanks
behind the exclamation mark. -/
def cutImportant (value : List Char) : List Char × Bool :=
  match Text.before? "important".toList (value.map Char.toLower) with
  | none => (value, false)
  | some before =>
    match Text.before? ['!'] (Text.dropEnd before) with
    | none => (value, false)
    | some kept => (Text.dropEnd (value.take kept.length), true)

/-- The declaration that a prelude spells, when it has a colon. -/
def declaration? (prelude : List Lexeme) : Option Node :=
  (splitColon? 0 prelude).map fun (before, after) =>
    let (value, important) := cutImportant (Text.trim (spell after))
    Node.declaration (partText before) (.ofList value) important

/-- The name and parameters of an at-rule. -/
def atRuleParts (keyword : Lexeme) (prelude : List Lexeme) : String × String :=
  (.ofList (keyword.text.drop 1), partText prelude)

/-- The node of a statement with a block: a lexeme, the rest of its prelude, and then a brace. -/
def blockNode (first : Lexeme) (more : List Lexeme) : Node :=
  if first.kind = .atKeyword then
    let (name, params) := atRuleParts first more
    .blockAtRule name params
  else .rule (partText (first :: more))

/-- The node of a statement without a block. -/
def leafNode (first : Lexeme) (more : List Lexeme) : Except ParseError Node :=
  if first.kind = .atKeyword then
    let (name, params) := atRuleParts first more
    .ok (.atRule name params)
  else
    match declaration? (first :: more) with
    | some node => .ok node
    | none => .error (.missingColon first.start (partText (first :: more)))

/-! ### Reading -/

/-- Some lexemes, no more than `limit`. -/
abbrev Remaining (limit : Nat) := { ls : List Lexeme // ls.length ≤ limit }

/-- A statement up to its block or to its end. -/
inductive Opening (limit : Nat) where
  /-- The statement has no block, and this follows it. -/
  | whole (node : Node) (rest : Remaining limit)
  /-- The statement has a block, and this follows the block's brace. -/
  | block (node : Node) (rest : Remaining limit)
  | wrong (e : ParseError)

/-- The statement that starts with the lexeme `l`. Its prelude goes up to the first brace or
semicolon outside parentheses; a semicolon belongs to it, a closing brace does not. -/
def opening (l : Lexeme) (ls : List Lexeme) : Opening ls.length :=
  match l.kind with
  | .comment => .whole ((Node.comment (commentText l)).spanning l.start l.stop) ⟨ls, Nat.le_refl _⟩
  | .braceOpen => .block (.rule "") ⟨ls, Nat.le_refl _⟩
  | kind =>
    have bound := length_splitPrelude (depthAfter 0 kind) ls
    let more := (splitPrelude (depthAfter 0 kind) ls).1
    match h : (splitPrelude (depthAfter 0 kind) ls).2 with
    | [] =>
      match leafNode l more with
      | .error e => .wrong e
      | .ok node => .whole (node.spanning l.start (stopOf l more)) ⟨[], Nat.zero_le _⟩
    | e :: rest =>
      if e.kind = .braceOpen then
        .block (blockNode l more) ⟨rest, by rw [h, List.length_cons] at bound; omega⟩
      else
        match leafNode l more with
        | .error e => .wrong e
        | .ok node =>
          if e.kind = .semicolon then
            .whole (node.spanning l.start e.stop) ⟨rest, by rw [h, List.length_cons] at bound; omega⟩
          else .whole (node.spanning l.start (stopOf l more)) ⟨e :: rest, h ▸ bound⟩

/-- What reading some statements gives: the trees, also those of blocks that an error left open, and
the lexemes that remain. -/
structure Reading (limit : Nat) where
  trees : Grove Node
  rest : Except ParseError (Remaining limit)

namespace Reading

variable {m n : Nat}

/-- The same reading under a larger limit. -/
def within (r : Reading m) (h : m ≤ n) : Reading n :=
  ⟨r.trees, r.rest.map fun ls => ⟨ls.1, Nat.le_trans ls.2 h⟩⟩

/-- One more tree in front. -/
def under (r : Reading n) (node : Node) (below : Grove Node) : Reading n :=
  ⟨.cons node below r.trees, r.rest⟩

end Reading

/-- The statements up to a closing brace, which stays, or to the end. -/
def statements : (ls : List Lexeme) → Reading ls.length
  | [] => ⟨.nil, .ok ⟨[], Nat.le_refl _⟩⟩
  | l :: ls =>
    match l.kind with
    | .whitespace | .semicolon => (statements ls).within (Nat.le_succ _)
    | .braceClose => ⟨.nil, .ok ⟨l :: ls, Nat.le_refl _⟩⟩
    | _ =>
      match opening l ls with
      | .wrong e => ⟨.nil, .error e⟩
      | .whole node rest =>
        ((statements rest.1).within (Nat.le_succ_of_le rest.2)).under node .nil
      | .block node rest =>
        let inner := statements rest.1
        match inner.rest with
        | .error e => ⟨.cons node inner.trees .nil, .error e⟩
        | .ok ⟨[], _⟩ => ⟨.cons node inner.trees .nil, .error .unclosedBlock⟩
        | .ok ⟨close :: after, h⟩ =>
          have : after.length ≤ ls.length := by
            have := rest.2
            rw [List.length_cons] at h
            omega
          ((statements after).within (Nat.le_succ_of_le this)).under
            (node.spanning l.start close.stop) inner.trees
termination_by ls => ls.length
decreasing_by
  · simp
  · have := rest.2
    simp only [List.length_cons]
    omega
  · have := rest.2
    simp only [List.length_cons]
    omega
  · simp only [List.length_cons]
    omega

/-- The trees of a text as far as it can be read, and the error that stopped the reading. A string
left open stops it before the first statement. -/
def read (text : String) : Grove Node × Option ParseError :=
  let ls := lexemes text
  match ls.find? (·.kind == .unclosed) with
  | some l => (.nil, some (.unclosedString l.start (.ofList l.text)))
  | none =>
    let r := statements ls
    match r.rest with
    | .error e => (r.trees, some e)
    | .ok ⟨[], _⟩ => (r.trees, none)
    | .ok ⟨close :: _, _⟩ => (r.trees, some (.strayBrace close.start))

/-- The trees of a text. -/
def parse (text : String) : Except ParseError (Grove Node) :=
  match read text with
  | (trees, none) => .ok trees
  | (_, some e) => .error e

end Strata.Css
