import Strata.Css.Pieces
import Strata.Text.Caseless

/-! Parameters of an `@import` rule.

They are a target, a quoted text or `url(…)`, and then modifiers, among them `layer(…)`. The target
is the first piece. Reading gives the specifier that the target holds, and writing puts another
specifier into the same quotes and leaves every modifier as it stands. -/
namespace Strata.Css

/-- How a target holds its specifier. -/
inductive TargetForm where
  | quoted (quote : Char)
  | url (quote : Option Char)
deriving DecidableEq, Repr

structure ImportTarget where
  form : TargetForm
  specifier : List Char
  /-- What follows the target, as written. -/
  modifiers : List Char
deriving DecidableEq, Repr

/-- The quote and what it encloses, when a text is enclosed in one kind of quote. -/
def unquote? (cs : List Char) : Option (Char × List Char) :=
  match cs with
  | q :: c :: more =>
    if isQuote q && (c :: more).getLast? == some q then some (q, (c :: more).dropLast) else none
  | _ => none

/-- What stands between a head, in any case, and a closing parenthesis at the end. -/
def argument? (head : String) (cs : List Char) : Option (List Char) := do
  let inner ← Text.afterCaseless? head.toList cs
  Text.before? [')'] inner

/-- A target read from its piece. -/
def readTarget? (piece : List Char) : Option (TargetForm × List Char) :=
  match unquote? piece with
  | some (q, inner) => some (.quoted q, inner)
  | none =>
    match (argument? "url(" piece).map Text.trim with
    | none => none
    | some inner =>
      match unquote? inner with
      | some (q, specifier) => some (.url (some q), specifier)
      | none => if inner.isEmpty then none else some (.url none, inner)

/-- The target of an import, none when the parameters have no such form. -/
def importTarget? (params : String) : Option ImportTarget := do
  let cs := Text.trim params.toList
  let first ← (pieces cs).head?
  let (form, specifier) ← readTarget? first
  return ⟨form, specifier, cs.drop first.length⟩

/-- The specifier of an import. An empty one counts as none. -/
def specifier? (params : String) : Option String :=
  match importTarget? params with
  | none => none
  | some target => if target.specifier.isEmpty then none else some (.ofList target.specifier)

/-- The names in the `layer(…)` modifiers. A layer without a name gives none. -/
def layerNames (params : String) : List String :=
  ((pieces (Text.trim params.toList)).drop 1).filterMap fun part =>
    match (argument? "layer(" part).map Text.trim with
    | none | some [] => none
    | some name => some (.ofList name)

/-- A specifier in quotes: the parameters of an import without modifiers. -/
def plainImport (specifier : String) (quote : Char) : String :=
  quote.toString ++ specifier ++ quote.toString

/-- The quote around the specifier, a double quote when there is none. -/
def importQuote (params : String) : Char :=
  match (importTarget? params).map ImportTarget.form with
  | some (.quoted q) => q
  | some (.url (some q)) => q
  | _ => '"'

/-- A specifier in the form of a target. -/
def TargetForm.write (form : TargetForm) (specifier : String) : String :=
  match form with
  | .quoted q => plainImport specifier q
  | .url (some q) => "url(" ++ plainImport specifier q ++ ")"
  | .url none => "url(" ++ specifier ++ ")"

/-- The parameters with another specifier in the target, none when they have no target. -/
def replaceTarget? (params specifier : String) : Option String :=
  (importTarget? params).map fun target =>
    target.form.write specifier ++ .ofList target.modifiers

end Strata.Css
