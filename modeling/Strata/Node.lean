import Strata.Text.Caseless

/-! Nodes of a stylesheet.

A node is one statement, without the statements below it. -/
namespace Strata

/-- A stylesheet is known by its place in the order of registration. -/
abbrev SheetId := Nat

/-- The bytes of a text from `start` up to, but without, `stop`. -/
structure Span where
  start : Nat
  stop : Nat
deriving DecidableEq, Repr

inductive NodeForm where
  /-- The top of one stylesheet. -/
  | root
  /-- `@name params;`, or `@name params { … }` when `block` is set. -/
  | atRule (name params : String) (block : Bool)
  /-- `selector { … }`. -/
  | rule (selector : String)
  /-- `property: value;`, with `!important` behind the value when `important` is set. -/
  | declaration (property value : String) (important : Bool)
  /-- The text between the comment marks. -/
  | comment (text : String)
deriving DecidableEq, Repr

/-- The import that an added import stands beside. -/
structure Origin where
  /-- The stylesheet that import pointed at. -/
  sheet : SheetId
  /-- Its specifier, as written. -/
  specifier : String
deriving DecidableEq, Repr

structure Node where
  form : NodeForm
  /-- Where the node was read, for a node that was read. -/
  span : Option Span := none
  /-- Set on imports that the migration added. -/
  origin : Option Origin := none
deriving DecidableEq, Repr

namespace Node

def root : Node := ⟨.root, none, none⟩

/-- An at-rule that ends with a semicolon. -/
def atRule (name params : String) : Node := ⟨.atRule name params false, none, none⟩

/-- An at-rule with a block. -/
def blockAtRule (name params : String) : Node := ⟨.atRule name params true, none, none⟩

def rule (selector : String) : Node := ⟨.rule selector, none, none⟩

def declaration (property value : String) (important : Bool) : Node :=
  ⟨.declaration property value important, none, none⟩

def comment (text : String) : Node := ⟨.comment text, none, none⟩

def spanning (n : Node) (start stop : Nat) : Node := { n with span := some ⟨start, stop⟩ }

/-- An import that the migration adds beside the one described by `origin`. -/
def addedImport (params : String) (origin : Origin) : Node :=
  { atRule "import" params with origin := some origin }

/-- Added by the migration. -/
def isAdded (n : Node) : Bool := n.origin.isSome

def isRoot (n : Node) : Bool := n.form == .root

/-- An at-rule of this name, in any case. -/
def isAt (name : String) (n : Node) : Bool :=
  match n.form with
  | .atRule own _ _ => Text.sameCaseless own name
  | _ => false

def isImportRule (n : Node) : Bool := n.isAt "import"

/-- The parameters of an at-rule. -/
def params? (n : Node) : Option String :=
  match n.form with
  | .atRule _ params _ => some params
  | _ => none

/-- An at-rule gets new parameters; nothing else has any. -/
def withParams (value : String) (n : Node) : Node :=
  match n.form with
  | .atRule name _ block => { n with form := .atRule name value block }
  | _ => n

end Node

end Strata
