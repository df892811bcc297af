/-! Tables of a TOML document.

A document is a table that grows line by line. A table remembers how it came to be, as that decides
what may still be added: a header opens a table once, a dotted key extends only tables that dotted
keys made, and an inline table is closed. -/
namespace Strata.Toml

/-- How a table came to be. -/
inductive TableForm where
  /-- Opened by its header. -/
  | header
  /-- On the way to the table of a header. -/
  | implied
  /-- Made by a dotted key. -/
  | dotted
  /-- Written in braces. -/
  | inline
deriving DecidableEq, Repr

inductive Item where
  | string (value : String)
  | integer
  | float
  | boolean
  | date
  | array (items : List Item)
  | table (form : TableForm) (entries : List (String × Item))
  /-- The tables under headers in double brackets. -/
  | tables (elements : List (List (String × Item)))

abbrev Entries := List (String × Item)

namespace Entries

def get? (es : Entries) (key : String) : Option Item := es.lookup key

/-- The entries with the item of a key exchanged, or one more entry. -/
def set (es : Entries) (key : String) (item : Item) : Entries :=
  if (es.lookup key).isSome then es.map fun (k, old) => (k, if k = key then item else old)
  else es ++ [(key, item)]

/-- A new key. -/
def add? (es : Entries) (key : String) (item : Item) : Option Entries :=
  if (es.lookup key).isSome then none else some (es.set key item)

/-- An item under a dotted key, given as the keys before the last and the last. The tables on the way
are made where they lack. One that a header opened or that is written in braces may not be entered,
of tables in double brackets the last is meant, and only a table that a dotted key made may get the
item. -/
def addDotted? (es : Entries) : (path : List String) → (key : String) → Item → Option Entries
  | [], key, item => es.add? key item
  | step :: path, key, item =>
    match es.get? step with
    | none => do
      let inner ← addDotted? [] path key item
      return es.set step (.table .dotted inner)
    | some (.table form inner) =>
      if form = .dotted ∨ (form = .implied ∧ path ≠ []) then do
        let inner ← addDotted? inner path key item
        return es.set step (.table form inner)
      else none
    | some (.tables elements) =>
      match path, elements.getLast? with
      | _ :: _, some last => do
        let inner ← addDotted? last path key item
        return es.set step (.tables (elements.dropLast ++ [inner]))
      | _, _ => none
    | some _ => none

/-- The entries with those at a path of headers changed. The tables on the way are made where they
lack, and of tables in double brackets the last is meant. -/
def modifyAt? (es : Entries) (path : List String) (change : Entries → Option Entries) :
    Option Entries :=
  match path with
  | [] => change es
  | step :: path =>
    match es.get? step with
    | none => do
      let inner ← modifyAt? [] path change
      return es.set step (.table .implied inner)
    | some (.table form inner) =>
      if form = .inline then none
      else do
        let inner ← modifyAt? inner path change
        return es.set step (.table form inner)
    | some (.tables elements) =>
      match elements.getLast? with
      | none => none
      | some last => do
        let inner ← modifyAt? last path change
        return es.set step (.tables (elements.dropLast ++ [inner]))
    | some _ => none

/-- A header opens a table: a new one, or one that was only implied before. -/
def openTable? (es : Entries) (path : List String) (key : String) : Option Entries :=
  es.modifyAt? path fun es =>
    match es.get? key with
    | none => some (es.set key (.table .header []))
    | some (.table .implied inner) => some (es.set key (.table .header inner))
    | some _ => none

/-- A header in double brackets opens one more table under its key. -/
def openElement? (es : Entries) (path : List String) (key : String) : Option Entries :=
  es.modifyAt? path fun es =>
    match es.get? key with
    | none => some (es.set key (.tables [[]]))
    | some (.tables elements) => some (es.set key (.tables (elements ++ [[]])))
    | some _ => none

end Entries

end Strata.Toml
