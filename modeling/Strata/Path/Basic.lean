import Strata.Text.Split

/-! Paths of files.

A path keeps the text it was given, and is read as components: the root, names, and the dots that
stand for a directory or its parent. Repeated slashes, and single dots other than a leading one, make
no component. Two paths are the same when their components are. -/
namespace Strata

inductive Component where
  | root
  /-- A dot at the start of a relative path. -/
  | current
  /-- Two dots. -/
  | parent
  | name (text : String)
deriving DecidableEq, Repr

namespace Component

def text : Component → String
  | root => "/"
  | current => "."
  | parent => ".."
  | name s => s

/-- The root comes first, then one dot, two dots, and the names in the order of their characters. -/
def before : Component → Component → Bool
  | name a, name b => a < b
  | a, b => rank a < rank b
where
  rank : Component → Nat
    | root => 0
    | current => 1
    | parent => 2
    | name _ => 3

end Component

structure FilePath where
  text : String
deriving DecidableEq, Repr

namespace FilePath

/-! ### Components -/

/-- The component between two slashes, if there is one. -/
def component? (piece : List Char) : Option Component :=
  if piece = [] ∨ piece = ['.'] then none
  else if piece = ['.', '.'] then some .parent
  else some (.name (.ofList piece))

def isAbsolute (p : FilePath) : Bool := p.text.toList.head? == some '/'

def components (p : FilePath) : List Component :=
  let pieces := Text.splitAll '/' p.text.toList
  let inner := pieces.filterMap component?
  if p.isAbsolute then .root :: inner
  else if pieces.head? = some ['.'] then .current :: inner
  else inner

/-- Both paths have the same components. -/
def same (p q : FilePath) : Bool := p.components == q.components

/-- The path with these components, in its shortest text. -/
def ofComponents : List Component → FilePath
  | .root :: more => ⟨"/" ++ "/".intercalate (more.map Component.text)⟩
  | cs => ⟨"/".intercalate (cs.map Component.text)⟩

def listBefore : List Component → List Component → Bool
  | _, [] => false
  | [], _ :: _ => true
  | a :: as, b :: bs => if a = b then listBefore as bs else a.before b

/-- The order of paths, component by component. -/
def before (p q : FilePath) : Bool := listBefore p.components q.components

/-! ### Parts -/

/-- The path of `q` seen from `p`: an absolute path stays, a relative one continues `p`. -/
def join (p q : FilePath) : FilePath :=
  if q.isAbsolute then q
  else if p.text.isEmpty || p.text.toList.getLast? == some '/' then ⟨p.text ++ q.text⟩
  else ⟨p.text ++ "/" ++ q.text⟩

/-- The directory that holds a path. The root and the empty path are in none. -/
def parent? (p : FilePath) : Option FilePath :=
  match p.components.getLast? with
  | none | some .root => none
  | some _ => some (ofComponents p.components.dropLast)

/-- The last component, when that is a name. -/
def fileName? (p : FilePath) : Option String :=
  match p.components.getLast? with
  | some (.name s) => some s
  | _ => none

/-- What follows the last dot of the file name. A dot at the start of the name does not count; one at
the end gives the empty extension. -/
def extension? (p : FilePath) : Option String := do
  let name ← p.fileName?
  match Text.splitLast? '.' name.toList with
  | none | some ([], _) => none
  | some (_, ext) => some (.ofList ext)

/-- A path and the directories above it, the nearest first. -/
def ancestors (p : FilePath) : List FilePath :=
  let cs := p.components
  let fewest := if p.isAbsolute then 1 else 0
  p :: ((List.range (cs.length - fewest)).map fun n => ofComponents (cs.take (cs.length - 1 - n)))

/-- A piece between slashes that makes no component. -/
def isFiller (piece : List Char) : Bool := (component? piece).isNone

/-- The pieces behind the first `n` that make a component, from the next such piece on. -/
def piecesBehind : (n : Nat) → List (List Char) → List (List Char)
  | _, [] => []
  | n, piece :: pieces =>
    if isFiller piece then piecesBehind n pieces
    else
      match n with
      | 0 => piece :: pieces
      | n + 1 => piecesBehind n pieces

/-- Pieces as a path, without those at the end that make no component. -/
def ofPieces (pieces : List (List Char)) : FilePath :=
  ⟨.ofList (['/'].intercalate (pieces.reverse.dropWhile isFiller).reverse)⟩

/-- What follows `base` in a path that starts with the components of `base`. Slashes and single dots
are cut from its ends and stay between its names. -/
def stripBase? (base p : FilePath) : Option FilePath :=
  if base.components.isPrefixOf p.components then
    let pieces := Text.splitAll '/' p.text.toList
    match base.components, p.components with
    | [], [.root] => some ⟨"/"⟩
    | [], [.current] => some ⟨"."⟩
    | [], _ => some (ofPieces pieces)
    | heads, _ =>
      let names := heads.countP fun c => c != .root && c != .current
      some (ofPieces (piecesBehind names pieces))
  else none

end FilePath

end Strata
