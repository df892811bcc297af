/-! Scanners: readers of a text from its start.

A scanner reads some characters and gives a value with the characters that remain, or fails and reads
nothing. Scanners compose in `do` blocks, and `p <|> q` tries `q` where `p` fails. -/
namespace Strata.Text

abbrev Scanner (α : Type) := StateT (List Char) Option α

namespace Scanner

variable {α β : Type}

def fail : Scanner α := fun _ => none

/-- The next character, if there is one, which stays. -/
def peek? : Scanner (Option Char) := fun cs => some (cs.head?, cs)

/-- The next character. -/
def next : Scanner Char := fun
  | [] => none
  | c :: cs => some (c, cs)

/-- The next character, if `p` holds of it. -/
def satisfy (p : Char → Bool) : Scanner Char := fun
  | [] => none
  | c :: cs => if p c then some (c, cs) else none

def char (c : Char) : Scanner Unit := do let _ ← satisfy (· == c)

/-- A given text. -/
def literal (text : String) : Scanner Unit := fun cs =>
  if text.toList.isPrefixOf cs then some ((), cs.drop text.toList.length) else none

/-- The characters up to the first that `p` does not hold of. -/
def takeWhile (p : Char → Bool) : Scanner (List Char) := fun cs =>
  some (cs.takeWhile p, cs.dropWhile p)

/-- Those characters, of which there must be one. -/
def takeWhile1 (p : Char → Bool) : Scanner (List Char) := do
  let taken ← takeWhile p
  if taken.isEmpty then fail else return taken

/-- Exactly `n` characters that `p` holds of. -/
def exactly (n : Nat) (p : Char → Bool) : Scanner (List Char) := fun cs =>
  let taken := cs.take n
  if taken.length = n ∧ taken.all p = true then some (taken, cs.drop n) else none

/-- The end of the text. -/
def atEnd : Scanner Unit := fun
  | [] => some ((), [])
  | _ :: _ => none

/-- What `p` reads, or nothing where it fails. -/
def maybe (p : Scanner α) : Scanner (Option α) := fun cs =>
  match p cs with
  | some (a, rest) => some (some a, rest)
  | none => some (none, cs)

/-- Whether `p` could read what is next. Nothing is read. -/
def ahead (p : Scanner α) : Scanner Bool := fun cs => some ((p cs).isSome, cs)

def manyFrom (p : Scanner α) : Nat → List Char → List α × List Char
  | 0, cs => ([], cs)
  | fuel + 1, cs =>
    match p cs with
    | none => ([], cs)
    | some (a, rest) =>
      if rest.length < cs.length then
        let (as, rest) := manyFrom p fuel rest
        (a :: as, rest)
      else ([], cs)

/-- What `p` reads again and again, as long as it reads anything. -/
def many (p : Scanner α) : Scanner (List α) := fun cs => some (manyFrom p cs.length cs)

/-- One or more `p` with `separator` between them. -/
def separated1 (p : Scanner α) (separator : Scanner β) : Scanner (List α) := do
  let first ← p
  let more ← many (do let _ ← separator; p)
  return first :: more

/-- What `p` makes of a whole text. -/
def run? (p : Scanner α) (cs : List Char) : Option α :=
  match p cs with
  | some (a, []) => some a
  | _ => none

end Scanner

end Strata.Text
