/-! Texts cut at a character. -/
namespace Strata.Text

/-- The pieces between the occurrences of `sep`, empty ones included. -/
def splitAll (sep : Char) : List Char → List (List Char)
  | [] => [[]]
  | c :: cs =>
    if c = sep then [] :: splitAll sep cs
    else
      match splitAll sep cs with
      | [] => [[c]]
      | p :: ps => (c :: p) :: ps

/-- What stands before and behind the last occurrence of `sep`. -/
def splitLast? (sep : Char) : List Char → Option (List Char × List Char)
  | [] => none
  | c :: cs =>
    match splitLast? sep cs with
    | some (before, after) => some (c :: before, after)
    | none => if c = sep then some ([], cs) else none

/-- The text without the occurrences of `c` at its end. -/
def dropEndChar (c : Char) (cs : List Char) : List Char := (cs.reverse.dropWhile (· == c)).reverse

theorem splitAll_ne_nil (sep : Char) (cs : List Char) : splitAll sep cs ≠ [] := by
  cases cs with
  | nil => simp [splitAll]
  | cons c cs => simp only [splitAll]; split <;> (try split) <;> simp

/-- The pieces with `sep` between them are the text. -/
theorem intercalate_splitAll (sep : Char) (cs : List Char) :
    [sep].intercalate (splitAll sep cs) = cs := by
  induction cs with
  | nil => rfl
  | cons c cs ih =>
    have hne := splitAll_ne_nil sep cs
    simp only [splitAll]
    split
    · next h =>
      obtain ⟨p, ps, hp⟩ := List.exists_cons_of_ne_nil hne
      rw [hp] at ih ⊢
      simp_all [List.intercalate, List.intersperse]
    · split
      · next h => exact absurd h hne
      · next p ps hp =>
        rw [hp] at ih
        cases ps <;> simp_all [List.intercalate, List.intersperse]

end Strata.Text
