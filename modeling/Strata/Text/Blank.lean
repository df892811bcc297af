/-! Blank characters.

`isBlank` is the Unicode property White_Space, and `trim` cuts blanks from both ends of a text. The
narrower set `isSpace` holds the five blanks that CSS itself counts as white space. -/
namespace Strata.Text

/-- The Unicode property White_Space. -/
def isBlank (c : Char) : Bool :=
  let n := c.toNat
  (0x9 ≤ n && n ≤ 0xD) || n == 0x20 || n == 0x85 || n == 0xA0 || n == 0x1680
    || (0x2000 ≤ n && n ≤ 0x200A) || n == 0x2028 || n == 0x2029 || n == 0x202F || n == 0x205F
    || n == 0x3000

/-- White space of CSS: space, tab, line feed, form feed and carriage return. -/
def isSpace (c : Char) : Bool :=
  c == ' ' || c == '\t' || c == '\n' || c == '\x0c' || c == '\r'

theorem isBlank_of_isSpace {c : Char} (h : isSpace c = true) : isBlank c = true := by
  simp only [isSpace, Bool.or_eq_true, beq_iff_eq] at h
  rcases h with (((rfl | rfl) | rfl) | rfl) | rfl <;> decide

/-! ### Trimming -/

def dropStart (cs : List Char) : List Char := cs.dropWhile isBlank

def dropEnd (cs : List Char) : List Char := (cs.reverse.dropWhile isBlank).reverse

/-- The text without the blanks at its ends. -/
def trim (cs : List Char) : List Char := dropEnd (dropStart cs)

/-! ### Strings -/

/-- The string without the blanks at its ends. -/
def trimmed (s : String) : String := .ofList (trim s.toList)

/-- The string without the blanks at its end. -/
def endTrimmed (s : String) : String := .ofList (dropEnd s.toList)

end Strata.Text
