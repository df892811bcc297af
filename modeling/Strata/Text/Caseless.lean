/-! Comparison of texts without regard to the case of ASCII letters. -/
namespace Strata.Text

/-- The same text once every ASCII letter is small. -/
def sameCaseless (s t : String) : Bool := s.toLower == t.toLower

/-- What follows `head` in `cs`, when `cs` starts with `head` in any case. -/
def afterCaseless? (head cs : List Char) : Option (List Char) :=
  if (cs.take head.length).map Char.toLower = head.map Char.toLower
  then some (cs.drop head.length)
  else none

/-- What precedes `tail` in `cs`, when `cs` ends with `tail`. -/
def before? (tail cs : List Char) : Option (List Char) :=
  if tail.isSuffixOf cs then some (cs.take (cs.length - tail.length)) else none

end Strata.Text
