import Mathlib.Data.List.DropRight
import Strata.Text.Blank

/-! Trimmed texts.

Blanks are cut from the ends of a text until there are none. -/
namespace Strata.Text

variable {cs : List Char}

/-- No blank stands at either end. -/
structure Trimmed (cs : List Char) : Prop where
  first : ∀ c, cs.head? = some c → isBlank c = false
  last : ∀ c, cs.getLast? = some c → isBlank c = false

theorem dropStart_eq_self (h : ∀ c, cs.head? = some c → isBlank c = false) : dropStart cs = cs := by
  cases cs with
  | nil => rfl
  | cons c cs => exact List.dropWhile_cons_of_neg (by rw [h c rfl]; exact Bool.false_ne_true)

theorem dropEnd_eq_self (h : ∀ c, cs.getLast? = some c → isBlank c = false) : dropEnd cs = cs := by
  have hrev : dropStart cs.reverse = cs.reverse :=
    dropStart_eq_self fun c hc => h c (by rwa [List.head?_reverse] at hc)
  unfold dropEnd
  rw [show cs.reverse.dropWhile isBlank = dropStart cs.reverse from rfl, hrev, List.reverse_reverse]

theorem Trimmed.trim_eq (h : Trimmed cs) : trim cs = cs := by
  rw [trim, dropStart_eq_self h.first, dropEnd_eq_self h.last]

/-- Another start, and the same end. -/
theorem Trimmed.append_of_end {front ds : List Char} (hcs : Trimmed cs) (hne : cs ≠ [])
    (h : Trimmed (front ++ ds)) : Trimmed (cs ++ ds) where
  first c hc := by
    rw [List.head?_append_of_ne_nil _ hne] at hc
    exact hcs.first c hc
  last c hc := by
    rw [List.getLast?_append] at hc
    cases hlast : ds.getLast? with
    | none =>
      rw [hlast] at hc
      exact hcs.last c hc
    | some d =>
      refine h.last c ?_
      rw [List.getLast?_append, hlast]
      rw [hlast] at hc
      exact hc

theorem head?_dropStart (cs : List Char) : ∀ c, (dropStart cs).head? = some c → isBlank c = false := by
  intro c hc
  have hnot := List.head?_dropWhile_not isBlank cs
  rw [show cs.dropWhile isBlank = dropStart cs from rfl, hc] at hnot
  simpa using hnot

theorem getLast?_dropEnd (cs : List Char) :
    ∀ c, (dropEnd cs).getLast? = some c → isBlank c = false := by
  intro c hc
  refine head?_dropStart cs.reverse c ?_
  rw [← hc, dropEnd, List.getLast?_reverse]
  rfl

/-- The end that is cut, in blanks. -/
theorem dropEnd_append (cs : List Char) :
    ∃ blanks, (∀ c ∈ blanks, isBlank c = true) ∧ dropEnd cs ++ blanks = cs :=
  ⟨cs.rtakeWhile isBlank, fun _ hc => List.mem_rtakeWhile_imp hc,
    List.rdropWhile_append_rtakeWhile⟩

theorem trimmed_trim (cs : List Char) : Trimmed (trim cs) where
  first c hc := by
    obtain ⟨blanks, -, hsplit⟩ := dropEnd_append (dropStart cs)
    refine head?_dropStart cs c ?_
    rw [← hsplit, List.head?_append, ← trim, hc]
    rfl
  last := getLast?_dropEnd (dropStart cs)

theorem trim_append_left {blanks : List Char} (h : ∀ c ∈ blanks, isBlank c = true) (cs : List Char) :
    trim (blanks ++ cs) = trim cs := by
  rw [trim, dropStart, List.dropWhile_append_of_pos h]
  rfl

theorem dropEnd_append_blanks {blanks : List Char} (h : ∀ c ∈ blanks, isBlank c = true)
    (cs : List Char) : dropEnd (cs ++ blanks) = dropEnd cs := by
  rw [dropEnd, List.reverse_append, List.dropWhile_append_of_pos]
  · rfl
  · exact fun c hc => h c (List.mem_reverse.mp hc)

theorem trim_append_right {blanks : List Char} (h : ∀ c ∈ blanks, isBlank c = true) (cs : List Char) :
    trim (cs ++ blanks) = trim cs := by
  rw [trim, dropStart, List.dropWhile_append]
  split
  · next hnil =>
    rw [trim, dropStart, List.isEmpty_iff.mp hnil, List.dropWhile_eq_nil_iff.mpr h]
  · exact dropEnd_append_blanks h _

theorem trim_trim (cs : List Char) : trim (trim cs) = trim cs := (trimmed_trim cs).trim_eq

end Strata.Text
