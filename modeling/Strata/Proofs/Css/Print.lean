import Strata.Css.Print
import Strata.Text.Blank

/-! What is printed is seen.

A statement prints at least one character that is not blank, so a sheet that
prints as nothing has no statements. -/
namespace Strata.Css

/-- Some character of the text is not blank. -/
def Visible (s : String) : Prop := ∃ c ∈ s.toList, Text.isBlank c = false

theorem Visible.append_left {s : String} (h : Visible s) (t : String) : Visible (s ++ t) := by
  obtain ⟨c, hc, hb⟩ := h
  exact ⟨c, by rw [String.toList_append]; exact List.mem_append_left _ hc, hb⟩

theorem Visible.append_right {t : String} (h : Visible t) (s : String) : Visible (s ++ t) := by
  obtain ⟨c, hc, hb⟩ := h
  exact ⟨c, by rw [String.toList_append]; exact List.mem_append_right _ hc, hb⟩

theorem visible_of_mem {s : String} (c : Char) (h : c ∈ s.toList) (hb : Text.isBlank c = false) :
    Visible s := ⟨c, h, hb⟩

/-- Blocks have braces. -/
theorem visible_block (below : Grove Node) (depth : Nat) :
    Visible (match below with
      | .nil => "\x7b\x7d"
      | .cons .. => "\x7b\n" ++ printAt (depth + 1) below ++ "\n" ++ indentation depth ++ "\x7d") := by
  cases below with
  | nil =>
    show Visible "\x7b\x7d"
    exact visible_of_mem '\x7b' (by decide) (by decide)
  | cons top inner rest =>
    exact Visible.append_right (visible_of_mem '\x7d' (by decide) (by decide)) _

/-- A grove whose first node is not the top of a sheet prints something. -/
theorem visible_printAt (depth : Nat) (top : Node) (below rest : Grove Node)
    (h : top.isRoot = false) : Visible (printAt depth (.cons top below rest)) := by
  have hline : ∀ line, Visible line → Visible (match rest with
      | .nil => line
      | .cons .. => line ++ "\n" ++ printAt depth rest) := by
    intro line hl
    cases rest with
    | nil => exact hl
    | cons top inner rest => exact (hl.append_left _).append_left _
  have hsemicolon : Visible ";" := visible_of_mem ';' (by decide) (by decide)
  have hslash : Visible "*/" := visible_of_mem '/' (by decide) (by decide)
  unfold printAt
  refine hline _ (Visible.append_right ?_ _)
  rcases top with ⟨form, span, origin⟩
  cases form with
  | root => cases h
  | atRule name params block =>
    cases block with
    | true => exact Visible.append_right (visible_block below depth) _
    | false => exact Visible.append_right hsemicolon _
  | rule selector => exact Visible.append_right (visible_block below depth) _
  | declaration property value important => exact Visible.append_right hsemicolon _
  | comment text => exact Visible.append_right hslash _

end Strata.Css
