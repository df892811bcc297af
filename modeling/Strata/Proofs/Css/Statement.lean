import Strata.Css.Statement
import Strata.Proofs.Text.Blank

/-! What a text can hold.

A node that is read is a statement: not the top of a sheet, and not added by a
migration. Its parameters, if it has any, have no blanks at the ends. -/
namespace Strata

/-- A statement that no migration added. -/
structure Node.Written (n : Node) : Prop where
  form : n.isRoot = false
  origin : n.origin = none
  params : ∀ params, n.params? = some params → Text.trimmed params = params

theorem Node.Written.spanning {n : Node} (h : n.Written) (start stop : Nat) :
    (n.spanning start stop).Written :=
  ⟨h.form, h.origin, h.params⟩

namespace Css

theorem trimmed_partText (ls : List Lexeme) : Text.trimmed (partText ls) = partText ls := by
  rw [Text.trimmed, partText, String.toList_ofList, Text.trim_trim]

theorem written_blockNode (first : Lexeme) (more : List Lexeme) : (blockNode first more).Written := by
  unfold blockNode
  split
  · refine ⟨rfl, rfl, fun params h => ?_⟩
    cases h
    exact trimmed_partText more
  · exact ⟨rfl, rfl, fun _ h => (nomatch h)⟩

theorem written_leafNode {first : Lexeme} {more : List Lexeme} {n : Node}
    (h : leafNode first more = .ok n) : n.Written := by
  unfold leafNode at h
  split at h
  · cases h
    refine ⟨rfl, rfl, fun params h => ?_⟩
    cases h
    exact trimmed_partText more
  · split at h
    · next node hd =>
      cases h
      unfold declaration? at hd
      obtain ⟨parts, -, rfl⟩ := Option.map_eq_some_iff.mp hd
      exact ⟨rfl, rfl, fun _ h => (nomatch h)⟩
    · cases h

/-- The node of an opening is one that a text writes. -/
def Opening.Writes {limit : Nat} : Opening limit → Prop
  | .whole n _ => n.Written
  | .block n _ => n.Written
  | .wrong _ => True

theorem writes_opening (l : Lexeme) (ls : List Lexeme) : (opening l ls).Writes := by
  unfold opening
  have hcomment : (Node.comment (commentText l)).Written := ⟨rfl, rfl, fun _ h => (nomatch h)⟩
  split
  · exact hcomment.spanning _ _
  · exact ⟨rfl, rfl, fun _ h => (nomatch h)⟩
  · simp only
    split
    · split
      · trivial
      · next hn => exact (written_leafNode hn).spanning _ _
    · split
      · exact written_blockNode ..
      · split
        · trivial
        · next hn => split <;> exact (written_leafNode hn).spanning _ _

/-- Every node of the grove is one that a text writes. -/
def AllWritten (g : Grove Node) : Prop := ∀ n ∈ g.labels, n.Written

theorem allWritten_nil : AllWritten .nil := by
  intro n hn
  cases hn

theorem AllWritten.cons {top : Node} {below rest : Grove Node} (ht : top.Written)
    (hb : AllWritten below) (hr : AllWritten rest) : AllWritten (.cons top below rest) := by
  intro n hn
  rcases List.mem_cons.mp hn with rfl | hn
  · exact ht
  · rcases List.mem_append.mp hn with hn | hn
    · exact hb n hn
    · exact hr n hn

theorem written_statements (ls : List Lexeme) : AllWritten (statements ls).trees := by
  fun_induction statements ls with
  | case1 => exact allWritten_nil
  | case2 l ls _ ih => exact ih
  | case3 l ls _ ih => exact ih
  | case4 => exact allWritten_nil
  | case5 => exact allWritten_nil
  | case6 l ls node rest hopening _ _ _ ih =>
    have hnode := hopening ▸ writes_opening l ls
    exact AllWritten.cons hnode allWritten_nil ih
  | case7 l ls node rest hopening _ _ _ _ _ _ ih =>
    have hnode := hopening ▸ writes_opening l ls
    exact AllWritten.cons hnode ih allWritten_nil
  | case8 l ls node rest hopening _ _ _ _ _ _ ih =>
    have hnode := hopening ▸ writes_opening l ls
    exact AllWritten.cons hnode ih allWritten_nil
  | case9 l ls node rest hopening _ close after _ _ _ _ _ _ ihinner ihafter =>
    have hnode := hopening ▸ writes_opening l ls
    exact AllWritten.cons (Node.Written.spanning hnode _ _) ihinner ihafter

theorem written_read (text : String) : AllWritten (read text).1 := by
  simp only [read]
  split
  · exact allWritten_nil
  · split <;> exact written_statements _

theorem parse_eq_ok {text : String} {trees : Grove Node} :
    parse text = .ok trees ↔ read text = (trees, none) := by
  unfold parse
  rcases read text with ⟨trees', _ | e⟩ <;> simp

theorem parse_eq_error {text : String} {e : ParseError} :
    parse text = .error e ↔ (read text).2 = some e := by
  unfold parse
  rcases read text with ⟨trees', _ | e⟩ <;> simp

end Css

end Strata
