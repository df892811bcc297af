import Strata.Proofs.Workspace.Ownership

/-! Workspaces as texts fill them.

`filled` registers some texts in a row; one that is refused adds nothing. What
holds then of every node and of every stylesheet is `Fresh`: the trees are those
of the stylesheets, a node is the top of one or was read, and no pass has left a
mark on a stylesheet. -/
namespace Strata

/-- A stylesheet as a text makes it, which no import points at yet. -/
structure Sheet.Unlinked (s : Sheet) : Prop where
  namedLayers : s.namedLayers = []
  layers : s.layers = []
  inbound : s.inbound = []
  parents : s.parents = []
  discarded : s.discarded = false
  derived : s.derived = false

namespace Document

open Forest

theorem planted_addText {doc : Document} (h : doc.WellFormed) {parent : NodeId}
    (hp : doc.contains parent = true) (text : String) :
    Planted doc (Document.addText doc parent text).document parent (Css.read text).1.labels :=
  planted_plant h hp (Css.read text).1

/-- The top of a new sheet, and a text below it. -/
def withText (doc : Document) (text : String) : NodeId × Document :=
  let (root, doc) := doc.create .root
  (root, (Document.addText doc root text).document)

/-- A new sheet is all that is new, and its root is none of the nodes that were there. -/
theorem grown_withText {doc : Document} (h : doc.WellFormed) (text : String) :
    Forest.WellFormed (doc.withText text).2 ∧ Extends doc (doc.withText text).2 ∧
      doc.contains (doc.withText text).1 = false ∧
      Forest.contains (doc.withText text).2 (doc.withText text).1 = true ∧
      Forest.parent? (doc.withText text).2 (doc.withText text).1 = none := by
  have hlive := (contains_create h.stocked Node.root _).mpr (Or.inl rfl)
  have hplanted := planted_addText (h.create .root) hlive text
  have hfresh := not_contains_created h.stocked Node.root
  refine ⟨hplanted.wellFormed, (extends_create h.stocked _).trans hplanted.grown, hfresh,
    hplanted.grown.live _ hlive, (hplanted.grown.parent _ hlive).trans ?_⟩
  rw [parent?_create h.stocked, parent?_eq_none hfresh]

/-- What was there is not within the top of a new sheet. -/
theorem not_within_withText {doc : Document} (h : doc.WellFormed) (text : String) {x : NodeId}
    (hx : doc.contains x = true) :
    ¬ Forest.Within (doc.withText text).2 (doc.withText text).1 x := by
  obtain ⟨-, hgrown, hdead, -⟩ := grown_withText h text
  intro hw
  cases hdead.symm.trans (h.contains_above ((hgrown.within_iff h hx).mp hw) hx)

theorem planted_withText {doc : Document} (h : doc.WellFormed) (text : String) :
    Planted (doc.create .root).2 (doc.withText text).2 (doc.withText text).1
      (Css.read text).1.labels :=
  planted_addText (h.create _) ((contains_create h.stocked _ _).mpr (Or.inl rfl)) text

section withText

variable {doc : Document} {roots : List NodeId} (h : Tidy doc roots) (text : String)
include h

theorem Tidy.withText : Tidy (doc.withText text).2 (roots ++ [(doc.withText text).1]) :=
  h.create.planted (planted_withText h.wellFormed text) fun n hn => (Css.written_read text n hn).form

/-- The nodes of a new sheet are its root and what its text holds. -/
theorem read_withText {x : NodeId} {n : Node} (hx : (doc.withText text).2.get? x = some n) :
    doc.get? x = some n ∨ n = .root ∨ n.Written := by
  have hp := planted_withText h.wellFormed text
  cases hl : (doc.create .root).2.contains x with
  | true =>
    rw [hp.grown.data x hl, get?_create h.wellFormed.stocked] at hx
    split at hx
    · cases hx
      exact Or.inr (Or.inl rfl)
    · exact Or.inl hx
  | false =>
    obtain ⟨-, data, hd, hx'⟩ := hp.fresh x (contains_iff_get?.mpr ⟨n, hx⟩) hl
    rw [hx] at hx'
    cases hx'
    exact Or.inr (Or.inr (Css.written_read text n hd))

theorem not_mem_roots_withText : (doc.withText text).1 ∉ roots := by
  intro hm
  have hlive := h.live hm
  rw [show (doc.withText text).1 = (doc.create .root).1 from rfl,
    not_contains_created h.wellFormed.stocked] at hlive
  cases hlive

/-- Once its root is removed nothing of the text is left. -/
theorem Tidy.withoutText :
    Tidy ((doc.withText text).2.remove (doc.withText text).1) roots := by
  have ht := (h.withText text).remove (doc.withText text).1
  have hkeep : roots.filter (· != (doc.withText text).1) = roots := by
    refine List.filter_eq_self.mpr fun x hx => bne_iff_ne.mpr ?_
    rintro rfl
    exact not_mem_roots_withText h text hx
  rwa [List.filter_append, hkeep, List.filter_cons_of_neg (by simp), List.filter_nil,
    List.append_nil] at ht

end withText

end Document

namespace Workspace

open Forest

variable {w : Workspace}

/-- Some texts are loaded, one after another. -/
def filled (sources : List (Option FilePath × String)) : Workspace :=
  sources.foldl (fun w (file, text) => (w.load file text).2) {}

structure Fresh (w : Workspace) : Prop where
  tidy : w.Tidy
  read : ∀ x n, w.doc.get? x = some n → n = .root ∨ n.Written
  sheet : ∀ id s, w.get? id = some s → s.Unlinked

theorem Fresh.origin (h : w.Fresh) {x : NodeId} {n : Node} (hx : w.doc.get? x = some n) :
    n.origin = none := by
  rcases h.read x n hx with rfl | hn
  · rfl
  · exact hn.origin

theorem get?_push (s : Sheet) (id : SheetId) :
    (w.push s).2.get? id = if id = w.sheets.size then some s else w.get? id := by
  simp only [push, get?, Array.getElem?_push]

theorem get?_push_of_left {id : SheetId} {t : Sheet} (ht : w.get? id = some t) (s : Sheet) :
    (w.push s).2.get? id = some t := by
  rw [get?_push, if_neg (Nat.ne_of_lt (lt_size ht))]
  exact ht

theorem get?_push_cases {s t : Sheet} {id : SheetId} (ht : (w.push s).2.get? id = some t) :
    w.get? id = some t ∨ id = w.sheets.size ∧ t = s := by
  rw [get?_push] at ht
  split at ht
  · next heq =>
    cases ht
    exact Or.inr ⟨heq, rfl⟩
  · exact Or.inl ht

theorem roots_push (s : Sheet) : (w.push s).2.roots = w.roots ++ [s.root] := by
  simp [push, roots]

/-- What loading a text does. It fails on a path that is held, and on a text that does not parse: then
a sheet is made and removed again. Else there is one more stylesheet. -/
theorem load_steps (w : Workspace) (file : Option FilePath) (text : String) :
    (∃ e, w.taken? (file.map FilePath.normalize) = some e ∧ w.load file text = (.error e, w)) ∨
    w.taken? (file.map FilePath.normalize) = none ∧
      ((∃ source, Css.parse text = .error source ∧
          w.load file text = (.error (.parse (file.map FilePath.normalize) source),
            { w with doc := (w.doc.withText text).2.remove (w.doc.withText text).1 })) ∨
        ∃ trees, Css.parse text = .ok trees ∧ w.load file text = (.ok w.sheets.size,
          (Workspace.push { w with doc := (w.doc.withText text).2 }
            { Sheet.new (file.map FilePath.normalize) text (w.doc.withText text).1 with
              loadedPrint := Document.css (w.doc.withText text).2 (w.doc.withText text).1 }).2)) := by
  unfold load
  simp only
  split
  · next e he => exact Or.inl ⟨e, he, rfl⟩
  · next hfree =>
    refine Or.inr ⟨hfree, ?_⟩
    split
    · next source hsource => exact Or.inl ⟨source, Css.parse_eq_error.mpr hsource, rfl⟩
    · next hread => exact Or.inr ⟨_, Css.parse_eq_ok.mpr (Prod.ext rfl hread), rfl⟩

theorem Fresh.load (h : w.Fresh) (file : Option FilePath) (text : String) :
    (w.load file text).2.Fresh := by
  rcases load_steps w file text with ⟨e, -, heq⟩ | ⟨-, ⟨source, -, heq⟩ | ⟨trees, -, heq⟩⟩
  · rw [heq]
    exact h
  · rw [heq]
    refine ⟨Document.Tidy.withoutText h.tidy text, fun x n hx => ?_, h.sheet⟩
    have hw := ((contains_remove (Document.Tidy.withText h.tidy text).wellFormed _ x).mp
      (contains_iff_get?.mpr ⟨n, hx⟩)).2
    replace hx : Forest.get? (Forest.remove _ _) x = some n := hx
    rw [get?_remove (Document.Tidy.withText h.tidy text).wellFormed _ hw] at hx
    rcases Document.read_withText h.tidy text hx with hx | hn
    · exact h.read x n hx
    · exact hn
  · rw [heq]
    refine ⟨?_, fun x n hx => ?_, fun id t ht => ?_⟩
    · rw [Tidy, roots_push]
      exact Document.Tidy.withText h.tidy text
    · rcases Document.read_withText h.tidy text hx with hx | hn
      · exact h.read x n hx
      · exact hn
    · rcases get?_push_cases ht with ht | ⟨-, rfl⟩
      · exact h.sheet id t ht
      · exact ⟨rfl, rfl, rfl, rfl, rfl, rfl⟩

theorem fresh_empty : Fresh {} where
  tidy := Document.tidy_empty
  read x n hx := by simp [Forest.get?, Forest.entry?] at hx
  sheet id s hs := by simp [get?] at hs

/-- What holds of no stylesheets, and is kept when a text is loaded, holds of what texts fill. -/
theorem filled_keeps {inv : Workspace → Prop} (hempty : inv {})
    (hload : ∀ w file text, inv w → inv (w.load file text).2)
    (sources : List (Option FilePath × String)) : inv (filled sources) :=
  List.foldlRecOn sources _ hempty fun w hw source _ => hload w source.1 source.2 hw

theorem fresh_filled (sources : List (Option FilePath × String)) : (filled sources).Fresh :=
  filled_keeps fresh_empty (fun _ file text h => h.load file text) sources

end Workspace

end Strata
