import Mathlib.Data.List.Forall2
import Strata.Proofs.Forest.Planting
import Strata.Proofs.Forest.Traversal

/-! Nodes that two forests have alike.

`place` is the way down to a node, child by child, and within one tree no two nodes are in one place
(`eq_of_place`). Twins carry the same data in the same place and bear the same grove, so their children
are twins, one by one, and a walk below them meets twins (`Twins.outermost`): which identifiers the
nodes have does not come in. -/
namespace Strata.Forest

variable {α : Type} {f g : Forest α}

/-! ### Places -/

/-- The indices by which a node is reached from the top of its tree, the last one first. -/
def place (f : Forest α) (id : NodeId) : List Nat := (f.lineage id).filterMap f.index?

namespace WellFormed

variable (h : WellFormed f)
include h

theorem index?_child {parent child : NodeId} {i : Nat} (hi : (f.children parent)[i]? = some child) :
    f.index? child = some i := by
  have hparent := (h.listed child parent).mp (List.mem_of_getElem? hi)
  obtain ⟨hlt, rfl⟩ := List.getElem?_eq_some_iff.mp hi
  rw [index?, hparent, Option.bind_eq_bind, Option.bind_some, List.idxOf?_eq_some_iff]
  refine ⟨hlt, rfl, fun j hj heq => Nat.ne_of_lt hj ?_⟩
  exact ((h.nodup parent).getElem_inj_iff).mp heq

theorem place_child {parent child : NodeId} {i : Nat} (hi : (f.children parent)[i]? = some child) :
    f.place child = i :: f.place parent := by
  have hparent := (h.listed child parent).mp (List.mem_of_getElem? hi)
  rw [place, h.lineage_of_parent? hparent, List.filterMap_cons_some (h.index?_child hi)]
  rfl

theorem place_top {top : NodeId} (hn : f.parent? top = none) : f.place top = [] := by
  have hline : f.lineage top = [top] := by
    have ha := h.ascent_lineage top
    generalize f.lineage top = ids at ha
    cases ha with
    | top => rfl
    | step hp => cases hn.symm.trans hp
  rw [place, hline, List.filterMap_cons_none (by rw [index?, hn]; rfl)]
  rfl

/-- A node is the top of its tree, or the child of a node in the place above. -/
theorem place_cases {root id : NodeId} (hw : f.Within root id) :
    id = root ∨ ∃ i parent, f.Within root parent ∧ (f.children parent)[i]? = some id ∧
      f.place id = i :: f.place parent := by
  refine hw.cases_parent.imp_right fun ⟨parent, hp, hw⟩ => ?_
  obtain ⟨i, hi⟩ := List.getElem?_of_mem ((h.listed id parent).mpr hp)
  exact ⟨i, parent, hw, hi, h.place_child hi⟩

/-- In one tree a place has one node. -/
theorem eq_of_place {root a b : NodeId} (hroot : f.parent? root = none) (ha : f.Within root a)
    (hb : f.Within root b) (hab : f.place a = f.place b) : a = b := by
  induction a using h.grounded.induction generalizing b with
  | _ a ih =>
    rcases h.place_cases ha with rfl | ⟨i, p, hp, hi, hplace⟩
    · rcases h.place_cases hb with rfl | ⟨_, _, -, -, hplace⟩
      · rfl
      · rw [h.place_top hroot, hplace] at hab
        cases hab
    · rcases h.place_cases hb with rfl | ⟨j, q, hq, hj, hplace'⟩
      · rw [h.place_top hroot, hplace] at hab
        cases hab
      · rw [hplace, hplace'] at hab
        obtain ⟨rfl, hup⟩ := List.cons.inj hab
        have hpq := ih p ((h.listed a p).mp (List.mem_of_getElem? hi)) hp hq hup
        rw [← hpq, hi] at hj
        exact Option.some.inj hj

end WellFormed

/-! ### Twins -/

/-- Two nodes, one of each forest, with the same data and place and the same trees below. -/
structure Twins (f g : Forest α) (x y : NodeId) : Prop where
  data : g.get? y = f.get? x
  place : g.place y = f.place x
  below : ∃ grove, f.Bears (fun _ => True) (f.children x) grove ∧
    g.Bears (fun _ => True) (g.children y) grove

/-- Nodes that bear one grove carry the same data and bear the same below, one by one. -/
theorem Bears.forall₂ {own more : NodeId → Prop} {ids ids' : List NodeId} {grove : Grove α}
    (h : f.Bears own ids grove) (h' : g.Bears more ids' grove) :
    List.Forall₂ (fun x y => g.get? y = f.get? x ∧
      ∃ below, f.Bears own (f.children x) below ∧ g.Bears more (g.children y) below) ids ids' := by
  induction h generalizing ids' with
  | nil =>
    cases h'
    exact .nil
  | cons _ hget hbelow _ _ ih =>
    cases h' with
    | cons _ hget' hbelow' hrest' =>
      exact .cons ⟨hget'.trans hget.symm, _, hbelow, hbelow'⟩ (ih hrest')

/-- From two stacks that are alike, walks that enter alike meet nodes that are alike. -/
theorem Visits.forall₂ {R : NodeId → NodeId → Prop} {next next' : NodeId → List NodeId}
    (hnext : ∀ x y, R x y → List.Forall₂ R (next x) (next' y)) {stack stack' met met' : List NodeId}
    (h : Visits next stack met) (h' : Visits next' stack' met') (hstack : List.Forall₂ R stack stack') :
    List.Forall₂ R met met' := by
  induction h generalizing stack' met' with
  | nil =>
    cases hstack
    cases h'
    exact .nil
  | cons _ _ ihi iho =>
    cases hstack with
    | cons hxy hrest =>
      cases h' with
      | cons hi ho => exact .cons hxy (List.rel_append (ihi hi (hnext _ _ hxy)) (iho ho hrest))

namespace Twins

variable {x y : NodeId}

theorem symm (h : Twins f g x y) : Twins g f y x where
  data := h.data.symm
  place := h.place.symm
  below := by
    obtain ⟨grove, hf, hg⟩ := h.below
    exact ⟨grove, hg, hf⟩

section wellFormed

variable (hf : WellFormed f) (hg : WellFormed g)
include hf hg

theorem of_bears {root root' : NodeId} {own more : NodeId → Prop} {grove : Grove α}
    (hroot : f.parent? root = none) (hroot' : g.parent? root' = none)
    (hdata : g.get? root' = f.get? root) (h : f.Bears own (f.children root) grove)
    (h' : g.Bears more (g.children root') grove) : Twins f g root root' where
  data := hdata
  place := by rw [hf.place_top hroot, hg.place_top hroot']
  below := ⟨grove, h.congr fun _ _ => ⟨trivial, rfl, rfl⟩, h'.congr fun _ _ => ⟨trivial, rfl, rfl⟩⟩

variable (h : Twins f g x y)
include h

theorem children : List.Forall₂ (Twins f g) (f.children x) (g.children y) := by
  obtain ⟨grove, hx, hy⟩ := h.below
  obtain ⟨hlen, hall⟩ := List.forall₂_iff_get.mp (hx.forall₂ hy)
  refine List.forall₂_iff_get.mpr ⟨hlen, fun i hi hj => ⟨(hall i hi hj).1, ?_, (hall i hi hj).2⟩⟩
  have hchild := hf.place_child (List.getElem?_eq_getElem hi)
  have hchild' := hg.place_child (List.getElem?_eq_getElem hj)
  rw [List.get_eq_getElem, List.get_eq_getElem, hchild, hchild', h.place]

/-- **Walks below twins meet twins.** -/
theorem outermost (p : α → Bool) :
    List.Forall₂ (Twins f g) (f.outermost x p) (g.outermost y p) := by
  have hentered : ∀ x y, Twins f g x y → List.Forall₂ (Twins f g)
      (f.entered (fun _ data => p data) x) (g.entered (fun _ data => p data) y) := by
    intro x y hxy
    unfold entered
    rw [hxy.data]
    split
    · exact .nil
    · exact children hf hg hxy
  have hmet := (hf.visits_walk x _).forall₂ hentered (hg.visits_walk y _) (children hf hg h)
  refine List.rel_filter (fun x y hxy => ?_) hmet
  show (f.get? x).any p = true ↔ (g.get? y).any p = true
  rw [hxy.data]

end wellFormed

end Twins

end Strata.Forest
