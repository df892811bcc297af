import Strata.Proofs.Css.RoundTrip
import Strata.Proofs.Forest.Subtrees
import Strata.Proofs.Forest.Twins
import Strata.Document.Basic

/-! Nodes that two documents have alike.

Two nodes are `Alike` when they have one form and trees of the same forms below them: where they were
read, and what they remember, may differ. So their children are alike, one by one, and walks below
them meet nodes that are alike (`Alike.outermost`). -/
namespace Strata

/-- What is printed of a grove: the forms of its nodes. -/
def Grove.forms (grove : Grove Node) : Grove NodeForm := grove.map Node.form

/-- A property that is seen from the form of a node. -/
def Node.Formal (p : Node → Bool) : Prop := ∀ n m : Node, n.form = m.form → p n = p m

theorem Node.formal_isAt (name : String) : Formal (Node.isAt name) := fun n m h => by
  rw [isAt, isAt, h]

namespace Document

open Forest

variable {doc g : Document} {x y : NodeId}

/-- Two nodes, one of each document, of one form and with trees of the same forms below. -/
structure Alike (doc g : Document) (x y : NodeId) : Prop where
  form : (g.get? y).map Node.form = (doc.get? x).map Node.form
  below : (g.grove y).forms = (doc.grove x).forms

theorem Alike.symm (h : Alike doc g x y) : Alike g doc y x := ⟨h.form.symm, h.below.symm⟩

theorem Alike.any {p : Node → Bool} (h : Alike doc g x y) (hp : Node.Formal p) :
    (g.get? y).any p = (doc.get? x).any p := by
  have hform := h.form
  cases hx : doc.get? x with
  | none =>
    rw [hx, Option.map_none, Option.map_eq_none_iff] at hform
    rw [hform]
  | some n =>
    rw [hx, Option.map_some] at hform
    obtain ⟨m, hm, heq⟩ := Option.map_eq_some_iff.mp hform
    rw [hm]
    exact hp m n heq

/-- So is what is read off the form. -/
theorem Alike.bind {α : Type} {f : Node → Option α} (h : Alike doc g x y)
    (hf : ∀ n m : Node, n.form = m.form → f n = f m) : (g.get? y).bind f = (doc.get? x).bind f := by
  have hform := h.form
  cases hx : doc.get? x with
  | none =>
    rw [hx, Option.map_none, Option.map_eq_none_iff] at hform
    rw [hform]
  | some n =>
    rw [hx, Option.map_some] at hform
    obtain ⟨m, hm, heq⟩ := Option.map_eq_some_iff.mp hform
    rw [hm]
    exact hf m n heq

section wellFormed

variable (hf : doc.WellFormed) (hg : g.WellFormed)
include hf hg

theorem forall₂_alike_of_bears {own more : NodeId → Prop} {ids ids' : List NodeId}
    {grove grove' : Grove Node} (h : doc.Bears own ids grove) (h' : g.Bears more ids' grove')
    (hforms : grove'.forms = grove.forms) : List.Forall₂ (Alike doc g) ids ids' := by
  induction h generalizing ids' grove' with
  | nil =>
    cases h' with
    | nil => exact .nil
    | cons => cases hforms
  | cons _ hget hbelow _ _ ih =>
    cases h' with
    | nil => cases hforms
    | cons _ hget' hbelow' hrest' =>
      obtain ⟨hform, hinner, hrest⟩ := Grove.cons.inj hforms
      refine .cons ⟨?_, ?_⟩ (ih hrest' hrest)
      · rw [hget, hget', Option.map_some, Option.map_some, hform]
      · rw [hf.grove_eq hbelow, hg.grove_eq hbelow']
        exact hinner

namespace Alike

variable (h : Alike doc g x y)
include h

theorem children : List.Forall₂ (Alike doc g) (doc.children x) (g.children y) := by
  obtain ⟨grove, hx⟩ := hf.exists_bears fun c (hc : c ∈ doc.children x) => hf.contains_child hc
  obtain ⟨grove', hy⟩ := hg.exists_bears fun c (hc : c ∈ g.children y) => hg.contains_child hc
  refine forall₂_alike_of_bears hf hg hx hy ?_
  have hbelow := h.below
  rwa [hf.grove_eq hx, hg.grove_eq hy] at hbelow

/-- **Walks below nodes that are alike meet nodes that are alike.** -/
theorem outermost {p : Node → Bool} (hp : Node.Formal p) :
    List.Forall₂ (Alike doc g) (doc.outermost x p) (g.outermost y p) := by
  have hentered : ∀ x y, Alike doc g x y → List.Forall₂ (Alike doc g)
      (doc.entered (fun _ data => p data) x) (g.entered (fun _ data => p data) y) := by
    intro x y hxy
    unfold entered
    rw [hxy.any hp]
    split
    · exact .nil
    · exact children hf hg hxy
  have hmet := (hf.visits_walk x _).forall₂ hentered (hg.visits_walk y _) (children hf hg h)
  refine List.rel_filter (fun x y hxy => ?_) hmet
  show (doc.get? x).any p = true ↔ (g.get? y).any p = true
  rw [hxy.any hp]

end Alike

end wellFormed

end Document

end Strata
