import Strata.Forest.Grove
import Strata.Proofs.Forest.Edits

/-! Forests that grow.

`Extends f g` says that `g` has every node of `f` with its data, its parent and
its place among its siblings. A new node and a planted grove extend a forest, and
what lies within what stays the same among the nodes there were. -/
namespace Strata.Forest

variable {α : Type} {f g k : Forest α}

structure Extends (f g : Forest α) : Prop where
  live : ∀ x, f.contains x = true → g.contains x = true
  data : ∀ x, f.contains x = true → g.get? x = f.get? x
  parent : ∀ x, f.contains x = true → g.parent? x = f.parent? x
  order : ∀ x, (f.children x).Sublist (g.children x)

namespace Extends

theorem refl (f : Forest α) : Extends f f :=
  ⟨fun _ h => h, fun _ _ => rfl, fun _ _ => rfl, fun _ => List.Sublist.refl _⟩

theorem trans (h : Extends f g) (h' : Extends g k) : Extends f k where
  live x hx := h'.live x (h.live x hx)
  data x hx := (h'.data x (h.live x hx)).trans (h.data x hx)
  parent x hx := (h'.parent x (h.live x hx)).trans (h.parent x hx)
  order x := (h.order x).trans (h'.order x)

theorem parent?_eq_some (h : Extends f g) {x p : NodeId} (hp : f.parent? x = some p) :
    g.parent? x = some p := by
  rw [h.parent x (contains_of_parent? hp), hp]

theorem within (h : Extends f g) {top x : NodeId} (hw : f.Within top x) : g.Within top x :=
  Relation.ReflTransGen.mono (fun _ _ hp => h.parent?_eq_some hp) _ _ hw

theorem below (h : Extends f g) {top x : NodeId} (hb : f.Below top x) : g.Below top x := by
  obtain ⟨p, hp, hw⟩ := hb
  exact ⟨p, h.parent?_eq_some hp, h.within hw⟩

theorem within_iff (h : Extends f g) (hf : WellFormed f) {top x : NodeId}
    (hx : f.contains x = true) : g.Within top x ↔ f.Within top x := by
  refine ⟨fun hw => ?_, h.within⟩
  induction hw using Relation.ReflTransGen.head_induction_on with
  | refl => exact Within.refl _
  | head hp _ ih =>
    rw [h.parent _ hx] at hp
    exact Within.step hp (ih (hf.contains_parent hp))

end Extends

theorem extends_create (h : f.Stocked) (data : α) : Extends f (f.create data).2 where
  live x hx := (contains_create h data x).mpr (Or.inr hx)
  data x hx := by
    rw [get?_create h, if_neg]
    rintro rfl
    rw [not_contains_created h] at hx
    cases hx
  parent x _ := parent?_create h data x
  order x := by rw [children_create h]

theorem extends_insertChild (h : WellFormed f) {parent : NodeId} (hp : f.contains parent = true)
    (index : Nat) (data : α) : Extends f (f.insertChild parent index data).2 := by
  have hne : ∀ x, f.contains x = true → x ≠ (f.create data).1 := by
    rintro x hx rfl
    rw [not_contains_created h.stocked] at hx
    cases hx
  refine ⟨fun x hx => ?_, fun x hx => ?_, fun x hx => ?_, fun x => ?_⟩
  · exact (contains_insertChild h index data x).mpr (Or.inr hx)
  · rw [get?_insertChild h hp, if_neg (hne x hx)]
  · rw [parent?_insertChild h hp, if_neg (hne x hx)]
  · rw [children_insertChild h hp]
    split
    · next heq =>
      rw [heq]
      exact List.sublist_insertIdx ..
    · exact List.Sublist.refl _

/-! ### Planting -/

/-- A grove is planted below a live node: the forest grows by nodes below that one, which carry the
labels of the grove. -/
structure Planted (f g : Forest α) (parent : NodeId) (labels : List α) : Prop where
  wellFormed : WellFormed g
  grown : Extends f g
  fresh : ∀ x, g.contains x = true → f.contains x = false →
    g.Below parent x ∧ ∃ data ∈ labels, g.get? x = some data

/-- A planting behind another, somewhere below the same node. -/
theorem Planted.trans {parent top : NodeId} {few more : List α} (h : Planted f g top few)
    (h' : Planted g k parent more) (hw : g.Within top parent) :
    Planted f k top (few ++ more) where
  wellFormed := h'.wellFormed
  grown := h.grown.trans h'.grown
  fresh x hk hf := by
    cases hg : g.contains x with
    | true =>
      obtain ⟨hb, data, hd, hx⟩ := h.fresh x hg hf
      refine ⟨h'.grown.below hb, data, List.mem_append_left _ hd, ?_⟩
      rw [h'.grown.data x hg, hx]
    | false =>
      obtain ⟨⟨p, hp, hpw⟩, data, hd, hx⟩ := h'.fresh x hk hg
      exact ⟨⟨p, hp, Within.trans (h'.grown.within hw) hpw⟩, data,
        List.mem_append_right _ hd, hx⟩

theorem planted_insertChild (h : WellFormed f) {parent : NodeId} (hp : f.contains parent = true)
    (index : Nat) (data : α) : Planted f (f.insertChild parent index data).2 parent [data] where
  wellFormed := h.insertChild hp index data
  grown := extends_insertChild h hp index data
  fresh x hg hf := by
    have hx := (contains_insertChild h index data x).mp hg
    rw [hf] at hx
    simp only [Bool.false_eq_true, or_false] at hx
    refine ⟨⟨parent, ?_, Within.refl _⟩, data, List.mem_singleton_self data, ?_⟩
    · rw [parent?_insertChild h hp, if_pos hx]
    · rw [get?_insertChild h hp, if_pos hx]

theorem append_fst_child (h : WellFormed f) {parent : NodeId} (hp : f.contains parent = true)
    (data : α) :
    (f.append parent data).2.parent? (f.append parent data).1 = some parent := by
  show (f.insertChild parent _ data).2.parent? (f.create data).1 = some parent
  rw [parent?_insertChild h hp, if_pos rfl]

theorem planted_plant (h : WellFormed f) {parent : NodeId} (hp : f.contains parent = true)
    (grove : Grove α) : Planted f (f.plant parent grove).2 parent grove.labels := by
  induction grove generalizing f parent with
  | nil =>
    refine ⟨h, Extends.refl f, fun x hg hf => ?_⟩
    rw [show (f.plant parent .nil).2 = f from rfl, hf] at hg
    cases hg
  | cons top below rest ihb ihr =>
    have htop := planted_insertChild h hp (f.children parent).length top
    have hchild := append_fst_child h hp top
    have hinner := ihb htop.wellFormed (contains_of_parent? hchild)
    have hfirst := htop.trans hinner (Within.of_parent hchild)
    have houter := ihr hfirst.wellFormed (hfirst.grown.live parent hp)
    exact hfirst.trans houter (Within.refl parent)

end Strata.Forest
