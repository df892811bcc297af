import Strata.Proofs.Forest.Edits

/-! Forests with some nodes removed.

`Thinned f g gone` says that `g` has the shape of `f` without the nodes that are
within one of those that are `gone`: what is left has the parents it had, and the
children of a node are those that are left, in their order. -/
namespace Strata.Forest

variable {α : Type} {f g k : Forest α} {gone more : NodeId → Prop}

structure Thinned (f g : Forest α) (gone : NodeId → Prop) : Prop where
  wellFormed : WellFormed g
  live : ∀ x, g.contains x = true ↔ f.contains x = true ∧ ∀ id, gone id → ¬ f.Within id x
  parent : ∀ x, g.contains x = true → g.parent? x = f.parent? x
  children : ∀ x, g.contains x = true → g.children x = (f.children x).filter g.contains

theorem thinned_nothing (h : WellFormed f) : Thinned f f fun _ => False where
  wellFormed := h
  live x := by simp
  parent _ _ := rfl
  children x _ := (List.filter_eq_self.mpr fun _ hc => h.contains_child hc).symm

theorem thinned_remove (h : WellFormed f) (id : NodeId) : Thinned f (f.remove id) (· = id) where
  wellFormed := h.remove id
  live x := by rw [contains_remove h, forall_eq]
  parent x hx := parent?_remove h id ((contains_remove h id x).mp hx).2
  children x hx := by
    obtain ⟨-, hout⟩ := (contains_remove h id x).mp hx
    rw [children_remove h id hout]
    refine List.filter_congr fun c hc => ?_
    rw [Bool.eq_iff_iff, bne_iff_ne, contains_remove h]
    have hparent := (h.listed c x).mp hc
    constructor
    · intro hne
      refine ⟨contains_of_parent? hparent, fun hw => ?_⟩
      obtain ⟨p, hp, hw⟩ := hw.cases_parent.resolve_left hne
      rw [hparent] at hp
      cases hp
      exact hout hw
    · rintro ⟨-, hout⟩ rfl
      exact hout (Within.refl _)

namespace Thinned

theorem congr (h : Thinned f g gone) (heq : ∀ id, more id ↔ gone id) : Thinned f g more := by
  have : more = gone := by
    funext id
    exact propext (heq id)
  rw [this]
  exact h

variable (h : Thinned f g gone)
include h

theorem live_before {x : NodeId} (hx : g.contains x = true) : f.contains x = true :=
  ((h.live x).mp hx).1

/-- What is above a node that is left is left. -/
theorem live_above (hf : WellFormed f) {a x : NodeId} (hx : g.contains x = true)
    (ha : f.Within a x) : g.contains a = true := by
  obtain ⟨hlive, hout⟩ := (h.live x).mp hx
  exact (h.live a).mpr ⟨hf.contains_above ha hlive, fun id hid hw => hout id hid (Within.trans hw ha)⟩

theorem within (hf : WellFormed f) {a x : NodeId} (hx : g.contains x = true)
    (ha : f.Within a x) : g.Within a x := by
  induction ha using Relation.ReflTransGen.head_induction_on with
  | refl => exact Within.refl _
  | @head b c hbc _ ih =>
    have hc := h.live_above hf hx (Within.of_parent hbc)
    exact Within.step ((h.parent b hx).trans hbc) (ih hc)

theorem within_before {a x : NodeId} (ha : g.Within a x) : f.Within a x := by
  induction ha using Relation.ReflTransGen.head_induction_on with
  | refl => exact Within.refl _
  | @head b c hbc _ ih =>
    have hbc : g.parent? b = some c := hbc
    rw [h.parent b (contains_of_parent? hbc)] at hbc
    exact Within.step hbc ih

theorem trans (hf : WellFormed f) (h' : Thinned g k more) :
    Thinned f k fun id => gone id ∨ more id where
  wellFormed := h'.wellFormed
  live x := by
    rw [h'.live, h.live]
    constructor
    · intro hboth
      obtain ⟨hg, hout⟩ := hboth
      refine ⟨hg.1, fun id hid hw => ?_⟩
      rcases hid with hid | hid
      · exact hg.2 id hid hw
      · exact hout id hid (h.within hf ((h.live x).mpr hg) hw)
    · intro hboth
      obtain ⟨hx, hout⟩ := hboth
      exact ⟨⟨hx, fun id hid => hout id (Or.inl hid)⟩,
        fun id hid hw => hout id (Or.inr hid) (h.within_before hw)⟩
  parent x hx := (h'.parent x hx).trans (h.parent x (h'.live_before hx))
  children x hx := by
    rw [h'.children x hx, h.children x (h'.live_before hx), List.filter_filter]
    refine List.filter_congr fun c _ => ?_
    rw [Bool.eq_iff_iff, Bool.and_eq_true]
    exact and_iff_left_of_imp h'.live_before

end Thinned

/-- Some nodes are removed, one after another. -/
theorem thinned_foldl (h : WellFormed f) (ids : List NodeId) :
    Thinned f (ids.foldl (fun f id => f.remove id) f) (· ∈ ids) := by
  induction ids generalizing f with
  | nil => exact (thinned_nothing h).congr fun id => by simp
  | cons id ids ih =>
    have hfirst := thinned_remove h id
    refine (hfirst.trans h (ih hfirst.wellFormed)).congr fun x => ?_
    rw [List.mem_cons]

/-- What is left keeps its data. -/
theorem get?_foldl_remove (h : WellFormed f) (ids : List NodeId) {x : NodeId}
    (hx : (ids.foldl (fun f id => f.remove id) f).contains x = true) :
    (ids.foldl (fun f id => f.remove id) f).get? x = f.get? x := by
  induction ids generalizing f with
  | nil => rfl
  | cons id ids ih =>
    have hwf := h.remove id
    have hlive := (thinned_foldl hwf ids).live_before hx
    rw [List.foldl_cons, ih hwf hx, get?_remove h id ((contains_remove h id x).mp hlive).2]

end Strata.Forest
