import Strata.Proofs.Connection

/-! Workspaces whose imports have been followed.

What following the imports records at stylesheets is there whether the layers could be inherited
after that or not. `Follows` says so of both, and it is what a split reads of the imports. -/
namespace Strata.Workspace

open Forest

variable {w v : Workspace} {resolve : Resolution} {base : FilePath}

/-- In `v` the edges of `w` are recorded at the stylesheets they lead to, by their identifiers, and
nothing but links is different. -/
structure Follows (w v : Workspace) (resolve : Resolution) (base : FilePath) : Prop where
  same : SameButLinks w v
  inbound : ∀ y t, v.get? y = some t →
    ∀ rule, rule ∈ t.inbound ↔ ∃ x layers, w.Edge resolve base x y rule layers
  rising : ∀ y t, v.get? y = some t → t.inbound.Pairwise (NodeId.before · · = true)

theorem follows_connect (h : w.Fresh) (resolve : Resolution) (base : FilePath) :
    Follows w (w.connect resolve base).1 resolve base where
  same := (linked_connect h resolve base).same
  inbound := (linked_connect h resolve base).inbound
  rising _ _ ht := (settled_connect (fun id s hs => (h.sheet id s hs).settled) resolve base ht).inbound

/-- What there is when the layers have been inherited, or could not be. -/
def afterInheriting (w : Workspace) : Workspace :=
  match w.inheritLayers with
  | .ok (_, v) => v
  | .error _ => w

theorem afterInheriting_eq {table : List (List SheetId)} (h : w.inheritLayers = .ok (table, v)) :
    w.afterInheriting = v := by
  simp only [afterInheriting, h]

theorem Follows.afterInheriting (h : Follows w v resolve base) :
    Follows w v.afterInheriting resolve base := by
  unfold Workspace.afterInheriting
  split
  · next u hl =>
    have hread (y : SheetId) (t : Sheet) (ht : u.get? y = some t) :
        ∃ s, v.get? y = some s ∧ t.inbound = s.inbound := by
      rw [get?_inheritLayers hl] at ht
      obtain ⟨s, hs, rfl⟩ := Option.map_eq_some_iff.mp ht
      exact ⟨s, hs, rfl⟩
    refine ⟨h.same.trans (sameButLinks_inheritLayers hl), fun y t ht => ?_, fun y t ht => ?_⟩
    · obtain ⟨s, hs, hts⟩ := hread y t ht
      exact hts ▸ h.inbound y s hs
    · obtain ⟨s, hs, hts⟩ := hread y t ht
      exact hts ▸ h.rising y s hs
  · exact h

/-- What is recorded is imports that texts hold. -/
theorem Follows.recorded (hv : Follows w v resolve base) (h : w.Fresh) : v.Recorded where
  tidy := hv.same.tidy h.tidy
  origin x n hx := h.origin (hv.same.doc ▸ hx)
  rule y t rule ht hr := by
    obtain ⟨x, layers, he⟩ := (hv.inbound y t ht rule).mp hr
    exact hv.same.doc ▸ he.importAt h.tidy

end Strata.Workspace
