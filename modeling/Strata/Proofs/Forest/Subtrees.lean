import Strata.Proofs.Forest.Planting

/-! Subtrees that stay the same.

Some nodes of a well-formed forest bear a grove, made of what is within them
(`exists_bears`). So what is read below a node depends on the nodes within it
only, and an edit elsewhere leaves it (`grove_congr`). -/
namespace Strata.Forest

variable {α : Type} {f g : Forest α}

theorem WellFormed.exists_bears (h : WellFormed f) {ids : List NodeId}
    (hlive : ∀ id ∈ ids, f.contains id = true) :
    ∃ grove, f.Bears (fun x => ∃ id ∈ ids, f.Within id x) ids grove := by
  -- A row of nodes bears a grove where each node has one below it.
  have hrow : ∀ ids : List NodeId, (∀ id ∈ ids, f.contains id = true ∧
      ∃ below, f.Bears (f.Within id) (f.children id) below) →
      ∃ grove, f.Bears (fun x => ∃ id ∈ ids, f.Within id x) ids grove := by
    intro ids
    induction ids with
    | nil => exact fun _ => ⟨.nil, .nil⟩
    | cons id ids ih =>
      intro hall
      obtain ⟨⟨hid, below, hbelow⟩, hrest⟩ := List.forall_mem_cons.mp hall
      obtain ⟨rest, hrest⟩ := ih hrest
      obtain ⟨top, htop⟩ := contains_iff_get?.mp hid
      refine ⟨.cons top below rest, .cons ⟨id, List.mem_cons_self .., Within.refl id⟩ htop
        (hbelow.congr fun x hx => ⟨⟨id, List.mem_cons_self .., hx⟩, rfl, rfl⟩)
        (hrest.congr fun x hx => ?_)⟩
      obtain ⟨c, hc, hw⟩ := hx
      exact ⟨⟨c, List.mem_cons_of_mem _ hc, hw⟩, rfl, rfl⟩
  have hbelow : ∀ id, ∃ below, f.Bears (f.Within id) (f.children id) below := by
    intro id
    induction id using h.wellFounded_children.induction with
    | _ id ih =>
      obtain ⟨below, hbelow⟩ := hrow (f.children id) fun c hc =>
        ⟨h.contains_child hc, ih c ((h.listed c id).mp hc)⟩
      refine ⟨below, hbelow.congr fun x hx => ?_⟩
      obtain ⟨c, hc, hw⟩ := hx
      exact ⟨Within.trans (Within.of_parent ((h.listed c id).mp hc)) hw, rfl, rfl⟩
  exact hrow ids fun id hid => ⟨hlive id hid, hbelow id⟩

/-- **Forests that agree within a node have the same grove below it.** -/
theorem grove_congr (h : WellFormed f) (hg : WellFormed g) {id : NodeId}
    (hsame : ∀ x, f.Within id x → g.get? x = f.get? x ∧ g.children x = f.children x) :
    g.grove id = f.grove id := by
  obtain ⟨below, hbelow⟩ := h.exists_bears fun c (hc : c ∈ f.children id) => h.contains_child hc
  have hborne : g.Bears (fun _ => True) (f.children id) below := by
    refine hbelow.congr fun x hx => ?_
    obtain ⟨c, hc, hw⟩ := hx
    exact ⟨trivial, hsame x (Within.trans (Within.of_parent ((h.listed c id).mp hc)) hw)⟩
  rw [← (hsame id (Within.refl id)).2] at hborne
  rw [h.grove_eq hbelow, hg.grove_eq hborne]

end Strata.Forest
