import Strata.Proofs.Forest.Planting

/-! Slots that are used again.

A freed slot gets another tenant under a greater version. `Spent` says of an
identifier that its slot has gone past its version, by a tenant or in the list of
free slots, so nothing that happens later brings it back. `Ages` relates a forest
to what any edits make of it: nothing spent comes back, and what does not live any
more is spent. -/
namespace Strata.Forest

variable {α : Type} {f g k : Forest α} {id : NodeId}

/-- The slot of an identifier has gone past its version. -/
def Spent (f : Forest α) (id : NodeId) : Prop :=
  (∃ e, f.slots[id.slot]? = some (some e) ∧ id.version < e.version) ∨
    ∃ next ∈ f.free, next.slot = id.slot ∧ id.version < next.version

theorem Spent.not_contains (h : f.Spent id) (hf : f.Stocked) : f.contains id = false := by
  rw [contains_eq_false, entry?]
  rcases h with ⟨e, hslot, hlt⟩ | ⟨next, hfree, hslot, -⟩
  · rw [hslot]
    simp [Nat.ne_of_gt hlt]
  · rw [← hslot, hf.vacant next hfree]
    rfl

/-- Time has passed from `f` to `g`. -/
structure Ages (f g : Forest α) : Prop where
  stocked : g.Stocked
  spent : ∀ id, f.Spent id → g.Spent id
  lives : ∀ id, f.contains id = true → g.contains id = true ∨ g.Spent id

theorem ages_refl (h : f.Stocked) : Ages f f := ⟨h, fun _ h => h, fun _ h => Or.inl h⟩

theorem Ages.trans (h : Ages f g) (h' : Ages g k) : Ages f k where
  stocked := h'.stocked
  spent id hid := h'.spent id (h.spent id hid)
  lives id hid := by
    rcases h.lives id hid with hg | hg
    · exact h'.lives id hg
    · exact Or.inr (h'.spent id hg)

/-- An identifier that has died stays dead. -/
theorem Ages.dead (h : Ages f g) (h' : Ages g k) (hlive : f.contains id = true)
    (hdead : g.contains id = false) : k.contains id = false := by
  rcases h.lives id hlive with hg | hg
  · rw [hdead] at hg
    cases hg
  · exact (h'.spent id hg).not_contains h'.stocked

/-! ### The steps that edits are made of -/

theorem ages_modify (h : f.Stocked) (id : NodeId) (change : Entry α → Entry α)
    (keeps : ∀ e, (change e).version = e.version) : Ages f (f.modify id change) where
  stocked := h.modify id change
  spent x hx := by
    unfold Forest.modify
    split
    · next e he =>
      rcases hx with ⟨d, hslot, hlt⟩ | hx
      · left
        by_cases heq : id.slot = x.slot
        · rw [← heq, (entry?_eq_some.mp he).1] at hslot
          cases hslot
          exact ⟨change e, by simp [← heq, slot_lt_size he], by rw [keeps]; exact hlt⟩
        · exact ⟨d, by simpa [Array.getElem?_setIfInBounds, heq] using hslot, hlt⟩
      · exact Or.inr hx
    · exact hx
  lives x hx := Or.inl (by rw [contains_modify id change keeps, hx])

theorem ages_create (h : f.Stocked) (data : α) : Ages f (f.create data).2 where
  stocked := h.create data
  spent x hx := by
    unfold Forest.create
    split
    · next id free hfree =>
      have hempty := h.vacant id (by rw [hfree]; exact List.mem_cons_self ..)
      rcases hx with ⟨e, hslot, hlt⟩ | ⟨next, hnext, hslot, hlt⟩
      · left
        have hne : id.slot ≠ x.slot := by
          intro heq
          rw [← heq, hempty] at hslot
          cases hslot
        exact ⟨e, by simpa [Array.getElem?_setIfInBounds, hne] using hslot, hlt⟩
      · rw [hfree] at hnext
        rcases List.mem_cons.mp hnext with rfl | hnext
        · -- The next tenant moves in.
          left
          refine ⟨⟨next.version, data, none, []⟩, ?_, hlt⟩
          have hin : next.slot < f.slots.size := (Array.getElem?_eq_some_iff.mp hempty).1
          simp [← hslot, hin]
        · exact Or.inr ⟨next, hnext, hslot, hlt⟩
    · next hfree =>
      rcases hx with ⟨e, hslot, hlt⟩ | hx
      · refine Or.inl ⟨e, ?_, hlt⟩
        have hin : x.slot < f.slots.size := (Array.getElem?_eq_some_iff.mp hslot).1
        rw [Array.getElem?_push_lt hin, ← hslot, Array.getElem?_eq_getElem hin]
      · exact Or.inr hx
  lives x hx := Or.inl ((contains_create h data x).mpr (Or.inr hx))

theorem ages_release (h : f.Stocked) (id : NodeId) : Ages f (f.release id) where
  stocked := h.release id
  spent x hx := by
    unfold Forest.release
    split
    · next e he =>
      obtain ⟨hs, hv⟩ := entry?_eq_some.mp he
      rcases hx with ⟨d, hslot, hlt⟩ | ⟨next, hnext, hrest⟩
      · by_cases heq : id.slot = x.slot
        · rw [← heq, hs] at hslot
          cases hslot
          exact Or.inr ⟨_, List.mem_cons_self .., heq, by
            show x.version < id.version + 1
            omega⟩
        · exact Or.inl ⟨d, by simpa [Array.getElem?_setIfInBounds, heq] using hslot, hlt⟩
      · exact Or.inr ⟨next, List.mem_cons_of_mem _ hnext, hrest⟩
    · exact hx
  lives x hx := by
    by_cases heq : x = id
    · right
      subst heq
      obtain ⟨e, he⟩ := contains_iff.mp hx
      unfold Forest.release
      rw [he]
      exact Or.inr ⟨_, List.mem_cons_self .., rfl, Nat.lt_succ_self _⟩
    · left
      rw [contains, entry?_release, if_neg heq]
      exact hx

/-! ### Edits -/

theorem ages_update (h : f.Stocked) (id : NodeId) (change : α → α) : Ages f (f.update id change) :=
  ages_modify h id (fun e => { e with data := change e.data }) fun _ => rfl

theorem ages_attach (h : f.Stocked) (id parent : NodeId) (index : Nat) :
    Ages f (f.attach id parent index) := by
  unfold attach
  split
  · have hfirst := ages_modify h parent (fun e =>
      { e with children := e.children.insertIdx (min index e.children.length) id }) fun _ => rfl
    exact hfirst.trans (ages_modify hfirst.stocked id (fun e => { e with parent := some parent })
      fun _ => rfl)
  · exact ages_refl h

theorem ages_detach (h : f.Stocked) (id : NodeId) : Ages f (f.detach id) := by
  unfold detach
  split
  · exact ages_refl h
  · next parent _ =>
    have hfirst := ages_modify h id (fun e => { e with parent := none }) fun _ => rfl
    exact hfirst.trans (ages_modify hfirst.stocked parent
      (fun e => { e with children := e.children.filter (· != id) }) fun _ => rfl)

theorem ages_move (h : f.Stocked) (id parent : NodeId) (index : Nat) :
    Ages f (f.move id parent index) :=
  (ages_detach h id).trans (ages_attach (ages_detach h id).stocked id parent index)

theorem ages_insertChild (h : f.Stocked) (parent : NodeId) (index : Nat) (data : α) :
    Ages f (f.insertChild parent index data).2 :=
  (ages_create h data).trans (ages_attach (h.create data) _ parent index)

theorem ages_plant (h : f.Stocked) (parent : NodeId) (grove : Grove α) :
    Ages f (f.plant parent grove).2 := by
  induction grove generalizing f parent with
  | nil => exact ages_refl h
  | cons top below rest ihb ihr =>
    have htop : Ages f (f.append parent top).2 := ages_insertChild h parent _ top
    have hinner := htop.trans (ihb htop.stocked (f.append parent top).1)
    exact hinner.trans (ihr hinner.stocked parent)

theorem ages_remove (h : f.Stocked) (id : NodeId) : Ages f (f.remove id) := by
  have hrun : ∀ (ids : List NodeId) {f : Forest α}, f.Stocked → Ages f (ids.foldl release f) := by
    intro ids
    induction ids with
    | nil => exact ages_refl
    | cons x ids ih => exact fun h => (ages_release h x).trans (ih (h.release x))
  unfold remove
  split
  · have hfirst := ages_detach h id
    exact hfirst.trans (hrun _ hfirst.stocked)
  · exact ages_refl h

end Strata.Forest
