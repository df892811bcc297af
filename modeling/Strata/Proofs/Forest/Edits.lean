import Strata.Proofs.Forest.Traversal

/-! Edits of a well-formed forest.

One lemma for each edit and each of the four readings of a forest: which nodes
live, their data, their parents, their children. Every edit keeps the forest
well-formed; the one that may not is a move to a place below the node itself,
which `not_within` excludes. -/
namespace Strata.Forest

variable {α : Type} {f g : Forest α}

/-! ### Entries decide everything -/

theorem get?_congr {id : NodeId} (h : g.entry? id = f.entry? id) : g.get? id = f.get? id := by
  simp only [get?, h]

theorem parent?_congr {id : NodeId} (h : g.entry? id = f.entry? id) :
    g.parent? id = f.parent? id := by
  simp only [parent?, h]

theorem children_congr {id : NodeId} (h : g.entry? id = f.entry? id) :
    g.children id = f.children id := by
  simp only [children, h]

theorem contains_eq_false {id : NodeId} : f.contains id = false ↔ f.entry? id = none := by
  simp [contains]

theorem contains_modify (id : NodeId) (change : Entry α → Entry α)
    (keeps : ∀ e, (change e).version = e.version) (x : NodeId) :
    (f.modify id change).contains x = f.contains x := by
  simp only [contains, entry?_modify f id change keeps]
  split
  · next heq => simp [heq]
  · rfl

/-! ### A new node -/

section create

variable (h : f.Stocked) (data : α)
include h

theorem contains_create (id : NodeId) :
    (f.create data).2.contains id = true ↔ id = (f.create data).1 ∨ f.contains id = true := by
  simp only [contains, entry?_create h]
  split <;> simp_all

theorem not_contains_created : f.contains (f.create data).1 = false :=
  contains_eq_false.mpr (create_fresh h data)

theorem get?_create (id : NodeId) :
    (f.create data).2.get? id = if id = (f.create data).1 then some data else f.get? id := by
  simp only [get?, entry?_create h]
  split <;> simp

theorem parent?_create (id : NodeId) : (f.create data).2.parent? id = f.parent? id := by
  simp only [parent?, entry?_create h]
  split
  · next heq => rw [heq, create_fresh h data]; rfl
  · rfl

theorem children_create (id : NodeId) : (f.create data).2.children id = f.children id := by
  simp only [children, entry?_create h]
  split
  · next heq => rw [heq, create_fresh h data]; rfl
  · rfl

end create

theorem WellFormed.create (h : WellFormed f) (data : α) : WellFormed (f.create data).2 := by
  refine ⟨h.stocked.create data, fun id parent => ?_, fun parent => ?_, ?_⟩
  · rw [children_create h.stocked, parent?_create h.stocked]
    exact h.listed id parent
  · rw [children_create h.stocked]
    exact h.nodup parent
  · simp only [parent?_create h.stocked]
    exact h.grounded

/-! ### Changed data -/

section update

variable (id : NodeId) (change : α → α)

theorem entry?_update (x : NodeId) :
    entry? (f.update id change) x =
      if x = id then (f.entry? id).map fun e => { e with data := change e.data }
      else f.entry? x :=
  entry?_modify f id (fun e => { e with data := change e.data }) (fun _ => rfl) x

theorem contains_update (x : NodeId) : (f.update id change).contains x = f.contains x :=
  contains_modify id (fun e => { e with data := change e.data }) (fun _ => rfl) x

theorem get?_update (x : NodeId) :
    (f.update id change).get? x = if x = id then (f.get? id).map change else f.get? x := by
  simp only [get?, entry?_update]
  split
  · cases f.entry? id <;> rfl
  · rfl

theorem parent?_update (x : NodeId) : (f.update id change).parent? x = f.parent? x := by
  simp only [parent?, entry?_update]
  split
  · next heq => rw [heq]; cases f.entry? id <;> rfl
  · rfl

theorem children_update (x : NodeId) : (f.update id change).children x = f.children x := by
  simp only [children, entry?_update]
  split
  · next heq => rw [heq]; cases f.entry? id <;> rfl
  · rfl

end update

theorem WellFormed.update (h : WellFormed f) (id : NodeId) (change : α → α) :
    WellFormed (f.update id change) := by
  refine ⟨h.stocked.modify id _, fun x parent => ?_, fun parent => ?_, ?_⟩
  · rw [children_update, parent?_update]
    exact h.listed x parent
  · rw [children_update]
    exact h.nodup parent
  · simp only [parent?_update]
    exact h.grounded

/-! ### A new parent -/

/-- One node gets another parent, which is not within it, and no chain becomes endless. -/
theorem grounded_redirect (hf : WellFounded fun a b => f.parent? b = some a) {id : NodeId}
    {parent : Option NodeId} (hp : ∀ x, g.parent? x = if x = id then parent else f.parent? x)
    (hout : ∀ p, parent = some p → ¬ f.Within id p) :
    WellFounded fun a b => g.parent? b = some a := by
  have hapart : ∀ x, ¬ f.Within id x → Acc (fun a b => g.parent? b = some a) x := by
    intro x
    induction x using hf.induction with
    | _ x ih =>
      intro hx
      refine ⟨x, fun p hxp => ?_⟩
      have hne : x ≠ id := fun heq => hx (heq ▸ Within.refl _)
      rw [hp, if_neg hne] at hxp
      exact ih p hxp fun hw => hx (Within.step hxp hw)
  refine ⟨fun x => ?_⟩
  induction x using hf.induction with
  | _ x ih =>
    refine ⟨x, fun p hxp => ?_⟩
    rw [hp] at hxp
    split at hxp
    · exact hapart p (hout p hxp)
    · exact ih p hxp

section attach

variable (id parent : NodeId) (index : Nat)

theorem entry?_attach (hp : f.contains parent = true) (hne : id ≠ parent) (x : NodeId) :
    entry? (f.attach id parent index) x =
      if x = id then (f.entry? id).map fun e => { e with parent := some parent }
      else if x = parent then
        (f.entry? parent).map fun e =>
          { e with children := e.children.insertIdx (min index e.children.length) id }
      else f.entry? x := by
  unfold attach
  rw [if_pos hp, entry?_modify, entry?_modify, entry?_modify]
  · simp [hne]
  all_goals exact fun _ => rfl

theorem contains_attach (x : NodeId) :
    (f.attach id parent index).contains x = f.contains x := by
  unfold attach
  split
  · rw [contains_modify, contains_modify]
    all_goals exact fun _ => rfl
  · rfl

theorem parent?_attach (hp : f.contains parent = true) (hid : f.contains id = true)
    (hne : id ≠ parent) (x : NodeId) :
    (f.attach id parent index).parent? x = if x = id then some parent else f.parent? x := by
  simp only [parent?, entry?_attach id parent index hp hne]
  obtain ⟨e, he⟩ := contains_iff.mp hid
  split
  · simp [he]
  · split
    · next heq => rw [heq]; cases f.entry? parent <;> rfl
    · rfl

theorem get?_attach (hp : f.contains parent = true) (hne : id ≠ parent) (x : NodeId) :
    (f.attach id parent index).get? x = f.get? x := by
  simp only [get?, entry?_attach id parent index hp hne]
  split
  · next heq => rw [heq]; cases f.entry? id <;> rfl
  · split
    · next heq => rw [heq]; cases f.entry? parent <;> rfl
    · rfl

theorem children_attach (hp : f.contains parent = true) (hne : id ≠ parent) (x : NodeId) :
    (f.attach id parent index).children x =
      if x = parent then (f.children parent).insertIdx (min index (f.children parent).length) id
      else f.children x := by
  simp only [children, entry?_attach id parent index hp hne]
  obtain ⟨e, he⟩ := contains_iff.mp hp
  split
  · next heq =>
    rw [heq, if_neg hne]
    cases f.entry? id <;> rfl
  · split
    · simp [he]
    · rfl

theorem stocked_attach (h : f.Stocked) : (f.attach id parent index).Stocked := by
  unfold attach
  split
  · exact (h.modify parent _).modify id _
  · exact h

end attach

theorem WellFormed.attach (h : WellFormed f) {id parent : NodeId} (index : Nat)
    (hp : f.contains parent = true) (hid : f.contains id = true) (htop : f.parent? id = none)
    (hout : ¬ f.Within id parent) : WellFormed (f.attach id parent index) := by
  have hne : id ≠ parent := fun heq => hout (heq ▸ Within.refl _)
  have hnotin : ∀ p, id ∉ f.children p := by
    intro p hm
    rw [h.listed, htop] at hm
    cases hm
  refine ⟨stocked_attach id parent index h.stocked, fun x p => ?_, fun p => ?_, ?_⟩
  · rw [children_attach id parent index hp hne, parent?_attach id parent index hp hid hne]
    by_cases hpp : p = parent
    · rw [if_pos hpp, List.mem_insertIdx (Nat.min_le_right ..), h.listed]
      by_cases hx : x = id
      · simp [hx, hpp]
      · simp [hx, hpp]
    · rw [if_neg hpp, h.listed]
      by_cases hx : x = id
      · subst hx
        simp [htop, Ne.symm hpp]
      · simp [hx]
  · rw [children_attach id parent index hp hne]
    split
    · rw [(List.perm_insertIdx id _ (Nat.min_le_right ..)).nodup_iff]
      exact List.nodup_cons.mpr ⟨hnotin parent, h.nodup parent⟩
    · exact h.nodup p
  · refine grounded_redirect h.grounded (parent?_attach id parent index hp hid hne) ?_
    intro p hpp
    cases hpp
    exact hout

/-! ### No parent -/

section detach

variable (h : WellFormed f) (id : NodeId)
include h

theorem entry?_detach {parent : NodeId} (hp : f.parent? id = some parent) (x : NodeId) :
    entry? (f.detach id) x =
      if x = parent then
        (f.entry? parent).map fun e => { e with children := e.children.filter (· != id) }
      else if x = id then (f.entry? id).map fun e => { e with parent := none }
      else f.entry? x := by
  have hne : parent ≠ id := fun heq =>
    h.not_within_parent hp (heq ▸ Within.refl _)
  unfold detach
  simp only [hp]
  rw [ entry?_modify, entry?_modify, entry?_modify]
  · simp [hne]
  all_goals exact fun _ => rfl

theorem contains_detach (x : NodeId) : (f.detach id).contains x = f.contains x := by
  cases hp : f.parent? id with
  | none => simp [detach, hp]
  | some parent =>
    simp only [contains, entry?_detach h id hp]
    split
    · next heq => simp [heq]
    · split
      · next heq => simp [heq]
      · rfl

theorem get?_detach (x : NodeId) : (f.detach id).get? x = f.get? x := by
  cases hp : f.parent? id with
  | none => simp [detach, hp]
  | some parent =>
    simp only [get?, entry?_detach h id hp]
    split
    · next heq => rw [heq]; cases f.entry? parent <;> rfl
    · split
      · next heq => rw [heq]; cases f.entry? id <;> rfl
      · rfl

theorem parent?_detach (x : NodeId) :
    (f.detach id).parent? x = if x = id then none else f.parent? x := by
  cases hp : f.parent? id with
  | none =>
    simp only [detach, hp]
    split
    · next heq => rw [heq, hp]
    · rfl
  | some parent =>
    have hne : parent ≠ id := fun heq =>
      h.not_within_parent hp (heq ▸ Within.refl _)
    simp only [parent?, entry?_detach h id hp]
    split
    · next heq =>
      rw [if_neg (heq ▸ hne), heq]
      cases f.entry? parent <;> rfl
    · split
      · cases f.entry? id <;> rfl
      · rfl

theorem children_detach (x : NodeId) :
    (f.detach id).children x = (f.children x).filter (· != id) := by
  have hkeep : f.parent? id ≠ some x → (f.children x).filter (· != id) = f.children x := by
    intro hx
    refine List.filter_eq_self.mpr fun c hc => ?_
    rw [bne_iff_ne]
    rintro rfl
    exact hx ((h.listed _ _).mp hc)
  cases hp : f.parent? id with
  | none =>
    rw [hkeep (by simp [hp])]
    simp [detach, hp]
  | some parent =>
    by_cases hx : x = parent
    · subst hx
      simp only [children, entry?_detach h id hp]
      cases f.entry? x <;> simp
    · rw [hkeep (by simpa [hp] using Ne.symm hx)]
      simp only [children, entry?_detach h id hp, if_neg hx]
      split
      · next heq => rw [heq]; cases f.entry? id <;> rfl
      · rfl

theorem WellFormed.detach : WellFormed (f.detach id) := by
  refine ⟨?_, fun x p => ?_, fun p => ?_, ?_⟩
  · unfold Forest.detach
    split
    · exact h.stocked
    · exact (h.stocked.modify _ _).modify _ _
  · rw [children_detach h, parent?_detach h, List.mem_filter, h.listed]
    by_cases hx : x = id <;> simp [hx]
  · rw [children_detach h]
    exact (h.nodup p).filter _
  · refine grounded_redirect h.grounded (parent?_detach h id) ?_
    intro p hpp
    cases hpp

end detach

/-! ### Moves -/

/-- A place that a node can move to. -/
structure Movable (f : Forest α) (id parent : NodeId) : Prop where
  live : f.contains id = true
  parent_live : f.contains parent = true
  not_within : ¬ f.Within id parent

theorem Movable.ne {id parent : NodeId} (hm : f.Movable id parent) : id ≠ parent :=
  fun heq => hm.not_within (heq ▸ Within.refl _)

theorem contains_move (h : WellFormed f) (id parent : NodeId) (index : Nat) (x : NodeId) :
    (f.move id parent index).contains x = f.contains x := by
  rw [move, contains_attach, contains_detach h]

section move

variable (h : WellFormed f) {id parent : NodeId} (hm : f.Movable id parent) (index : Nat)
include h hm

theorem get?_move (x : NodeId) : (f.move id parent index).get? x = f.get? x := by
  rw [move, get?_attach _ _ _ (by rw [contains_detach h]; exact hm.parent_live) hm.ne,
    get?_detach h]

theorem parent?_move (x : NodeId) :
    (f.move id parent index).parent? x = if x = id then some parent else f.parent? x := by
  rw [move, parent?_attach _ _ _ (by rw [contains_detach h]; exact hm.parent_live)
    (by rw [contains_detach h]; exact hm.live) hm.ne, parent?_detach h]
  split <;> simp_all

theorem children_move (x : NodeId) :
    (f.move id parent index).children x =
      let others := (f.children x).filter (· != id)
      if x = parent then others.insertIdx (min index others.length) id else others := by
  rw [move, children_attach _ _ _ (by rw [contains_detach h]; exact hm.parent_live) hm.ne]
  simp only [children_detach h]
  split
  · next heq => rw [heq]
  · rfl

theorem WellFormed.move : WellFormed (f.move id parent index) := by
  refine (h.detach id).attach index ?_ ?_ ?_ ?_
  · rw [contains_detach h]
    exact hm.parent_live
  · rw [contains_detach h]
    exact hm.live
  · rw [parent?_detach h, if_pos rfl]
  · intro hw
    -- Above the new parent nothing has changed, as the node is not there.
    have hsame : f.Within id parent := by
      refine Relation.ReflTransGen.mono (fun a b hab => ?_) _ _ hw
      rw [parent?_detach h] at hab
      split at hab
      · cases hab
      · exact hab
    exact hm.not_within hsame

end move

/-! ### A new node at a place -/

theorem insertChild_fst (parent : NodeId) (index : Nat) (data : α) :
    (f.insertChild parent index data).1 = (f.create data).1 := rfl

theorem insertChild_snd (parent : NodeId) (index : Nat) (data : α) :
    (f.insertChild parent index data).2 =
      (f.create data).2.attach (f.create data).1 parent index := rfl

section insertChild

variable (h : WellFormed f) {parent : NodeId} (hp : f.contains parent = true) (index : Nat)
  (data : α)
include h hp

theorem insertChild_ready :
    (f.create data).2.contains parent = true ∧
      (f.create data).2.contains (f.create data).1 = true ∧ (f.create data).1 ≠ parent := by
  refine ⟨(contains_create h.stocked data parent).mpr (Or.inr hp),
    (contains_create h.stocked data _).mpr (Or.inl rfl), fun heq => ?_⟩
  have hnew := not_contains_created h.stocked data
  rw [heq, hp] at hnew
  cases hnew

omit hp in
theorem contains_insertChild (x : NodeId) :
    (f.insertChild parent index data).2.contains x = true ↔
      x = (f.create data).1 ∨ f.contains x = true := by
  rw [insertChild_snd]
  rw [contains_attach, contains_create h.stocked]

theorem get?_insertChild (x : NodeId) :
    (f.insertChild parent index data).2.get? x =
      if x = (f.create data).1 then some data else f.get? x := by
  obtain ⟨hpl, -, hne⟩ := insertChild_ready h hp data
  rw [insertChild_snd]
  rw [get?_attach _ _ _ hpl hne, get?_create h.stocked]

theorem parent?_insertChild (x : NodeId) :
    (f.insertChild parent index data).2.parent? x =
      if x = (f.create data).1 then some parent else f.parent? x := by
  obtain ⟨hpl, hidl, hne⟩ := insertChild_ready h hp data
  rw [insertChild_snd]
  rw [parent?_attach _ _ _ hpl hidl hne, parent?_create h.stocked]

theorem children_insertChild (x : NodeId) :
    (f.insertChild parent index data).2.children x =
      if x = parent then
        (f.children parent).insertIdx (min index (f.children parent).length) (f.create data).1
      else f.children x := by
  obtain ⟨hpl, -, hne⟩ := insertChild_ready h hp data
  rw [insertChild_snd]
  rw [children_attach _ _ _ hpl hne]
  simp only [children_create h.stocked]

theorem WellFormed.insertChild : WellFormed (f.insertChild parent index data).2 := by
  obtain ⟨hpl, hidl, hne⟩ := insertChild_ready h hp data
  have htop : (f.create data).2.parent? (f.create data).1 = none := by
    rw [parent?_create h.stocked, parent?_eq_none (not_contains_created h.stocked data)]
  refine (h.create data).attach index hpl hidl htop fun hw => ?_
  rcases hw.cases_parent with heq | ⟨p, hpp, hw⟩
  · exact hne heq.symm
  · -- The new node has no children, so nothing else is within it.
    have hnone : ∀ x, (f.create data).2.parent? x ≠ some (f.create data).1 := by
      intro x hx
      rw [parent?_create h.stocked] at hx
      have hlive := h.contains_parent hx
      rw [not_contains_created h.stocked] at hlive
      cases hlive
    rcases Relation.ReflTransGen.cases_tail hw with heq | ⟨c, -, hc⟩
    · exact hnone parent (heq ▸ hpp)
    · exact hnone c hc

end insertChild

/-! ### Removals -/

theorem removalOrder_eq_workOff (n : Nat) (stack : List NodeId) :
    f.removalOrder n stack = workOff (fun id => (f.children id).reverse) n stack := by
  induction n generalizing stack with
  | zero => rfl
  | succ n ih =>
    cases stack with
    | nil => rfl
    | cons id stack => rw [removalOrder, workOff, ih]

theorem entry?_foldl_release (ids : List NodeId) (x : NodeId) :
    entry? (ids.foldl release f) x = if x ∈ ids then none else f.entry? x := by
  induction ids generalizing f with
  | nil => simp
  | cons id ids ih =>
    rw [List.foldl_cons, ih, entry?_release]
    by_cases hx : x = id <;> by_cases hm : x ∈ ids <;> simp [hx, hm]

theorem Stocked.foldl_release (h : f.Stocked) (ids : List NodeId) :
    (ids.foldl Forest.release f).Stocked := by
  induction ids generalizing f with
  | nil => exact h
  | cons id ids ih => exact ih (h.release id)

section remove

variable (h : WellFormed f) (id : NodeId)
include h

/-- A removal frees a node and all below it. -/
theorem mem_removalOrder (hid : f.contains id = true) (x : NodeId) :
    x ∈ f.removalOrder f.slots.size [id] ↔ f.Within id x := by
  have hnext : ∀ a, ∀ c ∈ (f.children a).reverse, f.parent? c = some a :=
    fun a c hc => (h.listed c a).mp (List.mem_reverse.mp hc)
  obtain ⟨met, hv⟩ := h.exists_visits hnext [id]
  have hlen := h.visits_length_le hnext (fun a => List.nodup_reverse.mpr (h.nodup a)) hv
    (List.nodup_singleton id) (fun a ha b hb _ => by simp_all) (fun a ha => by simp_all)
  rw [removalOrder_eq_workOff, hv.workOff_eq _ hlen, hv.mem_iff]
  constructor
  · intro hex
    obtain ⟨top, htop, hp⟩ := hex
    rw [List.mem_singleton.mp htop] at hp
    exact within_of_path hnext hp
  · intro hw
    refine ⟨id, List.mem_singleton_self id, ?_⟩
    induction hw using Relation.ReflTransGen.head_induction_on with
    | refl => exact .refl
    | head hp _ ih => exact ih.tail (List.mem_reverse.mpr ((h.listed _ _).mpr hp))

theorem not_within_of_dead (hid : f.contains id = false) {x : NodeId}
    (hx : f.contains x = true) : ¬ f.Within id x := by
  intro hw
  rw [h.contains_above hw hx] at hid
  cases hid

open Classical in
theorem entry?_remove (x : NodeId) :
    entry? (f.remove id) x = if f.Within id x then none else entry? (f.detach id) x := by
  unfold remove
  split
  · next hid =>
    rw [ entry?_foldl_release]
    simp only [mem_removalOrder h id hid]
  · next hid =>
    have hid : f.contains id = false := by simpa using hid
    have hsame : f.detach id = f := by simp [detach, parent?_eq_none hid]
    rw [hsame]
    split
    · next hw =>
      cases hx : f.contains x with
      | true => exact absurd hw (not_within_of_dead h id hid hx)
      | false => exact contains_eq_false.mp hx
    · rfl

theorem contains_remove (x : NodeId) :
    (f.remove id).contains x = true ↔ f.contains x = true ∧ ¬ f.Within id x := by
  rw [contains, entry?_remove h]
  split
  · next hw => simp [hw]
  · next hw =>
    show (f.detach id).contains x = true ↔ _
    rw [contains_detach h]
    simp [hw]

/-- A node that is not removed is read as in the forest without a parent for the removed one. -/
theorem entry?_remove_of_not_within {x : NodeId} (hx : ¬ f.Within id x) :
    entry? (f.remove id) x = entry? (f.detach id) x := by
  rw [ entry?_remove h, if_neg hx]

theorem get?_remove {x : NodeId} (hx : ¬ f.Within id x) : (f.remove id).get? x = f.get? x := by
  rw [get?_congr (entry?_remove_of_not_within h id hx), get?_detach h]

theorem parent?_remove {x : NodeId} (hx : ¬ f.Within id x) :
    (f.remove id).parent? x = f.parent? x := by
  have hne : x ≠ id := fun heq => hx (heq ▸ Within.refl _)
  rw [parent?_congr (entry?_remove_of_not_within h id hx), parent?_detach h, if_neg hne]

theorem children_remove {x : NodeId} (hx : ¬ f.Within id x) :
    (f.remove id).children x = (f.children x).filter (· != id) := by
  rw [children_congr (entry?_remove_of_not_within h id hx), children_detach h]

theorem removed {x : NodeId} (hx : f.Within id x) :
    (f.remove id).parent? x = none ∧ (f.remove id).children x = [] := by
  have hdead : (f.remove id).contains x = false := by
    rw [contains_eq_false, entry?_remove h, if_pos hx]
  exact ⟨parent?_eq_none hdead, children_eq_nil hdead⟩

theorem WellFormed.remove : WellFormed (f.remove id) := by
  have hparent : ∀ x p, (f.remove id).parent? x = some p → f.parent? x = some p := by
    intro x p hp
    by_cases hx : f.Within id x
    · rw [(removed h id hx).1] at hp
      cases hp
    · rwa [parent?_remove h id hx] at hp
  refine ⟨?_, fun x p => ?_, fun p => ?_, ?_⟩
  · unfold Forest.remove
    split
    · exact (h.detach id).stocked.foldl_release _
    · exact h.stocked
  · by_cases hpw : f.Within id p
    · rw [(removed h id hpw).2]
      refine ⟨fun hm => absurd hm List.not_mem_nil, fun hp => ?_⟩
      have hx : f.Within id x := Within.step (hparent x p hp) hpw
      rw [(removed h id hx).1] at hp
      cases hp
    · rw [children_remove h id hpw, List.mem_filter, h.listed, bne_iff_ne]
      constructor
      · intro hboth
        obtain ⟨hp, hne⟩ := hboth
        have hx : ¬ f.Within id x := by
          intro hw
          rcases hw.cases_parent with heq | ⟨q, hq, hw⟩
          · exact hne heq
          · rw [hp] at hq
            cases hq
            exact hpw hw
        rw [parent?_remove h id hx, hp]
      · intro hp
        refine ⟨hparent x p hp, ?_⟩
        rintro rfl
        rw [(removed h x (Within.refl x)).1] at hp
        cases hp
  · by_cases hpw : f.Within id p
    · rw [(removed h id hpw).2]
      exact List.nodup_nil
    · rw [children_remove h id hpw]
      exact (h.nodup p).filter _
  · exact Subrelation.wf (fun {a b} hp => hparent b a hp) h.grounded

end remove

end Strata.Forest
