import Mathlib.Logic.Relation
import Strata.Proofs.Forest.Entries

/-! What makes a forest one.

A forest is well-formed when parents and children agree, no node is listed twice
and no chain of parents is endless. `Within top id` says that a node is `top` or
below it; every node is within exactly one node without a parent, and that is
what `root?` finds (`root?_eq_some`). The number of slots bounds a chain of
parents, so the fuel of `lineage` is never short (`mem_lineage`). -/
namespace Strata.Forest

variable {α : Type} {f : Forest α}

/-! ### Entries read as parents, children and data -/

theorem contains_iff {id : NodeId} : f.contains id = true ↔ ∃ e, f.entry? id = some e :=
  Option.isSome_iff_exists

theorem contains_iff_get? {id : NodeId} :
    f.contains id = true ↔ ∃ data, f.get? id = some data := by
  simp [contains, get?, Option.isSome_iff_exists]

theorem contains_of_parent? {id parent : NodeId} (h : f.parent? id = some parent) :
    f.contains id = true := by
  obtain ⟨e, he, -⟩ := Option.bind_eq_some_iff.mp h
  exact contains_iff.mpr ⟨e, he⟩

theorem contains_of_mem_children {id parent : NodeId} (h : id ∈ f.children parent) :
    f.contains parent = true := by
  unfold children at h
  cases he : f.entry? parent with
  | none => simp [he] at h
  | some e => exact contains_iff.mpr ⟨e, he⟩

theorem get?_eq_none {id : NodeId} (h : f.contains id = false) : f.get? id = none := by
  simp_all [contains, get?]

theorem children_eq_nil {id : NodeId} (h : f.contains id = false) : f.children id = [] := by
  simp_all [contains, children]

theorem parent?_eq_none {id : NodeId} (h : f.contains id = false) : f.parent? id = none := by
  simp_all [contains, parent?]

/-! ### Above and below -/

/-- `id` is `top` or lies below it. -/
def Within (f : Forest α) (top id : NodeId) : Prop :=
  Relation.ReflTransGen (fun a b => f.parent? a = some b) id top

namespace Within

theorem refl (id : NodeId) : f.Within id id := Relation.ReflTransGen.refl

theorem of_parent {id parent : NodeId} (h : f.parent? id = some parent) : f.Within parent id :=
  Relation.ReflTransGen.single h

/-- What lies within the parent has the node within it too. -/
theorem step {top id parent : NodeId} (h : f.parent? id = some parent) (hp : f.Within top parent) :
    f.Within top id :=
  Relation.ReflTransGen.head h hp

theorem trans {a b c : NodeId} (hab : f.Within a b) (hbc : f.Within b c) : f.Within a c :=
  Relation.ReflTransGen.trans hbc hab

/-- A node within another is that, or its parent is within that. -/
theorem cases_parent {top id : NodeId} (h : f.Within top id) :
    id = top ∨ ∃ parent, f.parent? id = some parent ∧ f.Within top parent :=
  Relation.ReflTransGen.cases_head h

/-- Of two nodes that have a node within them, one is within the other. -/
theorem total {a b id : NodeId} (ha : f.Within a id) (hb : f.Within b id) :
    f.Within b a ∨ f.Within a b :=
  Relation.ReflTransGen.total_of_right_unique
    (fun _ _ _ h h' => Option.some.inj (h.symm.trans h')) ha hb

/-- Nothing but the node itself is within it and has no parent. -/
theorem eq_of_parent?_eq_none {top id : NodeId} (h : f.Within top id)
    (hn : f.parent? id = none) : id = top := by
  rcases h.cases_parent with h | ⟨parent, hp, -⟩
  · exact h
  · rw [hn] at hp
    cases hp

/-- A node without a parent that has a node within it has all above that within it. -/
theorem of_top {top id above : NodeId} (h : f.Within top id) (hn : f.parent? top = none)
    (ha : f.Within above id) : f.Within top above := by
  rcases h.total ha with h | h
  · rw [h.eq_of_parent?_eq_none hn]
    exact refl above
  · exact h

theorem contains {top id : NodeId} (h : f.Within top id) (hne : id ≠ top) :
    f.contains id = true := by
  rcases h.cases_parent with h | ⟨parent, hp, -⟩
  · exact absurd h hne
  · exact contains_of_parent? hp

/-- What is within a live node lives. -/
theorem live {top id : NodeId} (h : f.Within top id) (htop : f.contains top = true) :
    f.contains id = true := by
  by_cases heq : id = top
  · exact heq ▸ htop
  · exact h.contains heq

end Within

/-! ### Well-formed forests -/

structure WellFormed (f : Forest α) : Prop where
  stocked : f.Stocked
  listed : ∀ id parent, id ∈ f.children parent ↔ f.parent? id = some parent
  nodup : ∀ parent, (f.children parent).Nodup
  /-- No chain of parents is endless. -/
  grounded : WellFounded fun a b => f.parent? b = some a

theorem wellFormed_empty : WellFormed (empty : Forest α) := by
  have hnone : ∀ id, entry? (empty : Forest α) id = none := by
    intro id
    simp [ entry?, empty]
  refine ⟨stocked_empty, fun id parent => ?_, fun parent => ?_, ?_⟩
  · simp [children, parent?, hnone]
  · simp [children, hnone]
  · refine ⟨fun id => ⟨id, fun parent hp => ?_⟩⟩
    simp [parent?, hnone] at hp

namespace WellFormed

variable (h : WellFormed f)
include h

theorem contains_parent {id parent : NodeId} (hp : f.parent? id = some parent) :
    f.contains parent = true :=
  contains_of_mem_children ((h.listed id parent).mpr hp)

theorem contains_child {id parent : NodeId} (hc : id ∈ f.children parent) :
    f.contains id = true :=
  contains_of_parent? ((h.listed id parent).mp hc)

theorem contains_above {above id : NodeId} (ha : f.Within above id)
    (hid : f.contains id = true) : f.contains above = true := by
  induction ha with
  | refl => exact hid
  | tail _ hp _ => exact h.contains_parent hp

/-- A parent is not within its child. -/
theorem not_within_parent {id parent : NodeId} (hp : f.parent? id = some parent) :
    ¬ f.Within id parent := by
  induction id using h.grounded.induction generalizing parent with
  | _ id ih =>
    intro hw
    rcases hw.cases_parent with heq | ⟨grand, hg, hw⟩
    · subst heq
      exact ih parent hp hp (Within.refl _)
    · exact ih parent hp hg (Within.trans (Within.of_parent hp) hw)

theorem within_antisymm {a b : NodeId} (hab : f.Within a b) (hba : f.Within b a) : a = b := by
  rcases hab.cases_parent with heq | ⟨parent, hp, hw⟩
  · exact heq.symm
  · exact absurd (Within.trans hba hw) (h.not_within_parent hp)

/-! ### The nodes above a node -/

end WellFormed

/-- A node and all nodes above it, the nearest first. -/
inductive Ascent (f : Forest α) : NodeId → List NodeId → Prop where
  | top {id} : f.parent? id = none → Ascent f id [id]
  | step {id parent ids} : f.parent? id = some parent → Ascent f parent ids → Ascent f id (id :: ids)

namespace Ascent

theorem mem_iff {id above : NodeId} {ids : List NodeId} (h : Ascent f id ids) :
    above ∈ ids ↔ f.Within above id := by
  induction h with
  | top hn =>
    rw [List.mem_singleton]
    exact ⟨fun he => he ▸ Within.refl _, fun hw => (hw.eq_of_parent?_eq_none hn).symm⟩
  | step hp _ ih =>
    rw [List.mem_cons, ih]
    constructor
    · rintro (rfl | hw)
      · exact Within.refl _
      · exact Within.step hp hw
    · intro hw
      rcases hw.cases_parent with heq | ⟨parent, hp', hw⟩
      · exact Or.inl heq.symm
      · rw [hp] at hp'
        cases hp'
        exact Or.inr hw

theorem getLast? {id : NodeId} {ids : List NodeId} (h : Ascent f id ids) :
    ∃ top, ids.getLast? = some top ∧ f.parent? top = none ∧ f.Within top id := by
  induction h with
  | top hn => exact ⟨_, rfl, hn, Within.refl _⟩
  | @step id parent ids hp ha ih =>
    obtain ⟨top, hl, hn, hw⟩ := ih
    refine ⟨top, ?_, hn, Within.step hp hw⟩
    rw [List.getLast?_cons, hl]
    rfl

theorem upward_eq {id : NodeId} {ids : List NodeId} (h : Ascent f id ids) (fuel : Nat)
    (hfuel : ids.length ≤ fuel + 1) : f.upward fuel id = ids := by
  induction h generalizing fuel with
  | top hn => cases fuel <;> simp [upward, hn]
  | step hp ha ih =>
    cases fuel with
    | zero => cases ha <;> simp at hfuel
    | succ fuel =>
      simp only [upward, hp]
      rw [ih fuel (by simpa using hfuel)]

end Ascent

namespace WellFormed

variable (h : WellFormed f)
include h

theorem exists_ascent (id : NodeId) : ∃ ids, Ascent f id ids := by
  induction id using h.grounded.induction with
  | _ id ih =>
    cases hp : f.parent? id with
    | none => exact ⟨[id], .top hp⟩
    | some parent =>
      obtain ⟨ids, hids⟩ := ih parent hp
      exact ⟨id :: ids, .step hp hids⟩

theorem ascent_nodup {id : NodeId} {ids : List NodeId} (ha : Ascent f id ids) : ids.Nodup := by
  induction ha with
  | top => exact List.nodup_singleton _
  | step hp ha ih =>
    refine List.nodup_cons.mpr ⟨fun hm => ?_, ih⟩
    exact h.not_within_parent hp (ha.mem_iff.mp hm)

/-- A chain of parents fits into the slots. -/
theorem ascent_length_le {id : NodeId} {ids : List NodeId} (ha : Ascent f id ids)
    (hid : f.contains id = true) : ids.length ≤ f.slots.size :=
  length_le_of_live (h.ascent_nodup ha) fun _ hm => h.contains_above (ha.mem_iff.mp hm) hid

theorem ascent_lineage (id : NodeId) : Ascent f id (f.lineage id) := by
  obtain ⟨ids, ha⟩ := h.exists_ascent id
  have hl : f.lineage id = ids := by
    apply ha.upward_eq
    cases hc : f.contains id with
    | true => exact Nat.le_succ_of_le (h.ascent_length_le ha hc)
    | false =>
      cases ha with
      | top => simp
      | step hp => rw [contains_of_parent? hp] at hc; cases hc
  rw [hl]
  exact ha

theorem mem_lineage {id above : NodeId} : above ∈ f.lineage id ↔ f.Within above id :=
  (h.ascent_lineage id).mem_iff

theorem lineage_of_parent? {id parent : NodeId} (hp : f.parent? id = some parent) :
    f.lineage id = id :: f.lineage parent := by
  have ha := h.ascent_lineage id
  generalize f.lineage id = ids at ha
  cases ha with
  | top hn => rw [hn] at hp; cases hp
  | @step _ parent' ids hp' ha =>
    rw [hp] at hp'
    cases hp'
    -- One chain leads up from a node, so the two lists are one.
    have hlen := h.ascent_length_le (h.ascent_lineage parent) (h.contains_parent hp)
    have hl := (h.ascent_lineage parent).upward_eq f.slots.size (Nat.le_succ_of_le hlen)
    have hlen' := h.ascent_length_le ha (h.contains_parent hp)
    rw [← ha.upward_eq f.slots.size (Nat.le_succ_of_le hlen'), hl]

/-- The children of a node are farther from every top than the node, so no walk down is endless. -/
theorem wellFounded_children : WellFounded fun a b => f.parent? a = some b := by
  refine Subrelation.wf ?_ (measure fun id => f.slots.size - (f.lineage id).length).wf
  intro id parent hp
  have hlen := h.ascent_length_le (h.ascent_lineage id) (contains_of_parent? hp)
  rw [h.lineage_of_parent? hp, List.length_cons] at hlen
  show f.slots.size - (f.lineage id).length < f.slots.size - (f.lineage parent).length
  rw [h.lineage_of_parent? hp, List.length_cons]
  omega

/-! ### Roots -/

theorem root?_eq_some {id root : NodeId} :
    f.root? id = some root ↔
      f.contains id = true ∧ f.Within root id ∧ f.parent? root = none := by
  unfold root?
  obtain ⟨top, hl, hn, hw⟩ := (h.ascent_lineage id).getLast?
  split
  · next hc =>
    rw [hl]
    constructor
    · intro he
      cases he
      exact ⟨hc, hw, hn⟩
    · intro hboth
      obtain ⟨-, hw', hn'⟩ := hboth
      rw [(Within.of_top hw' hn' hw).eq_of_parent?_eq_none hn]
  · next hc =>
    constructor
    · intro he
      cases he
    · intro hboth
      obtain ⟨hc', -⟩ := hboth
      exact absurd hc' hc

theorem exists_root? {id : NodeId} (hid : f.contains id = true) :
    ∃ root, f.root? id = some root := by
  obtain ⟨top, -, hn, hw⟩ := (h.ascent_lineage id).getLast?
  exact ⟨top, h.root?_eq_some.mpr ⟨hid, hw, hn⟩⟩

end WellFormed

end Strata.Forest
