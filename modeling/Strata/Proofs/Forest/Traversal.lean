import Strata.Proofs.Forest.WellFormed

/-! Walks through a forest.

A walk keeps a stack of nodes to be met and a count of steps. `Visits` is the
order without the count: a node, then what is entered below it, then the rest of
the stack. It holds of one list only, has every node that is entered from the
stack, and in a well-formed forest has none twice, so it fits into the slots and
the count is never short. `mem_walk` and `mem_outermost` say what a walk meets,
and `pair_outermost` that siblings are met in their order. -/
namespace Strata.Forest

variable {α : Type} {f g : Forest α}

/-- `id` lies below `top`. -/
def Below (f : Forest α) (top id : NodeId) : Prop :=
  ∃ parent, f.parent? id = some parent ∧ f.Within top parent

theorem Below.within {top id : NodeId} (h : f.Below top id) : f.Within top id := by
  obtain ⟨parent, hp, hw⟩ := h
  exact Within.step hp hw

/-- What has something below it has a child. -/
theorem Below.exists_child {top id : NodeId} (h : f.Below top id) :
    ∃ c, f.parent? c = some top := by
  obtain ⟨parent, hp, hw⟩ := h
  rcases Relation.ReflTransGen.cases_tail hw with rfl | ⟨c, -, hc⟩
  · exact ⟨id, hp⟩
  · exact ⟨c, hc⟩

theorem within_iff {top id : NodeId} : f.Within top id ↔ id = top ∨ f.Below top id :=
  ⟨Within.cases_parent, fun h => h.elim (fun he => he ▸ Within.refl _) Below.within⟩

theorem WellFormed.below_iff (h : WellFormed f) {top id : NodeId} :
    f.Below top id ↔ f.Within top id ∧ id ≠ top := by
  constructor
  · intro hb
    refine ⟨hb.within, ?_⟩
    rintro rfl
    obtain ⟨parent, hp, hw⟩ := hb
    exact h.not_within_parent hp hw
  · intro hboth
    obtain ⟨hw, hne⟩ := hboth
    exact hw.cases_parent.resolve_left hne

/-! ### The order in which a stack is worked off -/

/-- The nodes met from a stack, when `next` are those entered below a node. -/
inductive Visits (next : NodeId → List NodeId) : List NodeId → List NodeId → Prop where
  | nil : Visits next [] []
  | cons {id stack inner outer} : Visits next (next id) inner → Visits next stack outer →
      Visits next (id :: stack) (id :: (inner ++ outer))

/-- The same order under a count: `n` nodes are met at most. -/
def workOff (next : NodeId → List NodeId) : Nat → List NodeId → List NodeId
  | 0, _ => []
  | _, [] => []
  | n + 1, id :: stack => id :: workOff next n (next id ++ stack)

theorem workOff_nil (next : NodeId → List NodeId) (n : Nat) : workOff next n [] = [] := by
  cases n <;> rfl

namespace Visits

variable {next : NodeId → List NodeId}

theorem exists_of_wellFounded (hwf : WellFounded fun a b => a ∈ next b) (stack : List NodeId) :
    ∃ met, Visits next stack met := by
  have hone : ∀ id, ∃ met, Visits next (next id) met := by
    intro id
    induction id using hwf.induction with
    | _ id ih =>
      generalize hs : next id = stack at ih
      clear hs
      induction stack with
      | nil => exact ⟨[], .nil⟩
      | cons a stack iht =>
        obtain ⟨inner, hi⟩ := ih a (List.mem_cons_self ..)
        obtain ⟨outer, ho⟩ := iht fun b hb => ih b (List.mem_cons_of_mem _ hb)
        exact ⟨_, .cons hi ho⟩
  induction stack with
  | nil => exact ⟨[], .nil⟩
  | cons a stack ih =>
    obtain ⟨inner, hi⟩ := hone a
    obtain ⟨outer, ho⟩ := ih
    exact ⟨_, .cons hi ho⟩

theorem unique {stack met met' : List NodeId} (h : Visits next stack met)
    (h' : Visits next stack met') : met = met' := by
  induction h generalizing met' with
  | nil => cases h'; rfl
  | cons _ _ ihi iho =>
    cases h' with
    | cons hi ho => rw [ihi hi, iho ho]

/-- Another `next` that enters the same below every node that is met gives the same order. -/
theorem congr {next' : NodeId → List NodeId} {stack met : List NodeId} (h : Visits next stack met)
    (hnext : ∀ id ∈ met, next' id = next id) : Visits next' stack met := by
  induction h with
  | nil => exact .nil
  | @cons id stack inner outer _ _ ihi iho =>
    refine .cons ?_ (iho fun a ha => hnext a ?_)
    · rw [hnext id (List.mem_cons_self ..)]
      exact ihi fun a ha => hnext a (List.mem_cons_of_mem _ (List.mem_append_left _ ha))
    · exact List.mem_cons_of_mem _ (List.mem_append_right _ ha)

theorem mem_iff {stack met : List NodeId} (h : Visits next stack met) {id : NodeId} :
    id ∈ met ↔ ∃ top ∈ stack, Relation.ReflTransGen (fun a b => b ∈ next a) top id := by
  induction h with
  | nil => simp
  | @cons top stack inner outer _ _ ihi iho =>
    rw [List.mem_cons, List.mem_append, ihi, iho]
    constructor
    · rintro (rfl | ⟨a, ha, hp⟩ | ⟨a, ha, hp⟩)
      · exact ⟨id, List.mem_cons_self .., .refl⟩
      · exact ⟨top, List.mem_cons_self .., .head ha hp⟩
      · exact ⟨a, List.mem_cons_of_mem _ ha, hp⟩
    · intro hex
      obtain ⟨a, ha, hp⟩ := hex
      rcases List.mem_cons.mp ha with rfl | ha
      · rcases hp.cases_head with rfl | ⟨b, hb, hp⟩
        · exact Or.inl rfl
        · exact Or.inr (Or.inl ⟨b, hb, hp⟩)
      · exact Or.inr (Or.inr ⟨a, ha, hp⟩)

theorem stack_sublist {stack met : List NodeId} (h : Visits next stack met) :
    stack.Sublist met := by
  induction h with
  | nil => exact .slnil
  | cons _ _ _ iho => exact .cons_cons _ (iho.trans (List.sublist_append_right ..))

/-- What is entered below a node that is met is met in the same order. -/
theorem next_sublist {stack met : List NodeId} (h : Visits next stack met) {id : NodeId}
    (hid : id ∈ met) : (next id).Sublist met := by
  induction h with
  | nil => cases hid
  | @cons top stack inner outer hi _ ihi iho =>
    apply List.Sublist.cons
    rcases List.mem_cons.mp hid with rfl | hid
    · exact hi.stack_sublist.trans (List.sublist_append_left ..)
    · rcases List.mem_append.mp hid with hid | hid
      · exact (ihi hid).trans (List.sublist_append_left ..)
      · exact (iho hid).trans (List.sublist_append_right ..)

/-- What is met from fewer nodes, when fewer are entered, is met in the same order. -/
theorem sublist {next' : NodeId → List NodeId} {stack stack' met met' : List NodeId}
    (h : Visits next stack met) (h' : Visits next' stack' met') (hstack : stack'.Sublist stack)
    (hnext : ∀ id, (next' id).Sublist (next id)) : met'.Sublist met := by
  induction h generalizing stack' met' with
  | nil =>
    rw [List.sublist_nil] at hstack
    subst hstack
    cases h'
    exact .slnil
  | @cons id stack inner outer _ _ ihi iho =>
    cases hstack with
    | cons _ hstack =>
      exact ((iho h' hstack).trans (List.sublist_append_right ..)).trans (List.sublist_cons_self ..)
    | cons_cons _ hstack =>
      cases h' with
      | cons hi ho => exact .cons_cons _ ((ihi hi (hnext id)).append (iho ho hstack))

/-- A step count that covers the nodes to be met works the stack off. -/
theorem workOff_eq {stack met : List NodeId} (h : Visits next stack met) (n : Nat)
    (hn : met.length ≤ n) : workOff next n stack = met := by
  have key : ∀ {stack met}, Visits next stack met → ∀ n rest,
      workOff next (n + met.length) (stack ++ rest) = met ++ workOff next n rest := by
    intro stack met h
    induction h with
    | nil => intro n rest; rfl
    | @cons id stack inner outer _ _ ihi iho =>
      intro n rest
      have hlen : n + (id :: (inner ++ outer)).length = n + outer.length + inner.length + 1 := by
        simp only [List.length_cons, List.length_append]
        omega
      rw [hlen, List.cons_append, workOff, ihi, iho]
      simp
  have hrun := key h (n - met.length) []
  rw [Nat.sub_add_cancel hn, List.append_nil, workOff_nil, List.append_nil] at hrun
  exact hrun

end Visits

/-! ### Walks down a well-formed forest -/

theorem within_of_path {next : NodeId → List NodeId}
    (hnext : ∀ id, ∀ c ∈ next id, f.parent? c = some id) {top id : NodeId}
    (hp : Relation.ReflTransGen (fun a b => b ∈ next a) top id) : f.Within top id := by
  induction hp with
  | refl => exact Within.refl _
  | tail _ hc ih => exact Within.step (hnext _ _ hc) ih

namespace WellFormed

variable (h : WellFormed f) {next : NodeId → List NodeId}
include h

theorem exists_visits (hnext : ∀ id, ∀ c ∈ next id, f.parent? c = some id)
    (stack : List NodeId) : ∃ met, Visits next stack met :=
  Visits.exists_of_wellFounded
    (Subrelation.wf (fun {a b} hc => hnext b a hc) h.wellFounded_children) stack

/-- Nothing is met twice from a stack of nodes none of which is within another. -/
theorem visits_nodup (hnext : ∀ id, ∀ c ∈ next id, f.parent? c = some id)
    (hnodup : ∀ id, (next id).Nodup) {stack met : List NodeId} (hv : Visits next stack met)
    (hs : stack.Nodup) (happart : ∀ a ∈ stack, ∀ b ∈ stack, f.Within a b → a = b) :
    met.Nodup := by
  induction hv with
  | nil => exact List.nodup_nil
  | @cons id stack inner outer hi ho ihi iho =>
    have hid := List.nodup_cons.mp hs
    have hinner : ∀ x ∈ inner, f.Below id x := by
      intro x hx
      obtain ⟨c, hc, hp⟩ := hi.mem_iff.mp hx
      exact (h.below_iff).mpr ⟨Within.trans (Within.of_parent (hnext _ _ hc))
        (within_of_path hnext hp), fun he => h.not_within_parent (hnext _ _ hc)
          (he ▸ within_of_path hnext hp)⟩
    have houter : ∀ x ∈ outer, ∃ s ∈ stack, f.Within s x := by
      intro x hx
      obtain ⟨s, hs, hp⟩ := ho.mem_iff.mp hx
      exact ⟨s, hs, within_of_path hnext hp⟩
    -- A node met from the rest of the stack is not within the first node.
    have hdisjoint : ∀ x ∈ outer, ¬ f.Within id x := by
      intro x hx hw
      obtain ⟨s, hs, hsx⟩ := houter x hx
      have heq : id = s := by
        rcases hw.total hsx with hw | hw
        · exact (happart s (List.mem_cons_of_mem _ hs) id (List.mem_cons_self ..) hw).symm
        · exact happart id (List.mem_cons_self ..) s (List.mem_cons_of_mem _ hs) hw
      exact hid.1 (heq ▸ hs)
    have hni : inner.Nodup := by
      refine ihi (hnodup id) fun a ha b hb hw => ?_
      rcases within_iff.mp hw with heq | ⟨parent, hp, hw⟩
      · exact heq.symm
      · -- Siblings have one parent, and that is not within its child.
        rw [hnext _ _ hb] at hp
        cases hp
        exact absurd hw (h.not_within_parent (hnext _ _ ha))
    have hno : outer.Nodup := iho hid.2 fun a ha b hb =>
      happart a (List.mem_cons_of_mem _ ha) b (List.mem_cons_of_mem _ hb)
    rw [List.nodup_cons, List.nodup_append]
    refine ⟨fun hm => ?_, hni, hno, fun a ha b hb heq => ?_⟩
    · rcases List.mem_append.mp hm with hm | hm
      · exact ((h.below_iff).mp (hinner _ hm)).2 rfl
      · exact hdisjoint _ hm (Within.refl _)
    · exact hdisjoint b hb (heq ▸ (hinner a ha).within)

theorem visits_length_le (hnext : ∀ id, ∀ c ∈ next id, f.parent? c = some id)
    (hnodup : ∀ id, (next id).Nodup) {stack met : List NodeId} (hv : Visits next stack met)
    (hs : stack.Nodup) (happart : ∀ a ∈ stack, ∀ b ∈ stack, f.Within a b → a = b)
    (hlive : ∀ a ∈ stack, f.contains a = true) : met.length ≤ f.slots.size := by
  refine length_le_of_live (h.visits_nodup hnext hnodup hv hs happart) fun id hid => ?_
  obtain ⟨s, hs, hp⟩ := hv.mem_iff.mp hid
  exact (within_of_path hnext hp).live (hlive s hs)

/-- Siblings are not within one another. -/
theorem children_apart {parent a b : NodeId} (ha : a ∈ f.children parent)
    (hb : b ∈ f.children parent) (hw : f.Within a b) : a = b := by
  rcases within_iff.mp hw with heq | ⟨p, hp, hw⟩
  · exact heq.symm
  · rw [(h.listed _ _).mp hb] at hp
    cases hp
    exact absurd hw (h.not_within_parent ((h.listed _ _).mp ha))

end WellFormed

/-! ### The walk in document order -/

/-- The nodes that a walk enters below a node. -/
def entered (f : Forest α) (skip : NodeId → α → Bool) (id : NodeId) : List NodeId :=
  if (f.get? id).any (skip id) then [] else f.children id

theorem mem_entered {skip : NodeId → α → Bool} {id c : NodeId} :
    c ∈ f.entered skip id ↔ (f.get? id).any (skip id) = false ∧ c ∈ f.children id := by
  unfold entered
  split <;> simp_all

/-- The nodes that a walk meets and does not go below. -/
def stops (f : Forest α) (start : NodeId) (skip : NodeId → α → Bool) : List NodeId :=
  (f.walk start skip).filter fun id => (f.get? id).any (skip id)

namespace WellFormed

variable (h : WellFormed f)
include h

theorem parent?_of_mem_entered {skip : NodeId → α → Bool} (id : NodeId) :
    ∀ c ∈ f.entered skip id, f.parent? c = some id :=
  fun c hc => (h.listed c id).mp (mem_entered.mp hc).2

theorem nodup_entered {skip : NodeId → α → Bool} (id : NodeId) : (f.entered skip id).Nodup := by
  unfold entered
  split
  · exact List.nodup_nil
  · exact h.nodup id

/-- On live nodes a walk does not look whether a node lives. -/
theorem walkStack_eq_workOff (skip : NodeId → α → Bool) (n : Nat) (stack : List NodeId)
    (hlive : ∀ id ∈ stack, f.contains id = true) :
    f.walkStack skip n stack = workOff (f.entered skip) n stack := by
  induction n generalizing stack with
  | zero => rfl
  | succ n ih =>
    cases stack with
    | nil => rfl
    | cons id stack =>
      obtain ⟨data, hdata⟩ := contains_iff_get?.mp (hlive id (List.mem_cons_self ..))
      have hnext : (if skip id data then stack else f.children id ++ stack) =
          f.entered skip id ++ stack := by
        simp only [entered, hdata, Option.any_some]
        split <;> rfl
      simp only [walkStack, hdata, workOff, hnext]
      rw [ih]
      intro x hx
      rcases List.mem_append.mp hx with hx | hx
      · exact h.contains_child (mem_entered.mp hx).2
      · exact hlive x (List.mem_cons_of_mem _ hx)

/-- A walk has enough steps. -/
theorem visits_walk (start : NodeId) (skip : NodeId → α → Bool) :
    Visits (f.entered skip) (f.children start) (f.walk start skip) := by
  obtain ⟨met, hv⟩ := h.exists_visits h.parent?_of_mem_entered (f.children start)
  have hlive : ∀ id ∈ f.children start, f.contains id = true := fun _ hc => h.contains_child hc
  have hlen := h.visits_length_le h.parent?_of_mem_entered h.nodup_entered hv (h.nodup start)
    (fun _ ha _ hb => h.children_apart ha hb) hlive
  unfold walk
  rw [h.walkStack_eq_workOff skip _ _ hlive, hv.workOff_eq _ hlen]
  exact hv

/-- A walk meets the nodes below its start that have no skipped node between. -/
theorem mem_walk {start id : NodeId} {skip : NodeId → α → Bool} :
    id ∈ f.walk start skip ↔ f.Below start id ∧
      ∀ a, f.Below start a → f.Below a id → (f.get? a).any (skip a) = false := by
  rw [(h.visits_walk start skip).mem_iff]
  constructor
  · intro hex
    obtain ⟨top, htop, hp⟩ := hex
    have htop := (h.listed top start).mp htop
    have hwithin := within_of_path h.parent?_of_mem_entered hp
    refine ⟨?_, ?_⟩
    · rcases within_iff.mp hwithin with rfl | ⟨parent, hpar, hw⟩
      · exact ⟨start, htop, Within.refl _⟩
      · exact ⟨parent, hpar, Within.trans (Within.of_parent htop) hw⟩
    · induction hp with
      | refl =>
        intro a ha ⟨parent, hpar, hw⟩
        rw [htop] at hpar
        cases hpar
        have heq := h.within_antisymm ha.within hw
        exact absurd heq.symm ((h.below_iff).mp ha).2
      | @tail b c hb hc ih =>
        intro a ha ⟨parent, hpar, hw⟩
        rw [h.parent?_of_mem_entered b c hc] at hpar
        cases hpar
        rcases within_iff.mp hw with rfl | hw
        · exact (mem_entered.mp hc).1
        · exact ih (within_of_path h.parent?_of_mem_entered hb) a ha hw
  · intro hboth
    obtain ⟨hb, hskip⟩ := hboth
    induction id using h.grounded.induction with
    | _ id ih =>
      obtain ⟨parent, hp, hw⟩ := hb
      rcases within_iff.mp hw with rfl | hb
      · exact ⟨id, (h.listed id parent).mpr hp, .refl⟩
      · have hself : f.Below parent id := ⟨parent, hp, Within.refl _⟩
        obtain ⟨top, htop, hpath⟩ := ih parent hp hb fun a ha hap =>
          hskip a ha ⟨parent, hp, hap.within⟩
        refine ⟨top, htop, hpath.tail (mem_entered.mpr ⟨hskip parent hb hself, ?_⟩)⟩
        exact (h.listed id parent).mpr hp

theorem nodup_walk (start : NodeId) (skip : NodeId → α → Bool) : (f.walk start skip).Nodup :=
  h.visits_nodup h.parent?_of_mem_entered h.nodup_entered (h.visits_walk start skip)
    (h.nodup start) fun _ ha _ hb => h.children_apart ha hb

/-- All that is below a node is met in document order. -/
theorem visits_below (start : NodeId) :
    Visits f.children (f.children start) (f.below start) :=
  (h.visits_walk start _).congr fun id _ => by
    unfold entered
    cases f.get? id <;> rfl

theorem walk_sublist_below (start : NodeId) (skip : NodeId → α → Bool) :
    (f.walk start skip).Sublist (f.below start) := by
  refine (h.visits_below start).sublist (h.visits_walk start skip) (List.Sublist.refl _) fun id => ?_
  unfold entered
  split
  · exact List.nil_sublist _
  · exact List.Sublist.refl _

/-! ### Outermost nodes -/

theorem mem_stops {start id : NodeId} {skip : NodeId → α → Bool} :
    id ∈ f.stops start skip ↔ f.Below start id ∧ (f.get? id).any (skip id) = true ∧
      ∀ a, f.Below start a → f.Below a id → (f.get? a).any (skip a) = false := by
  unfold stops
  rw [List.mem_filter, h.mem_walk]
  exact ⟨fun ⟨⟨hb, hs⟩, hp⟩ => ⟨hb, hp, hs⟩, fun ⟨hb, hp, hs⟩ => ⟨⟨hb, hs⟩, hp⟩⟩

/-- A walk does not stop twice on the way to a node. -/
theorem stops_apart {start a b : NodeId} {skip : NodeId → α → Bool} (ha : a ∈ f.stops start skip)
    (hb : b ∈ f.stops start skip) (hw : f.Within a b) : a = b := by
  rcases within_iff.mp hw with heq | hbelow
  · exact heq.symm
  · obtain ⟨hsa, hpa, -⟩ := h.mem_stops.mp ha
    obtain ⟨-, -, hno⟩ := h.mem_stops.mp hb
    rw [hno a hsa hbelow] at hpa
    cases hpa

theorem mem_outermost {start id : NodeId} {p : α → Bool} :
    id ∈ f.outermost start p ↔ f.Below start id ∧ (f.get? id).any p = true ∧
      ∀ a, f.Below start a → f.Below a id → (f.get? a).any p = false :=
  h.mem_stops

/-- Nothing keeps a child from being outermost. -/
theorem mem_outermost_child {start child : NodeId} (hc : child ∈ f.children start) {p : α → Bool} :
    child ∈ f.outermost start p ↔ (f.get? child).any p = true := by
  have hparent := (h.listed child start).mp hc
  rw [h.mem_outermost, and_iff_right (show f.Below start child from ⟨start, hparent, Within.refl _⟩)]
  refine and_iff_left fun a ha hac => ?_
  obtain ⟨parent, hp, hw⟩ := hac
  cases hparent.symm.trans hp
  exact absurd (h.within_antisymm hw ha.within) (h.below_iff.mp ha).2

theorem nodup_outermost (start : NodeId) (p : α → Bool) : (f.outermost start p).Nodup :=
  (h.nodup_walk start _).filter _

/-- A node that `p` holds of is within an outermost one. -/
theorem exists_outermost {start id : NodeId} {p : α → Bool} (hb : f.Below start id)
    (hp : (f.get? id).any p = true) : ∃ a ∈ f.outermost start p, f.Within a id := by
  have habove : ∀ x, f.Below start x →
      (∃ a, f.Below start a ∧ f.Within a x ∧ (f.get? a).any p = true) →
      ∃ a ∈ f.outermost start p, f.Within a x := by
    intro x
    induction x using h.grounded.induction with
    | _ x ih =>
      intro hx hex
      by_cases hm : x ∈ f.outermost start p
      · exact ⟨x, hm, Within.refl x⟩
      · -- Some node above `x` keeps it from being outermost.
        have hup : ∃ a, f.Below start a ∧ f.Below a x ∧ (f.get? a).any p = true := by
          obtain ⟨a, ha, hax, hpa⟩ := hex
          rcases within_iff.mp hax with rfl | hax
          · by_contra hno
            push Not at hno
            exact hm (h.mem_outermost.mpr
              ⟨hx, hpa, fun b hb hbx => Bool.eq_false_iff.mpr (hno b hb hbx)⟩)
          · exact ⟨a, ha, hax, hpa⟩
        obtain ⟨a, ha, ⟨parent, hparent, hwithin⟩, hpa⟩ := hup
        have hbelow : f.Below start parent := by
          rcases within_iff.mp hwithin with rfl | hap
          · exact ha
          · obtain ⟨q, hq, hw⟩ := hap
            exact ⟨q, hq, ha.within.trans hw⟩
        obtain ⟨b, hb, hbw⟩ := ih parent hparent hbelow ⟨a, ha, hwithin, hpa⟩
        exact ⟨b, hb, Within.step hparent hbw⟩
  exact habove id hb ⟨id, hb, Within.refl id, hp⟩

/-- No outermost node is within another. -/
theorem outermost_apart {start a b : NodeId} {p : α → Bool} (ha : a ∈ f.outermost start p)
    (hb : b ∈ f.outermost start p) (hw : f.Within a b) : a = b :=
  h.stops_apart ha hb hw

/-- Siblings come in their order. -/
theorem pair_outermost {start a b parent : NodeId} {p : α → Bool}
    (ha : a ∈ f.outermost start p) (hb : b ∈ f.outermost start p)
    (hab : [a, b].Sublist (f.children parent)) : [a, b].Sublist (f.outermost start p) := by
  have hpar : f.parent? a = some parent :=
    (h.listed a parent).mp (hab.subset (List.mem_cons_self ..))
  obtain ⟨⟨parent', hp', hw⟩, hpa, hno⟩ := h.mem_outermost.mp ha
  rw [hpar] at hp'
  cases hp'
  have hwalk : [a, b].Sublist (f.walk start fun _ data => p data) := by
    rcases within_iff.mp hw with rfl | hbelow
    · exact hab.trans (h.visits_walk parent _).stack_sublist
    · have hself : f.Below parent a := ⟨parent, hpar, Within.refl _⟩
      have hmem : parent ∈ f.walk start fun _ data => p data :=
        h.mem_walk.mpr ⟨hbelow, fun c hc hcp => hno c hc ⟨parent, hpar, hcp.within⟩⟩
      have hnext := (h.visits_walk start fun _ data => p data).next_sublist hmem
      rw [entered, hno parent hbelow hself] at hnext
      exact hab.trans hnext
  have hfilter := hwalk.filter fun id => (f.get? id).any p
  have hpb := (h.mem_outermost.mp hb).2.1
  simpa [outermost, hpa, hpb] using hfilter

/-- Forests that agree on the nodes below `start` have the same outermost nodes there. -/
theorem outermost_congr (hg : WellFormed g) {start : NodeId} {p : α → Bool}
    (hchildren : ∀ id, f.Within start id → g.children id = f.children id)
    (hdata : ∀ id, f.Within start id → g.get? id = f.get? id) :
    g.outermost start p = f.outermost start p := by
  have hbelow : ∀ id ∈ f.walk start fun _ data => p data, f.Within start id :=
    fun id hid => (h.mem_walk.mp hid).1.within
  have hnext : ∀ id ∈ f.walk start fun _ data => p data,
      (g.entered fun _ data => p data) id = (f.entered fun _ data => p data) id := by
    intro id hid
    rw [entered, entered, hchildren id (hbelow id hid), hdata id (hbelow id hid)]
  have hv := (h.visits_walk start fun _ data => p data).congr hnext
  rw [← hchildren start (Within.refl _)] at hv
  unfold outermost
  rw [(hg.visits_walk start _).unique hv]
  refine List.filter_congr fun id hid => ?_
  rw [hdata id (hbelow id hid)]

end WellFormed

end Strata.Forest
