import Strata.Document.Edit
import Strata.Proofs.Document.Tidy
import Strata.Proofs.Forest.Reuse
import Strata.Proofs.Forest.Subtrees

/-! Histories of a document.

An edit is allowed where the parent that it names lives, and where the node that
it moves lives and does not have the new place within it. `Edit.Effect` says what
each edit then owes: which nodes there are, their data, their parents and their
children, in their order (`effect_perform`). A document that allowed edits made
from nothing is a forest, and an identifier that has died is named nowhere in it,
also when its slot has another tenant (`forest_of_history`). -/
namespace Strata.Document

open Forest

variable {doc f g k : Document} {id parent : NodeId} {index : Nat} {data : Node} {e : Edit}
  {edits : List Edit}

/-! ### What an edit owes -/

/-- One more node without a parent. -/
structure Created (f g : Document) (data : Node) (id : NodeId) : Prop where
  fresh : f.contains id = false
  live : ∀ x, g.contains x = true ↔ x = id ∨ f.contains x = true
  data : ∀ x, g.get? x = if x = id then some data else f.get? x
  parent : ∀ x, g.parent? x = f.parent? x
  children : ∀ x, g.children x = f.children x

/-- One more child, at an index or behind the others. -/
structure Inserted (f g : Document) (top : NodeId) (index : Nat) (data : Node) (id : NodeId) :
    Prop where
  fresh : f.contains id = false
  live : ∀ x, g.contains x = true ↔ x = id ∨ f.contains x = true
  data : ∀ x, g.get? x = if x = id then some data else f.get? x
  parent : ∀ x, g.parent? x = if x = id then some top else f.parent? x
  children : ∀ x, g.children x =
    if x = top then (f.children top).insertIdx (min index (f.children top).length) id
    else f.children x
  subtree : ∀ x, f.contains x = true → ¬ f.Within x top → g.grove x = f.grove x

/-- A node has moved with all below it, to an index among its new siblings or behind them. -/
structure Moved (f g : Document) (id top : NodeId) (index : Nat) : Prop where
  live : ∀ x, g.contains x = f.contains x
  data : ∀ x, g.get? x = f.get? x
  parent : ∀ x, g.parent? x = if x = id then some top else f.parent? x
  children : ∀ x, g.children x =
    let others := (f.children x).filter (· != id)
    if x = top then others.insertIdx (min index others.length) id else others
  subtree : ∀ x, ¬ f.Below x id → ¬ f.Within x top → g.grove x = f.grove x

/-- A node and all below it are gone. -/
structure Removed (f g : Document) (id : NodeId) : Prop where
  live : ∀ x, g.contains x = true ↔ f.contains x = true ∧ ¬ f.Within id x
  data : ∀ x, g.contains x = true → g.get? x = f.get? x
  parent : ∀ x, g.contains x = true → g.parent? x = f.parent? x
  children : ∀ x, g.contains x = true → g.children x = (f.children x).filter (· != id)
  subtree : ∀ x, g.contains x = true → ¬ f.Below x id → g.grove x = f.grove x

/-- The statements of a text are new last children, each with what is below it. -/
structure TextAdded (f g : Document) (top : NodeId) (text : String) : Prop where
  live : ∀ x, f.contains x = true → g.contains x = true
  data : ∀ x, f.contains x = true → g.get? x = f.get? x
  parent : ∀ x, f.contains x = true → g.parent? x = f.parent? x
  children : ∀ x, f.contains x = true → x ≠ top → g.children x = f.children x
  fresh : ∀ x, g.contains x = true → f.contains x = false → g.Below top x
  statements : ∃ tops, g.children top = f.children top ++ tops ∧
    g.Bears (fun x => f.contains x = false ∧ g.contains x = true) tops (Css.read text).1

/-- The parameters of one node have changed. -/
structure Reworded (f g : Document) (id : NodeId) (params : String) : Prop where
  live : ∀ x, g.contains x = f.contains x
  data : ∀ x, g.get? x = if x = id then (f.get? id).map (Node.withParams params) else f.get? x
  parent : ∀ x, g.parent? x = f.parent? x
  children : ∀ x, g.children x = f.children x

/-- A new node beside a sibling, `offset` places behind it. Without a parent of the sibling there is
no such place, and nothing is done. -/
def Beside (doc : Document) (sibling : NodeId) (offset : Nat) (data : Node) (r : Edited) : Prop :=
  match doc.parent? sibling with
  | none => r.document = doc ∧ r.added = []
  | some parent => ∃ id ahead behind, r.added = [id] ∧
      doc.children parent = ahead ++ sibling :: behind ∧ sibling ∉ ahead ∧
      Inserted doc r.document parent (ahead.length + offset) data id

namespace Edit

/-- The parent that is named lives, and a node that moves can move there. -/
def Allowed (doc : Document) : Edit → Prop
  | append parent _ | insertChild parent _ _ | addText parent _ => doc.contains parent = true
  | move id parent _ | moveLast id parent => doc.Movable id parent
  | withParams id _ => doc.contains id = true
  | create _ | addBefore _ _ | addAfter _ _ | remove _ => True

/-- What an edit does where it is allowed. -/
def Effect (doc : Document) : Edit → Edited → Prop
  | create data, r => ∃ id, r.added = [id] ∧ Created doc r.document data id
  | append parent data, r => ∃ id, r.added = [id] ∧
      Inserted doc r.document parent (Forest.children doc parent).length data id
  | insertChild parent index data, r => ∃ id, r.added = [id] ∧
      Inserted doc r.document parent index data id
  | addBefore sibling data, r => Beside doc sibling 0 data r
  | addAfter sibling data, r => Beside doc sibling 1 data r
  | remove id, r => r.removed = doc.get? id ∧ Removed doc r.document id
  | move id parent index, r => Moved doc r.document id parent index
  | moveLast id parent, r => Moved doc r.document id parent (Forest.children doc parent).length
  | addText parent text, r => r.error = (Css.read text).2 ∧ TextAdded doc r.document parent text
  | withParams id params, r => Reworded doc r.document id params

theorem refuseParent_eq_none : refuseParent doc parent = none ↔ doc.contains parent = true := by
  simp [refuseParent]

theorem refuseMove_eq_none (h : doc.WellFormed) :
    refuseMove doc id parent = none ↔ doc.Movable id parent := by
  unfold refuseMove
  constructor
  · intro hnone
    split at hnone
    · cases hnone
    · split at hnone
      · cases hnone
      · split at hnone
        · cases hnone
        · next hid hparent hin =>
          refine ⟨by simpa using hid, by simpa using hparent, fun hw => hin ?_⟩
          exact List.contains_iff_mem.mpr (h.mem_lineage.mpr hw)
  · intro hm
    have hout : ¬ (doc.lineage parent).contains id = true := fun hin =>
      hm.not_within (h.mem_lineage.mp (List.contains_iff_mem.mp hin))
    rw [hm.live, hm.parent_live, if_neg (by simp), if_neg (by simp), if_neg hout]

/-- **An edit is refused exactly where it is not allowed.** -/
theorem refusal?_eq_none (h : doc.WellFormed) : e.refusal? doc = none ↔ e.Allowed doc := by
  cases e with
  | append | insertChild | addText => exact refuseParent_eq_none
  | move | moveLast => exact refuseMove_eq_none h
  | withParams id params =>
    show (if doc.contains id then none else some Refusal.node) = none ↔ _
    simp [Allowed]
  | _ => exact ⟨fun _ => trivial, fun _ => rfl⟩

end Edit

/-! ### Single edits -/

section single

variable (h : doc.WellFormed)
include h

theorem created_create (data : Node) : Created doc (doc.create data).2 data (doc.create data).1 where
  fresh := not_contains_created h.stocked data
  live := contains_create h.stocked data
  data := get?_create h.stocked data
  parent := parent?_create h.stocked data
  children := children_create h.stocked data

theorem inserted_insertChild (hp : doc.contains parent = true) (index : Nat) (data : Node) :
    Inserted doc (doc.insertChild parent index data).2 parent index data (doc.create data).1 where
  fresh := not_contains_created h.stocked data
  live := contains_insertChild h index data
  data := get?_insertChild h hp index data
  parent := parent?_insertChild h hp index data
  children := children_insertChild h hp index data
  subtree x hx hout := by
    refine grove_congr h (h.insertChild hp index data) fun y hy => ?_
    have hlive : doc.contains y = true := hy.live hx
    rw [get?_insertChild h hp, children_insertChild h hp, if_neg, if_neg]
    · exact ⟨rfl, rfl⟩
    · rintro rfl
      exact hout hy
    · rintro rfl
      rw [not_contains_created h.stocked] at hlive
      cases hlive

theorem moved_move (hm : doc.Movable id parent) (index : Nat) :
    Moved doc (doc.move id parent index) id parent index where
  live := contains_move h id parent index
  data := get?_move h hm index
  parent := parent?_move h hm index
  children := children_move h hm index
  subtree x hbelow hout := by
    refine grove_congr h (h.move hm index) fun y hy => ⟨get?_move h hm index y, ?_⟩
    have hne : y ≠ parent := fun heq => hout (heq ▸ hy)
    rw [children_move h hm, if_neg hne, List.filter_eq_self]
    intro c hc
    rw [bne_iff_ne]
    rintro rfl
    exact hbelow ⟨y, (h.listed _ _).mp hc, hy⟩

theorem removed_remove (id : NodeId) : Removed doc (doc.remove id) id := by
  have hout : ∀ x, (doc.remove id).contains x = true → ¬ doc.Within id x := fun x hx =>
    ((contains_remove h id x).mp hx).2
  refine ⟨contains_remove h id, fun x hx => get?_remove h id (hout x hx),
    fun x hx => parent?_remove h id (hout x hx), fun x hx => children_remove h id (hout x hx),
    fun x hx hbelow => grove_congr h (h.remove id) fun y hy => ?_⟩
  -- What is within `x` has no part in what is removed.
  have hapart : ¬ doc.Within id y := by
    intro hw
    rcases hw.total hy with hup | hup
    · exact hbelow ((h.below_iff).mpr ⟨hup, fun heq => hout x hx (heq ▸ Within.refl _)⟩)
    · exact hout x hx hup
  refine ⟨get?_remove h id hapart, ?_⟩
  rw [children_remove h id hapart, List.filter_eq_self]
  intro c hc
  rw [bne_iff_ne]
  rintro rfl
  exact hbelow ⟨y, (h.listed _ _).mp hc, hy⟩

theorem textAdded_addText (hp : doc.contains parent = true) (text : String) :
    TextAdded doc (doc.addText parent text).document parent text := by
  have hplanted := planted_plant h hp (Css.read text).1
  exact ⟨hplanted.grown.live, hplanted.grown.data, hplanted.grown.parent,
    fun x hx hne => children_plant h hp _ hx hne, fun x hx hold => (hplanted.fresh x hx hold).1,
    bears_plant h hp _⟩

/-- A child stands behind its first siblings. -/
theorem index?_eq_some {sibling : NodeId} (hp : doc.parent? sibling = some parent) :
    ∃ ahead behind, doc.children parent = ahead ++ sibling :: behind ∧ sibling ∉ ahead ∧
      doc.index? sibling = some ahead.length := by
  obtain ⟨ahead, behind, hsplit, hnot⟩ :=
    List.eq_append_cons_of_mem ((h.listed sibling parent).mpr hp)
  refine ⟨ahead, behind, hsplit, hnot, ?_⟩
  rw [index?, hp, Option.bind_eq_bind, Option.bind_some, hsplit, List.idxOf?_eq_some_iff]
  refine ⟨by simp, by simp, fun j hj heq => hnot ?_⟩
  rw [List.getElem_append_left hj] at heq
  exact heq ▸ List.getElem_mem hj

end single

/-! ### All edits -/

section perform

variable (h : doc.WellFormed)
include h

theorem beside_addBefore (sibling : NodeId) (data : Node) :
    Beside doc sibling 0 data ((Edit.addBefore sibling data).perform doc) := by
  unfold Beside
  split
  · next hp => simp [Edit.perform, addBefore?, hp]
  · next parent hp =>
    obtain ⟨ahead, behind, hsplit, hnot, hindex⟩ := index?_eq_some h hp
    refine ⟨(doc.create data).1, ahead, behind, ?_, hsplit, hnot, ?_⟩
    · simp [Edit.perform, addBefore?, hp, hindex, Edit.perform.one, insertChild_fst]
    · have hinserted := inserted_insertChild h (h.contains_parent hp) ahead.length data
      simpa [Edit.perform, addBefore?, hp, hindex, Edit.perform.one] using hinserted

theorem beside_addAfter (sibling : NodeId) (data : Node) :
    Beside doc sibling 1 data ((Edit.addAfter sibling data).perform doc) := by
  unfold Beside
  split
  · next hp => simp [Edit.perform, addAfter?, hp]
  · next parent hp =>
    obtain ⟨ahead, behind, hsplit, hnot, hindex⟩ := index?_eq_some h hp
    refine ⟨(doc.create data).1, ahead, behind, ?_, hsplit, hnot, ?_⟩
    · simp [Edit.perform, addAfter?, hp, hindex, Edit.perform.one, insertChild_fst]
    · have hinserted := inserted_insertChild h (h.contains_parent hp) (ahead.length + 1) data
      simpa [Edit.perform, addAfter?, hp, hindex, Edit.perform.one] using hinserted

/-- **Every allowed edit does what it owes.** -/
theorem effect_perform (ha : e.Allowed doc) : e.Effect doc (e.perform doc) := by
  cases e with
  | create data => exact ⟨_, rfl, created_create h data⟩
  | append parent data => exact ⟨_, rfl, inserted_insertChild h ha _ data⟩
  | insertChild parent index data => exact ⟨_, rfl, inserted_insertChild h ha index data⟩
  | addBefore sibling data => exact beside_addBefore h sibling data
  | addAfter sibling data => exact beside_addAfter h sibling data
  | remove id => exact ⟨rfl, removed_remove h id⟩
  | move id parent index => exact moved_move h ha index
  | moveLast id parent => exact moved_move h ha _
  | addText parent text => exact ⟨rfl, textAdded_addText h ha text⟩
  | withParams id params =>
    exact ⟨contains_update id _, get?_update id _, parent?_update id _, children_update id _⟩

end perform

/-- A new node beside a sibling is a new child of the sibling's parent, or none is made. -/
theorem perform_beside {sibling : NodeId}
    (he : e = .addBefore sibling data ∨ e = .addAfter sibling data) :
    (e.perform doc).document = doc ∨ ∃ parent index, doc.parent? sibling = some parent ∧
      (e.perform doc).document = (doc.insertChild parent index data).2 := by
  cases hp : doc.parent? sibling with
  | none => rcases he with rfl | rfl <;> simp [Edit.perform, addBefore?, addAfter?, hp]
  | some parent =>
    cases hi : doc.index? sibling with
    | none => rcases he with rfl | rfl <;> simp [Edit.perform, addBefore?, addAfter?, hp, hi]
    | some index =>
      right
      rcases he with rfl | rfl
      · exact ⟨parent, index, rfl, by
          simp [Edit.perform, addBefore?, hp, hi, Edit.perform.one]⟩
      · exact ⟨parent, index + 1, rfl, by
          simp [Edit.perform, addAfter?, hp, hi, Edit.perform.one]⟩

theorem wellFormed_perform (h : doc.WellFormed) (ha : e.Allowed doc) :
    (e.perform doc).document.WellFormed := by
  have hbeside : ∀ {sibling data}, e = .addBefore sibling data ∨ e = .addAfter sibling data →
      (e.perform doc).document.WellFormed := by
    intro sibling data he
    rcases perform_beside he with heq | ⟨parent, index, hp, heq⟩
    · rw [heq]
      exact h
    · rw [heq]
      exact h.insertChild (h.contains_parent hp) index data
  cases e with
  | create data => exact h.create data
  | append parent data => exact h.insertChild ha _ data
  | insertChild parent index data => exact h.insertChild ha index data
  | addBefore => exact hbeside (Or.inl rfl)
  | addAfter => exact hbeside (Or.inr rfl)
  | remove id => exact h.remove id
  | move id parent index => exact h.move ha index
  | moveLast id parent => exact h.move ha _
  | addText parent text => exact (planted_plant h ha _).wellFormed
  | withParams id params => exact h.update id _

theorem ages_perform (h : doc.Stocked) (e : Edit) : Ages doc (e.perform doc).document := by
  have hbeside : ∀ {sibling data}, e = .addBefore sibling data ∨ e = .addAfter sibling data →
      Ages doc (e.perform doc).document := by
    intro sibling data he
    rcases perform_beside he with heq | ⟨parent, index, -, heq⟩
    · rw [heq]
      exact ages_refl h
    · rw [heq]
      exact ages_insertChild h parent index data
  cases e with
  | create data => exact ages_create h data
  | append parent data => exact ages_insertChild h parent _ data
  | insertChild parent index data => exact ages_insertChild h parent index data
  | addBefore => exact hbeside (Or.inl rfl)
  | addAfter => exact hbeside (Or.inr rfl)
  | remove id => exact ages_remove h id
  | move id parent index => exact ages_move h id parent index
  | moveLast id parent => exact ages_move h id parent _
  | addText parent text => exact ages_plant h parent _
  | withParams id params => exact ages_update h id _

/-! ### Histories -/

/-- Allowed edits lead from one document to another. -/
inductive History : Document → List Edit → Document → Prop where
  | nil {f : Document} : History f [] f
  | cons {f last : Document} {e : Edit} {edits : List Edit} : e.Allowed f →
      History (e.perform f).document edits last → History f (e :: edits) last

namespace History

theorem wellFormed (h : History f edits g) (hf : f.WellFormed) : g.WellFormed := by
  induction h with
  | nil => exact hf
  | cons ha _ ih => exact ih (wellFormed_perform hf ha)

theorem ages (h : History f edits g) (hf : f.Stocked) : Ages f g := by
  induction h with
  | nil => exact ages_refl hf
  | @cons _ _ e _ _ _ ih =>
    have hstep := ages_perform hf e
    exact hstep.trans (ih hstep.stocked)

end History

/-- Parents and children agree, and from every node the parents lead up to one without a parent. -/
structure IsForest (doc : Document) : Prop where
  linked : ∀ c p, doc.parent? c = some p ↔ c ∈ doc.children p
  once : ∀ c p, c ∈ doc.children p → (doc.children p).count c = 1
  live : ∀ c p, c ∈ doc.children p → doc.contains c = true ∧ doc.contains p = true
  rooted : ∀ id, doc.contains id = true →
    ∃ root, doc.root? id = some root ∧ doc.Within root id ∧ doc.parent? root = none

/-- No node names the identifier, and it reads as nothing. -/
structure Forgotten (doc : Document) (id : NodeId) : Prop where
  dead : doc.contains id = false
  top : doc.parent? id = none
  bare : doc.children id = []
  parent : ∀ x, doc.parent? x ≠ some id
  children : ∀ x, id ∉ doc.children x

theorem isForest_of_wellFormed (h : doc.WellFormed) : IsForest doc where
  linked c p := (h.listed c p).symm
  once c p hc := List.count_eq_one_of_mem (h.nodup p) hc
  live c p hc := ⟨h.contains_child hc, contains_of_mem_children hc⟩
  rooted id hid := by
    obtain ⟨root, hroot⟩ := h.exists_root? hid
    obtain ⟨-, hw, htop⟩ := h.root?_eq_some.mp hroot
    exact ⟨root, hroot, hw, htop⟩

theorem forgotten_of_dead (h : doc.WellFormed) (hid : doc.contains id = false) :
    Forgotten doc id where
  dead := hid
  top := parent?_eq_none hid
  bare := children_eq_nil hid
  parent x hx := by
    rw [h.contains_parent hx] at hid
    cases hid
  children x hx := by
    rw [h.contains_child hx] at hid
    cases hid

/-- **A document made by allowed edits is a forest**: each further edit does what it owes, and what
has died in a further history is forgotten for good. -/
theorem forest_of_history (h : History {} edits doc) :
    IsForest doc ∧ (∀ e : Edit, e.Allowed doc → e.Effect doc (e.perform doc)) ∧
      ∀ more later rest last, History doc more later → History later rest last →
        ∀ id, doc.contains id = true → later.contains id = false → Forgotten last id := by
  have hwf := h.wellFormed wellFormed_empty
  refine ⟨isForest_of_wellFormed hwf, fun e => effect_perform hwf, ?_⟩
  intro more later rest last hmore hrest id hlive hdead
  have hlater := hmore.wellFormed hwf
  have hages := hmore.ages hwf.stocked
  exact forgotten_of_dead (hrest.wellFormed hlater)
    (hages.dead (hrest.ages hlater.stocked) hlive hdead)

/-! ### Replays -/

/-- The edits one after another, up to the first that is refused. -/
def replay (doc : Document) : List Edit → Except Refusal Document
  | [] => .ok doc
  | e :: edits =>
    match e.apply doc with
    | .error r => .error r
    | .ok done => replay done.document edits

/-- **The histories are what is performed without a refusal.** -/
theorem replay_eq_ok (h : f.WellFormed) : replay f edits = .ok g ↔ History f edits g := by
  induction edits generalizing f with
  | nil =>
    constructor
    · intro heq
      cases heq
      exact .nil
    · intro hist
      cases hist
      rfl
  | cons e edits ih =>
    constructor
    · intro heq
      unfold replay Edit.apply at heq
      cases hr : e.refusal? f with
      | some r => simp [hr] at heq
      | none =>
        have ha := (Edit.refusal?_eq_none h).mp hr
        simp only [hr] at heq
        exact .cons ha ((ih (wellFormed_perform h ha)).mp heq)
    · intro hist
      cases hist with
      | cons ha hrest =>
        have hr := (Edit.refusal?_eq_none h).mpr ha
        unfold replay Edit.apply
        simp only [hr]
        exact (ih (wellFormed_perform h ha)).mpr hrest

/-- A root with two rules. -/
def twoRules : List Edit :=
  [.create .root, .append ⟨0, 0⟩ (.rule "a"), .append ⟨0, 0⟩ (.rule "b")]

/-- A rule in the slot that the first one had, with the second one moved below it; beside the first
one, which is gone, nothing is added. -/
def newTenant : List Edit :=
  [.insertChild ⟨0, 0⟩ 0 (.rule "c"), .move ⟨2, 0⟩ ⟨1, 1⟩ 7, .addBefore ⟨1, 0⟩ (.rule "d")]

/-- The edits are all performed, and `check` holds of what they leave. -/
def replaysTo (f : Document) (edits : List Edit) (check : Document → Bool) : Bool :=
  match replay f edits with
  | .error _ => false
  | .ok g => check g

theorem exists_of_replaysTo (hf : f.WellFormed) {check : Document → Bool}
    (h : replaysTo f edits check = true) : ∃ g, History f edits g ∧ check g = true := by
  unfold replaysTo at h
  split at h
  · cases h
  · next g hg => exact ⟨g, (replay_eq_ok hf).mp hg, h⟩

theorem forgotten_beside_new_tenant : ∃ before later last, History {} twoRules before ∧
    History before [.remove ⟨1, 0⟩] later ∧ History later newTenant last ∧
    before.contains ⟨1, 0⟩ = true ∧ last.get? ⟨1, 1⟩ = some (.rule "c") ∧
    last.children ⟨1, 1⟩ = [⟨2, 0⟩] ∧ IsForest before ∧
    Moved before (before.move ⟨1, 0⟩ ⟨2, 0⟩ 7) ⟨1, 0⟩ ⟨2, 0⟩ 7 ∧ Forgotten last ⟨1, 0⟩ := by
  have hrun : replaysTo {} twoRules (fun before => before.contains ⟨1, 0⟩ &&
      ((Edit.move ⟨1, 0⟩ ⟨2, 0⟩ 7).refusal? before == none &&
        replaysTo before [.remove ⟨1, 0⟩] fun later => !later.contains ⟨1, 0⟩ &&
          replaysTo later newTenant fun last => last.get? ⟨1, 1⟩ == some (.rule "c") &&
            last.children ⟨1, 1⟩ == [⟨2, 0⟩])) = true := by decide +kernel
  obtain ⟨before, hbefore, hrun⟩ := exists_of_replaysTo wellFormed_empty hrun
  obtain ⟨hlive, hrun⟩ := Bool.and_eq_true_iff.mp hrun
  obtain ⟨hmove, hrun⟩ := Bool.and_eq_true_iff.mp hrun
  have hwf := hbefore.wellFormed wellFormed_empty
  obtain ⟨later, hlater, hrun⟩ := exists_of_replaysTo hwf hrun
  obtain ⟨hdead, hrun⟩ := Bool.and_eq_true_iff.mp hrun
  obtain ⟨last, hlast, hrun⟩ := exists_of_replaysTo (hlater.wellFormed hwf) hrun
  obtain ⟨hrule, hmoved⟩ := Bool.and_eq_true_iff.mp hrun
  obtain ⟨hforest, heffect, hforgotten⟩ := forest_of_history hbefore
  have hallowed := (Edit.refusal?_eq_none hwf).mp (beq_iff_eq.mp hmove)
  exact ⟨before, later, last, hbefore, hlater, hlast, hlive, beq_iff_eq.mp hrule,
    beq_iff_eq.mp hmoved, hforest, heffect (.move ⟨1, 0⟩ ⟨2, 0⟩ 7) hallowed,
    hforgotten _ later _ last hlater hlast ⟨1, 0⟩ hlive (by simpa using hdead)⟩

end Strata.Document
