import Strata.Proofs.Migration.Stages
import Strata.Proofs.Transform.Hoisting

/-! Workspaces whose trees are in order.

Calls and passes come in any order, and between them the trees change as a forest may (`Proceeds`).
Whatever was done, the nodes form a forest, and the root of a stylesheet lives or has an identifier
that does not come back (`Reachable.issued`). -/
namespace Strata

namespace Document

open Forest

variable {f g k : Document}

/-! ### Nodes that come and move -/

/-- No node has gone, and what had no parent has none. -/
structure Rehung (f g : Document) : Prop where
  wellFormed : g.WellFormed
  ages : Ages f g
  live : ∀ x, f.contains x = true → g.contains x = true
  top : ∀ x, f.contains x = true → f.parent? x = none → g.parent? x = none

theorem rehung_refl (h : f.WellFormed) : Rehung f f :=
  ⟨h, ages_refl h.stocked, fun _ => id, fun _ _ => id⟩

namespace Rehung

theorem trans (h : Rehung f g) (h' : Rehung g k) : Rehung f k where
  wellFormed := h'.wellFormed
  ages := h.ages.trans h'.ages
  live x hx := h'.live x (h.live x hx)
  top x hx hp := h'.top x (h.live x hx) (h.top x hx hp)

theorem of_extends (hg : g.WellFormed) (hages : Ages f g) (hgrown : Extends f g) : Rehung f g :=
  ⟨hg, hages, hgrown.live, fun x hx hp => (hgrown.parent x hx).trans hp⟩

theorem create (h : f.WellFormed) (data : Node) : Rehung f (f.create data).2 :=
  of_extends (h.create data) (ages_create h.stocked data) (extends_create h.stocked data)

/-- A child of a node that has died does not get a parent. -/
theorem insertChild (h : f.WellFormed) {parent : NodeId}
    (hp : f.contains parent = true ∨ f.Spent parent) (index : Nat) (data : Node) :
    Rehung f (f.insertChild parent index data).2 := by
  rcases hp with hp | hp
  · exact of_extends (h.insertChild hp index data) (ages_insertChild h.stocked parent index data)
      (extends_insertChild h hp index data)
  · have hages := ages_create h.stocked data
    have hdead := (hages.spent parent hp).not_contains hages.stocked
    have heq : (f.insertChild parent index data).2 = (f.create data).2 := by
      rw [insertChild_snd, attach, if_neg (by rw [hdead]; exact Bool.false_ne_true)]
    rw [heq]
    exact create h data

/-- A node with a parent moves below one that has none. -/
theorem move (h : Rehung f g) {id parent top : NodeId} (hid : f.parent? id = some parent)
    (htop : f.contains top = true) (hnone : f.parent? top = none) (index : Nat) :
    Rehung f (g.move id top index) := by
  have hne : ∀ x, f.parent? x = none → x ≠ id := by
    rintro x hx rfl
    cases hx.symm.trans hid
  have hm : g.Movable id top := ⟨h.live id (contains_of_parent? hid), h.live top htop,
    not_within_top (h.top top htop hnone) (hne top hnone).symm⟩
  refine ⟨h.wellFormed.move hm index, h.ages.trans (ages_move h.wellFormed.stocked id top index),
    fun x hx => ?_, fun x hx hp => ?_⟩
  · rw [contains_move h.wellFormed, h.live x hx]
  · rw [parent?_move h.wellFormed hm, if_neg (hne x hp), h.top x hx hp]

/-- Nodes with parents move, one after another, below one that has none. -/
theorem foldl {β : Type} {items : List β} {step : Document → β → Document} {top : NodeId}
    (h : f.WellFormed) (htop : f.contains top = true) (hnone : f.parent? top = none)
    (hstep : ∀ item ∈ items, ∃ id parent, f.parent? id = some parent ∧
      ∀ g : Document, ∃ index, step g item = Forest.move g id top index) :
    Rehung f (items.foldl step f) :=
  List.foldlRecOn _ _ (rehung_refl h) fun g hg item hitem => by
    obtain ⟨id, parent, hid, hmove⟩ := hstep item hitem
    obtain ⟨index, heq⟩ := hmove g
    rw [heq]
    exact hg.move hid htop hnone index

/-- Nodes with parents become the children of a new root. -/
theorem gatherNew (h : f.WellFormed) {nodes : List NodeId}
    (hnodes : ∀ node ∈ nodes, ∃ parent, f.parent? node = some parent) :
    let gathered := nodes.foldl (fun doc node => doc.moveLast node (f.create .root).1) (f.create .root).2
    Rehung f gathered ∧ gathered.contains (f.create .root).1 = true ∧
      gathered.parent? (f.create .root).1 = none := by
  have hcreated := create h Node.root
  have hlive := (contains_create h.stocked Node.root _).mpr (Or.inl rfl)
  have hnone : (f.create .root).2.parent? (f.create .root).1 = none := by
    rw [parent?_create h.stocked, parent?_eq_none (not_contains_created h.stocked _)]
  have hmoved : Rehung (f.create .root).2
      (nodes.foldl (fun doc node => doc.moveLast node (f.create .root).1) (f.create .root).2) :=
    foldl hcreated.wellFormed hlive hnone fun node hnode => by
      obtain ⟨parent, hparent⟩ := hnodes node hnode
      exact ⟨node, parent, (parent?_create h.stocked _ _).trans hparent, fun g => ⟨_, rfl⟩⟩
  exact ⟨hcreated.trans hmoved, hmoved.live _ hlive, hmoved.top _ hlive hnone⟩

end Rehung

theorem ages_withText (h : f.WellFormed) (text : String) : Ages f (f.withText text).2 :=
  (ages_create h.stocked _).trans (ages_plant (h.create _).stocked _ _)

end Document

namespace Workspace

open Forest Document Relation

variable {w v u : Workspace} {settings : Settings} {d : Derivations} {id : SheetId}

/-! ### Roots that were given out -/

theorem exists_get?_modify {s : Sheet} (hs : w.get? id = some s) (other : SheetId)
    (change : Sheet → Sheet) (hkeep : ∀ s, (change s).root = s.root) :
    ∃ t, (w.modify other change).get? id = some t ∧ t.root = s.root := by
  rw [get?_modify, hs]
  split
  · exact ⟨change s, rfl, hkeep s⟩
  · exact ⟨s, rfl, rfl⟩

/-- The nodes form a forest, and the root of a stylesheet lives or does not come back. -/
structure Issued (w : Workspace) : Prop where
  wellFormed : w.doc.WellFormed
  roots : ∀ root ∈ w.roots, w.doc.contains root = true ∨ w.doc.Spent root

theorem issued_empty : Issued {} where
  wellFormed := wellFormed_empty
  roots x hx := by simp [Workspace.roots] at hx

namespace Issued

variable (h : w.Issued)
include h

theorem withDoc {doc : Document} (hdoc : doc.WellFormed) (hages : Ages w.doc doc) :
    Issued { w with doc } where
  wellFormed := hdoc
  roots root hr := (h.roots root hr).elim (hages.lives root) fun hs => Or.inr (hages.spent root hs)

/-- Records change, and the roots in them do not. -/
theorem congr (hdoc : v.doc = w.doc) (hroots : v.roots = w.roots) : v.Issued where
  wellFormed := hdoc ▸ h.wellFormed
  roots := by
    rw [hdoc, hroots]
    exact h.roots

theorem modify (id : SheetId) {change : Sheet → Sheet} (hkeep : ∀ s, (change s).root = s.root) :
    (w.modify id change).Issued :=
  h.congr rfl (roots_modify id hkeep)

theorem push {s : Sheet} (hs : w.doc.contains s.root = true ∨ w.doc.Spent s.root) :
    (w.push s).2.Issued where
  wellFormed := h.wellFormed
  roots root hr := by
    rw [roots_push, List.mem_append, List.mem_singleton] at hr
    rcases hr with hr | rfl
    · exact h.roots root hr
    · exact hs

theorem load (file : Option FilePath) (text : String) : (w.load file text).2.Issued := by
  obtain ⟨hwf, -, -, hlive, -⟩ := Document.grown_withText h.wellFormed text
  have hages := ages_withText h.wellFormed text
  rcases load_steps w file text with ⟨e, -, heq⟩ | ⟨-, ⟨source, -, heq⟩ | ⟨trees, -, heq⟩⟩ <;> rw [heq]
  · exact h
  · exact h.withDoc (hwf.remove _) (hages.trans (ages_remove hwf.stocked _))
  · exact (h.withDoc hwf hages).push (Or.inl hlive)

theorem addDerived {file : FilePath} {root : NodeId}
    (hroot : w.doc.contains root = true ∨ w.doc.Spent root)
    (hok : w.addDerived file root = .ok (id, v)) : v.Issued := by
  rcases addDerived_steps w file root with ⟨e, -, heq⟩ | ⟨-, s, -, -, rfl, heq⟩
  · cases heq.symm.trans hok
  · cases heq.symm.trans hok
    exact h.push hroot

theorem assignFile {path : FilePath} (hok : w.assignFile id path = .ok v) : v.Issued :=
  h.congr (kept_of_assignFile hok).2.1 (roots_assignFile hok)

theorem hoist (context : SheetFacts) (root : NodeId) :
    Issued { w with doc := Transform.hoistLayers context root w.doc } := by
  obtain ⟨utility, -, hr⟩ := Transform.rewritten_hoistLayers h.wellFormed context root
  exact h.withDoc hr.wellFormed hr.ages

/-! ### Cleanups -/

theorem discard (id : SheetId) : (w.discard id).Issued := by
  cases ht : w.get? id with
  | none =>
    unfold Workspace.discard
    rw [ht]
    exact h
  | some t =>
    rw [discard_eq ht]
    have hremoved := List.foldlRecOn t.inbound (fun doc rule => Forest.remove doc rule)
      (motive := fun doc => Forest.WellFormed doc ∧ Ages w.doc doc)
      ⟨h.wellFormed, ages_refl h.wellFormed.stocked⟩ fun doc hdoc rule _ =>
        ⟨hdoc.1.remove rule, hdoc.2.trans (ages_remove hdoc.1.stocked rule)⟩
    exact (h.withDoc hremoved.1 hremoved.2).modify id fun _ => rfl

theorem discardEmptied (fuel : Nat) (done : Cleanup) : (discardEmptied fuel w done).1.Issued := by
  induction fuel generalizing w done with
  | zero => exact h
  | succ fuel ih =>
    unfold Workspace.discardEmptied
    simp only
    split
    · exact h
    · exact ih (List.foldlRecOn _ _ h fun v hv id _ => hv.discard id) _

theorem takeOver {done : Cleanup} (pair : SheetId × SheetId) : (takeOver (w, done) pair).1.Issued := by
  rcases takeOver_cases (w, done) pair.1 pair.2 with heq | ⟨o, t, file, next, hnext, heq⟩
  · rw [heq]
    exact h
  · rw [heq]
    have hmoved : (t.inbound.foldl (readdress pair.1 file) w).Issued := by
      refine List.foldlRecOn _ _ h fun v hv rule _ => ?_
      rcases readdress_cases pair.1 file v rule with heq | ⟨params, heq⟩ <;> rw [heq]
      · exact hv
      · exact hv.withDoc (hv.wellFormed.update rule _) (ages_update hv.wellFormed.stocked rule _)
    exact hmoved.assignFile hnext.assigned

theorem cleanUp (d : Derivations) : (w.cleanUp d).1.Issued :=
  List.foldlRecOn (motive := fun state : Workspace × Cleanup => state.1.Issued) _ _
    (h.discardEmptied _ _) fun _ hstate pair _ => hstate.takeOver pair

end Issued

/-! ### Splits -/

/-- Utilities have parents. -/
theorem exists_parent_of_mem_utilities (h : w.doc.WellFormed) {node : NodeId}
    (hnode : node ∈ w.utilities settings id) : ∃ parent, w.doc.parent? node = some parent := by
  unfold utilities at hnode
  split at hnode
  · cases hnode
  · obtain ⟨⟨parent, hparent, -⟩, -⟩ := h.mem_outermost.mp hnode
    exact ⟨parent, hparent⟩

/-- A split under way: the derived stylesheets have roots without parents. -/
structure Splitting (state : SplitState) : Prop where
  issued : state.workspace.Issued
  made : ∀ path derived, (path, derived) ∈ state.made → ∃ s,
    state.workspace.get? derived = some s ∧ state.workspace.doc.contains s.root = true ∧
      state.workspace.doc.parent? s.root = none

theorem Splitting.splitSheet {state next : SplitState} {donor : SheetId} (h : Splitting state)
    (hnext : splitSheet settings state donor = .ok next) : Splitting next := by
  obtain ⟨s, file, -, hs, hfile, -⟩ := splitSheet_cases hnext
  have hwf := h.issued.wellFormed
  unfold Workspace.splitSheet at hnext
  cases hseat : state.workspace.seatFor settings state.made donor with
  | error e => simp [bind, Except.bind, hseat] at hnext
  | ok seat =>
    simp only [bind, Except.bind, hseat] at hnext
    have hparents : ∀ node ∈ state.workspace.utilities settings donor, ∃ parent,
        state.workspace.doc.parent? node = some parent := fun node =>
      exists_parent_of_mem_utilities hwf
    rcases seatFor_cases hs (Option.isSome_iff_exists.mpr ⟨file, hfile⟩) hseat with
      ⟨path, rfl, hfree⟩ | ⟨path, derived, rfl, hmade⟩
    · obtain ⟨t, -, hroot, hnew⟩ := deriveNew_ok hfree (state.workspace.utilities settings donor)
      simp only [hnew] at hnext
      cases hnext
      obtain ⟨hmoved, hlive, htop⟩ := Rehung.gatherNew hwf hparents
      generalize (state.workspace.utilities settings donor).foldl _ _ = doc at hmoved hlive htop ⊢
      rw [← hroot] at hlive htop
      refine ⟨(h.issued.withDoc hmoved.wellFormed hmoved.ages).push (Or.inl hlive), fun other id hm => ?_⟩
      rcases List.mem_cons.mp hm with heq | hm
      · cases heq
        exact ⟨t, (get?_push t _).trans (if_pos rfl), hlive, htop⟩
      · obtain ⟨r, hr, hrlive, hrtop⟩ := h.made other id hm
        exact ⟨r, get?_push_of_left hr t, hmoved.live _ hrlive, hmoved.top _ hrlive hrtop⟩
    · obtain ⟨t, ht, hlive, htop⟩ := h.made path derived hmade
      simp only [deriveShared, sheet_eq_ok.mpr ht, bind, Except.bind] at hnext
      cases hnext
      have hmoved : Rehung state.workspace.doc ((state.workspace.utilities settings donor).zipIdx.foldl
          (fun doc item => doc.move item.1 t.root item.2) state.workspace.doc) :=
        Rehung.foldl hwf hlive htop fun item hitem => by
          obtain ⟨parent, hparent⟩ := hparents item.1 (List.fst_mem_of_mem_zipIdx hitem)
          exact ⟨item.1, parent, hparent, fun g => ⟨item.2, rfl⟩⟩
      generalize (state.workspace.utilities settings donor).zipIdx.foldl _ _ = doc at hmoved ⊢
      have hissued := h.issued.withDoc hmoved.wellFormed hmoved.ages
      refine ⟨hissued.modify derived fun _ => rfl, fun other id hm => ?_⟩
      obtain ⟨r, hr, hrlive, hrtop⟩ := h.made other id hm
      obtain ⟨r', hr', hroot⟩ := exists_get?_modify (w := { state.workspace with doc }) hr derived
        (fun s => { s with content := Workspace.css { state.workspace with doc } derived }) fun _ => rfl
      exact ⟨r', hr', hroot ▸ hmoved.live _ hrlive, hroot ▸ hmoved.top _ hrlive hrtop⟩

/-! ### Companions -/

theorem PlacedFor.rehung (h : u.Issued) {rule : NodeId} {node : Node} {params : String}
    {placed : NodeId × Document} (hp : PlacedFor u rule node params placed) :
    Rehung u.doc placed.2 := by
  cases hp with
  | below ht =>
    unfold importInHost
    split
    · exact rehung_refl h.wellFormed
    · exact .insertChild h.wellFormed (h.roots _ (root_mem_roots ht)) _ _
  | beside hplaced =>
    obtain ⟨container, hcontainer, hplaced⟩ := Option.bind_eq_some_iff.mp hplaced
    split at hplaced
    · cases hplaced
      exact rehung_refl h.wellFormed
    · obtain ⟨parent, hparent, hplaced⟩ := Option.bind_eq_some_iff.mp hplaced
      obtain ⟨index, -, hplaced⟩ := Option.bind_eq_some_iff.mp hplaced
      cases hplaced
      exact .insertChild h.wellFormed (Or.inl (h.wellFormed.contains_parent hparent)) _ _

theorem Issued.addCompanion (h : u.Issued) (donor derived : SheetId) (target : FilePath)
    (rule : NodeId) : (addCompanion d donor derived target u rule).Issued := by
  rcases addCompanion_cases u d donor derived target rule with heq | ⟨home, placed, heq, _, _, hp⟩
  · rw [heq]
    exact h
  · rw [heq]
    have hdoc := hp.rehung h
    exact (h.withDoc hdoc.wellFormed hdoc.ages).modify derived fun _ => rfl

theorem Issued.split (h : w.Issued) (hsplit : w.split settings = .ok (u, d)) : u.Issued := by
  obtain ⟨state, hstate, -, hu⟩ := split_eq_ok hsplit
  have hstart : Splitting { workspace := w } := ⟨h, fun _ _ hm => absurd hm List.not_mem_nil⟩
  have hstate : Splitting state :=
    foldlM_keeps (fun _ _ _ _ hstate hnext => hstate.splitSheet hnext) hstart hstate
  exact foldlM_keeps (fun v pair next _ hv hnext => addCompanions_keeps
    (fun u target rule hu => hu.addCompanion pair.1 pair.2 target rule) hv hnext) hstate.issued hu

/-! ### Workspaces that can be reached -/

/-- One call, or one pass, or a change of the trees that leaves a forest and brings no identifier
back. -/
inductive Proceeds (w : Workspace) : Workspace → Prop where
  | load (file : Option FilePath) (text : String) : Proceeds w (w.load file text).2
  /-- The root has been given out, and may be gone again. -/
  | addDerived {file : FilePath} {root : NodeId} {id : SheetId} {v : Workspace} :
    w.doc.contains root = true ∨ w.doc.Spent root → w.addDerived file root = .ok (id, v) →
      Proceeds w v
  | assignFile {id : SheetId} {path : FilePath} {v : Workspace} :
    w.assignFile id path = .ok v → Proceeds w v
  | edit {doc : Document} : doc.WellFormed → Ages w.doc doc → Proceeds w { w with doc }
  | connect (resolve : Resolution) (base : FilePath) : Proceeds w (w.connect resolve base).1
  | inheritLayers {v : Workspace} {table : List (List SheetId)} :
    w.inheritLayers = .ok (table, v) → Proceeds w v
  | nameLayer (id : SheetId) (layer : String) : Proceeds w (w.modify id (Sheet.nameLayer · layer))
  | hoist (context : SheetFacts) (root : NodeId) :
    Proceeds w { w with doc := Transform.hoistLayers context root w.doc }
  | split {u : Workspace} {settings : Settings} {d : Derivations} :
    w.split settings = .ok (u, d) → Proceeds w u
  /-- The derivations may be those of another split. -/
  | cleanUp (d : Derivations) : Proceeds w (w.cleanUp d).1

/-- Calls, passes and changes of the trees lead to the workspace from the empty one. -/
def Reachable (w : Workspace) : Prop := ReflTransGen Proceeds {} w

theorem Issued.proceeds (h : w.Issued) (hstep : Proceeds w v) : v.Issued := by
  cases hstep with
  | load file text => exact h.load file text
  | addDerived hroot hok => exact h.addDerived hroot hok
  | assignFile hok => exact h.assignFile hok
  | edit hdoc hages => exact h.withDoc hdoc hages
  | connect resolve base =>
    rw [connect_eq_foldl]
    have hstart : SameButLinks w (w, ({} : DestinationCounts)).1 := SameButLinks.refl w
    have hsame := sameButLinks_follow hstart resolve (w.outgoing base)
    exact h.congr hsame.doc hsame.roots
  | inheritLayers hlayers =>
    have hsame := sameButLinks_inheritLayers hlayers
    exact h.congr hsame.doc hsame.roots
  | nameLayer id layer => exact h.modify id fun _ => rfl
  | hoist context root => exact h.hoist context root
  | split hsplit => exact h.split hsplit
  | cleanUp d => exact h.cleanUp d

/-- Every such step is one of those that keep files apart. -/
theorem Proceeds.advances (hstep : Proceeds w v) : Advances w v := by
  cases hstep with
  | load file text => exact .call (.load file text)
  | @addDerived file root id v hroot hok =>
    have hcall := Advances.call (w := w) (.addDerived file root)
    simp only [Call.perform, hok] at hcall
    exact hcall
  | @assignFile id path v hok =>
    have hcall := Advances.call (w := w) (.assignFile id path)
    simp only [Call.perform, hok] at hcall
    exact hcall
  | edit => exact .edit _
  | connect resolve base => exact .connect resolve base
  | inheritLayers hlayers => exact .inheritLayers hlayers
  | nameLayer id layer => exact .nameLayer id layer
  | hoist => exact .edit _
  | split hsplit => exact .split hsplit
  | cleanUp d => exact .cleanUp d

/-- **Whatever was done, the nodes form a forest and no root is forgotten.** -/
theorem Reachable.issued (h : w.Reachable) : w.Issued := by
  induction h with
  | refl => exact issued_empty
  | tail _ hstep ih => exact ih.proceeds hstep

theorem Reachable.filesApart (h : w.Reachable) : w.FilesApart :=
  Reached.filesApart (ReflTransGen.mono (fun _ _ => Proceeds.advances) _ _ h)

end Workspace

end Strata
