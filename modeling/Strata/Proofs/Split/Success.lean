import Strata.Proofs.Split.Companions
import Strata.Proofs.Split.Donors

/-! A split succeeds.

Of the workspace nothing is asked, not even that its imports are without cycles:
donors have files, no step takes a file away, and there is a place for every donor
with a file (`exists_seatFor`). -/
namespace Strata

/-! ### Runs of steps that may fail -/

/-- Steps that succeed where something holds, and keep it, succeed in a row. -/
theorem foldlM_ok {α β ε : Type} {step : β → α → Except ε β} {inv : β → Prop} {as : List α}
    (hstep : ∀ b, inv b → ∀ a ∈ as, ∃ next, step b a = .ok next ∧ inv next) {b : β} (hb : inv b) :
    ∃ last, as.foldlM step b = .ok last ∧ inv last := by
  induction as generalizing b with
  | nil => exact ⟨b, rfl, hb⟩
  | cons a as ih =>
    obtain ⟨next, hnext, hinv⟩ := hstep b hb a (List.mem_cons_self ..)
    obtain ⟨last, hlast, hall⟩ := ih (fun b hb a ha => hstep b hb a (List.mem_cons_of_mem _ ha)) hinv
    refine ⟨last, ?_, hall⟩
    rw [List.foldlM_cons, hnext]
    exact hlast

/-- What every step keeps is kept by a run that succeeds. -/
theorem foldlM_keeps {α β ε : Type} {step : β → α → Except ε β} {inv : β → Prop} {as : List α}
    (hstep : ∀ b a next, a ∈ as → inv b → step b a = .ok next → inv next) {b last : β}
    (hb : inv b) (h : as.foldlM step b = .ok last) : inv last := by
  induction as generalizing b with
  | nil =>
    cases h
    exact hb
  | cons a as ih =>
    rw [List.foldlM_cons] at h
    cases hres : step b a with
    | error e => rw [hres] at h; cases h
    | ok next =>
      rw [hres] at h
      exact ih (fun b a next ha => hstep b a next (List.mem_cons_of_mem _ ha))
        (hstep b a next (List.mem_cons_self ..) hb hres) h

namespace Workspace

variable {w u : Workspace} {settings : Settings} {d : Derivations} {id : SheetId}

/-! ### Donors have files -/

/-- A stylesheet with a file. -/
def Filed (w : Workspace) (id : SheetId) : Prop := ∃ s, w.get? id = some s ∧ s.file.isSome = true

theorem filed_of_mem_donors (h : id ∈ w.donors settings) : w.Filed id := by
  have hcan := canSplit_of_mem_donors h
  obtain ⟨s, hs⟩ := hcan.get?
  exact ⟨s, hs, ((isEligible_iff hs).mp hcan.eligible).file⟩

/-! ### No step takes a file away -/

theorem Filed.modify (h : w.Filed id) (other : SheetId) {change : Sheet → Sheet}
    (hfile : ∀ s, (change s).file = s.file) : (w.modify other change).Filed id := by
  obtain ⟨s, hs, hf⟩ := h
  rw [Filed, get?_modify]
  split
  · exact ⟨change s, by rw [hs]; rfl, by rw [hfile]; exact hf⟩
  · exact ⟨s, hs, hf⟩

theorem Filed.push (h : w.Filed id) (s : Sheet) : (w.push s).2.Filed id := by
  obtain ⟨t, ht, hf⟩ := h
  exact ⟨t, get?_push_of_left ht s, hf⟩

/-- An import is placed below a root, or beside another import. -/
inductive PlacedFor (u : Workspace) (rule : NodeId) (node : Node) (params : String) :
    NodeId × Document → Prop where
  | below {home t} : u.get? home = some t →
      PlacedFor u rule node params (importInHost u.doc t.root node params)
  | beside {placed} : importBeside? u.doc rule node params = some placed →
      PlacedFor u rule node params placed

/-- Adding a companion does nothing, or keeps one. -/
theorem addCompanion_cases (u : Workspace) (d : Derivations) (donor derived : SheetId)
    (target : FilePath) (rule : NodeId) :
    addCompanion d donor derived target u rule = u ∨
      ∃ home placed, addCompanion d donor derived target u rule =
        u.keepCompanion derived home placed ∧
        ∃ params origin, PlacedFor u rule (Node.addedImport params origin) params placed := by
  cases hx : u.sheetOf? rule with
  | none => exact Or.inl (by simp [addCompanion, hx])
  | some importer =>
    cases hwritten : (Forest.get? u.doc rule).bind Node.params? with
    | none => exact Or.inl (by simp [addCompanion, hx, hwritten])
    | some written =>
      cases hspecifier : Css.specifier? written with
      | none => exact Or.inl (by simp [addCompanion, hx, hwritten, hspecifier])
      | some specifier =>
        cases hhost : (d.of? importer).filter (· != derived) with
        | some host =>
          cases ht : u.get? host with
          | none => exact Or.inl (by simp [addCompanion, hx, hwritten, hspecifier, hhost, ht])
          | some t =>
            exact Or.inr ⟨host, _, addCompanion_host hx hwritten hspecifier hhost ht, _, _, .below ht⟩
        | none =>
          cases ht : u.get? importer with
          | none => exact Or.inl (by simp [addCompanion, hx, hwritten, hspecifier, hhost, ht])
          | some t =>
            cases hplaced : importBeside? u.doc rule
                (Node.addedImport (companionParams t target written specifier) ⟨donor, specifier⟩)
                (companionParams t target written specifier) with
            | none =>
              rw [companionParams] at hplaced
              exact Or.inl (by simp [addCompanion, hx, hwritten, hspecifier, hhost, ht, hplaced])
            | some placed =>
              exact Or.inr ⟨importer, placed,
                addCompanion_beside hx hwritten hspecifier hhost ht hplaced, _, _, .beside hplaced⟩

/-- What adding one companion keeps, a donor's companions keep. -/
theorem addCompanions_keeps {inv : Workspace → Prop} {pair : SheetId × SheetId} {v : Workspace}
    (hstep : ∀ u target rule, inv u → inv (addCompanion d pair.1 pair.2 target u rule)) (hu : inv u)
    (h : addCompanions d u pair = .ok v) : inv v := by
  unfold addCompanions at h
  cases ht : u.sheet pair.2 with
  | error e => simp [bind, Except.bind, ht] at h
  | ok t =>
    cases hf : t.file with
    | none => simp [bind, Except.bind, ht, hf] at h
    | some target =>
      simp only [bind, Except.bind, ht, hf] at h
      cases h
      exact List.foldlRecOn _ _ hu fun v hv rule _ => hstep v target rule hv

/-- A split runs over the donors, then over the pairs of these. -/
theorem split_eq_ok (h : w.split settings = .ok (u, d)) :
    ∃ state, (w.donors settings).foldlM (splitSheet settings) { workspace := w } = .ok state ∧
      state.derivations = d ∧ d.pairs.foldlM (addCompanions d) state.workspace = .ok u := by
  unfold split at h
  cases hstate : (w.donors settings).foldlM (splitSheet settings) { workspace := w } with
  | error e => simp [bind, Except.bind, hstate] at h
  | ok state =>
    cases hu : state.derivations.pairs.foldlM (addCompanions state.derivations)
        state.workspace with
    | error e => simp [bind, Except.bind, hstate, hu] at h
    | ok last =>
      simp only [bind, Except.bind, hstate, hu] at h
      cases h
      exact ⟨state, rfl, rfl, hu⟩

theorem Filed.addCompanion (h : u.Filed id) (donor derived : SheetId) (target : FilePath)
    (rule : NodeId) : (addCompanion d donor derived target u rule).Filed id := by
  rcases addCompanion_cases u d donor derived target rule with heq | ⟨home, placed, heq, -⟩
  · rw [heq]
    exact h
  · rw [heq]
    exact Filed.modify (w := { u with doc := placed.2 }) h derived fun _ => rfl

/-! ### Splits -/

/-- A split under way: the files there were are there, and derived stylesheets have files. -/
structure Seated (w : Workspace) (state : SplitState) : Prop where
  kept : ∀ id, w.Filed id → state.workspace.Filed id
  made : ∀ path derived, (path, derived) ∈ state.made → state.workspace.Filed derived
  pairs : ∀ donor derived, (donor, derived) ∈ state.derivations.pairs → state.workspace.Filed derived

/-- One more donor is split. -/
theorem Seated.splitSheet {state : SplitState} (h : Seated w state) {donor : SheetId}
    (hdonor : w.Filed donor) :
    ∃ next, Workspace.splitSheet settings state donor = .ok next ∧ Seated w next := by
  obtain ⟨s, hs, hfile⟩ := h.kept donor hdonor
  obtain ⟨seat, hseat⟩ := exists_seatFor settings state.made hs hfile
  unfold Workspace.splitSheet
  simp only [bind, Except.bind, hseat]
  rcases seatFor_cases hs hfile hseat with ⟨path, rfl, hfree⟩ | ⟨path, derived, rfl, hmade⟩
  · obtain ⟨t, hbare, -, hnew⟩ := deriveNew_ok hfree (state.workspace.utilities settings donor)
    simp only [hnew]
    have hkept : ∀ (doc : Document) id, state.workspace.Filed id →
        ({ state.workspace with doc }.push t).2.Filed id := fun doc id hid =>
      Filed.push (w := { state.workspace with doc }) hid t
    have hplaced : ∀ doc : Document, ({ state.workspace with doc }.push t).2.Filed
        state.workspace.sheets.size := fun doc => ⟨t, by rw [get?_push, if_pos rfl], hbare.file⟩
    refine ⟨_, rfl, fun id hid => hkept _ id (h.kept id hid), fun other id hm => ?_,
      fun other id hm => ?_⟩
    · rcases List.mem_cons.mp hm with heq | hm
      · cases heq
        exact hplaced _
      · exact hkept _ id (h.made other id hm)
    · rcases List.mem_append.mp hm with hm | hm
      · exact hkept _ id (h.pairs other id hm)
      · cases List.mem_singleton.mp hm
        exact hplaced _
  · obtain ⟨t, ht, -⟩ := h.made path derived hmade
    simp only [deriveShared, sheet_eq_ok.mpr ht, bind, Except.bind]
    have hkept : ∀ (doc : Document) (content : String) id, state.workspace.Filed id →
        ({ state.workspace with doc }.modify derived fun s => { s with content }).Filed id :=
      fun doc content id hid =>
        Filed.modify (w := { state.workspace with doc }) hid derived fun _ => rfl
    refine ⟨_, rfl, fun id hid => hkept _ _ id (h.kept id hid),
      fun other id hm => hkept _ _ id (h.made other id hm), fun other id hm => ?_⟩
    rcases List.mem_append.mp hm with hm | hm
    · exact hkept _ _ id (h.pairs other id hm)
    · cases List.mem_singleton.mp hm
      exact hkept _ _ derived (h.made path derived hmade)

/-- The derived stylesheets have files. -/
def Hosted (u : Workspace) (pairs : List (SheetId × SheetId)) : Prop :=
  ∀ donor derived, (donor, derived) ∈ pairs → u.Filed derived

theorem Hosted.foldl {pairs : List (SheetId × SheetId)} (h : u.Hosted pairs)
    (donor derived : SheetId) (target : FilePath) (rules : List NodeId) :
    (rules.foldl (addCompanion d donor derived target) u).Hosted pairs := by
  induction rules generalizing u with
  | nil => exact h
  | cons rule rules ih =>
    exact ih fun x y hp => (h x y hp).addCompanion donor derived target rule

/-- The imports of one more donor get companions. -/
theorem Hosted.addCompanions (h : u.Hosted d.pairs) {pair : SheetId × SheetId}
    (hp : pair ∈ d.pairs) :
    ∃ next, Workspace.addCompanions d u pair = .ok next ∧ next.Hosted d.pairs := by
  obtain ⟨t, ht, hfile⟩ := h pair.1 pair.2 hp
  obtain ⟨target, htarget⟩ := Option.isSome_iff_exists.mp hfile
  refine ⟨_, ?_, h.foldl (d := d) pair.1 pair.2 target (u.authoredImports pair.1)⟩
  simp only [Workspace.addCompanions, sheet_eq_ok.mpr ht, bind, Except.bind, htarget]
  rfl

/-- **Every workspace can be split.** -/
theorem exists_parting (w : Workspace) (settings : Settings) :
    ∃ u d, w.split settings = .ok (u, d) := by
  have hstart : Seated w { workspace := w } := ⟨fun _ h => h, by simp, by simp⟩
  have hstep : ∀ state, Seated w state → ∀ donor ∈ w.donors settings,
      ∃ next, splitSheet settings state donor = .ok next ∧ Seated w next :=
    fun state h donor hd => h.splitSheet (filed_of_mem_donors hd)
  obtain ⟨state, hstate, hseated⟩ := foldlM_ok hstep hstart
  have hcompanions : ∀ u : Workspace, u.Hosted state.derivations.pairs →
      ∀ pair ∈ state.derivations.pairs, ∃ next,
        addCompanions state.derivations u pair = .ok next ∧ next.Hosted state.derivations.pairs :=
    fun u h pair hp => h.addCompanions hp
  obtain ⟨u, hu, -⟩ := foldlM_ok hcompanions hseated.pairs
  refine ⟨u, state.derivations, ?_⟩
  simp only [split, bind, Except.bind, hstate, hu]
  rfl

end Workspace

end Strata
