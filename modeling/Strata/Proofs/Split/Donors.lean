import Strata.Proofs.Split.Moves

/-! Donors, one after another.

Each donor is split on one of the paths beside it (`splitSheet_cases`), and this
leaves the workspace divided, with one more pair. As the document names the same
imports throughout, the path is known from the workspace that the split started
from (`Beside`). -/
namespace Strata.Workspace

open Forest

variable {w v : Workspace} {settings : Settings} {pairs : List (SheetId × SheetId)}
  {donor : SheetId}

/-! ### One donor -/

/-- A donor is split and gets a derived stylesheet of its own, on a path that nobody holds. -/
structure SplitAlone (state : SplitState) (donor : SheetId) (path : FilePath) (next : SplitState) :
    Prop where
  free : state.workspace.holderOf? path = none
  unmade : ∀ other id, (other, id) ∈ state.made → other.same path = false
  pushed : ∃ doc t, t.derived = true ∧ t.Holds path.normalize ∧
    next.workspace = ({ state.workspace with doc }.push t).2
  derivations : next.derivations = state.derivations.push donor state.workspace.sheets.size
  made : next.made = (path, state.workspace.sheets.size) :: state.made

/-- A donor is split and shares the derived stylesheet of another. -/
structure SplitShared (state : SplitState) (donor : SheetId) (path : FilePath) (derived : SheetId)
    (next : SplitState) : Prop where
  given : ∃ other, (other, derived) ∈ state.made ∧ other.same path = true
  modified : ∃ doc content, next.workspace =
    { state.workspace with doc }.modify derived fun s => { s with content }
  derivations : next.derivations = state.derivations.push donor derived
  made : next.made = state.made

theorem deriveNew_cases {path : FilePath} {nodes : List NodeId} {made : SheetId × Workspace}
    (h : w.deriveNew path nodes = .ok made) :
    ∃ doc t, t.derived = true ∧ t.Holds path.normalize ∧ made = { w with doc }.push t := by
  simp only [deriveNew, addDerived] at h
  split at h
  · cases h
  · cases h
    exact ⟨_, _, rfl, ⟨rfl, rfl⟩, rfl⟩

/-- **A donor is split on one of the paths beside it.** -/
theorem splitSheet_cases {state next : SplitState} (h : splitSheet settings state donor = .ok next) :
    ∃ s file attempt, state.workspace.get? donor = some s ∧ s.file = some file ∧
      (SplitAlone state donor
          (derivedPath settings file (state.workspace.nameFor donor file) attempt) next ∨
        ∃ derived, SplitShared state donor
          (derivedPath settings file (state.workspace.nameFor donor file) attempt) derived next) := by
  unfold splitSheet at h
  cases hseat : state.workspace.seatFor settings state.made donor with
  | error e => simp [bind, Except.bind, hseat] at h
  | ok seat =>
    obtain ⟨s, file, hs, hf⟩ : ∃ s file, state.workspace.get? donor = some s ∧
        s.file = some file := by
      unfold seatFor at hseat
      cases hs : state.workspace.sheet donor with
      | error e => simp [bind, Except.bind, hs] at hseat
      | ok s =>
        cases hf : s.file with
        | none => simp [bind, Except.bind, hs, hf] at hseat
        | some file => exact ⟨s, file, sheet_eq_ok.mp hs, hf⟩
    obtain ⟨attempt, -, hat⟩ := List.exists_of_findSome?_eq_some ((seatFor_eq_ok hs hf).mp hseat)
    refine ⟨s, file, attempt, hs, hf, ?_⟩
    simp only [bind, Except.bind, hseat] at h
    unfold seatAt? at hat
    split at hat
    · next other derived hfound =>
      cases hat
      refine Or.inr ⟨derived, ?_⟩
      cases hshared : state.workspace.deriveShared derived
          (state.workspace.utilities settings donor) with
      | error e => simp [hshared] at h
      | ok v =>
        simp only [hshared] at h
        cases h
        refine ⟨⟨other, List.mem_of_find?_eq_some hfound, by simpa using List.find?_some hfound⟩,
          ?_, rfl, rfl⟩
        unfold deriveShared at hshared
        cases ht : state.workspace.sheet derived with
        | error e => simp [bind, Except.bind, ht] at hshared
        | ok t =>
          simp only [bind, Except.bind, ht] at hshared
          cases hshared
          exact ⟨_, _, rfl⟩
    · next hfound =>
      split at hat
      · next hfree =>
        cases hat
        refine Or.inl ?_
        cases hnew : state.workspace.deriveNew
            (derivedPath settings file (state.workspace.nameFor donor file) attempt)
            (state.workspace.utilities settings donor) with
        | error e => simp [hnew] at h
        | ok made =>
          obtain ⟨doc, t, hderived, hholds, rfl⟩ := deriveNew_cases hnew
          simp only [hnew] at h
          cases h
          refine ⟨Option.isNone_iff_eq_none.mp hfree, fun other id hm => ?_,
            ⟨doc, t, hderived, hholds, rfl⟩, rfl, rfl⟩
          simpa using List.find?_eq_none.mp hfound (other, id) hm
      · cases hat

/-- What becomes of files when a donor is split: they stay, and the donor's derived stylesheet, which
is the only one that may be new, has the given path. -/
structure Allots (state : SplitState) (donor derived : SheetId) (path : FilePath)
    (next : SplitState) : Prop where
  derivations : next.derivations = state.derivations.push donor derived
  size : ∀ id < next.workspace.sheets.size, id < state.workspace.sheets.size ∨ id = derived
  kept : ∀ id t, state.workspace.get? id = some t →
    ∃ t', next.workspace.get? id = some t' ∧ t'.file = t.file
  placed : ∃ t, next.workspace.get? derived = some t ∧ t.file = some path.normalize
  made : ∀ other id, (other, id) ∈ next.made → (other, id) ∈ state.made ∨ other = path ∧ id = derived

/-- The paths given out are those of derived stylesheets. -/
def MadeFiled (state : SplitState) : Prop :=
  ∀ path derived, (path, derived) ∈ state.made →
    ∃ t, state.workspace.get? derived = some t ∧ t.file = some path.normalize

theorem exists_allots {state next : SplitState} (hmade : MadeFiled state)
    (h : splitSheet settings state donor = .ok next) :
    ∃ s file attempt derived, state.workspace.get? donor = some s ∧ s.file = some file ∧
      Allots state donor derived
        (derivedPath settings file (state.workspace.nameFor donor file) attempt) next := by
  obtain ⟨s, file, attempt, hs, hfile, halone | ⟨derived, hshared⟩⟩ := splitSheet_cases h
  · obtain ⟨doc, t, -, hholds, hworkspace⟩ := halone.pushed
    refine ⟨s, file, attempt, _, hs, hfile, halone.derivations, fun id hid => ?_,
      fun id r hr => ⟨r, ?_, rfl⟩, ⟨t, ?_, hholds.file⟩, fun other id hm => ?_⟩
    · rw [hworkspace, push, Array.size_push] at hid
      exact Nat.lt_succ_iff_lt_or_eq.mp hid
    · rw [hworkspace]
      exact get?_push_of_left hr t
    · rw [hworkspace, get?_push]
      exact if_pos rfl
    · rw [halone.made] at hm
      exact (List.mem_cons.mp hm).symm.imp_right Prod.mk.inj
  · obtain ⟨other, hother, hsame⟩ := hshared.given
    obtain ⟨doc, content, hworkspace⟩ := hshared.modified
    have hkept : ∀ id r, state.workspace.get? id = some r →
        ∃ r', next.workspace.get? id = some r' ∧ r'.file = r.file := by
      intro id r hr
      rw [hworkspace, get?_modify]
      have hr : { state.workspace with doc }.get? id = some r := hr
      rw [hr]
      split
      · exact ⟨_, rfl, rfl⟩
      · exact ⟨r, rfl, rfl⟩
    obtain ⟨t, ht, htfile⟩ := hmade other derived hother
    obtain ⟨t', ht', hfile'⟩ := hkept derived t ht
    refine ⟨s, file, attempt, derived, hs, hfile, hshared.derivations, fun id hid => ?_, hkept,
      ⟨t', ht', ?_⟩, fun path id hm => ?_⟩
    · rw [hworkspace, size_modify] at hid
      exact Or.inl hid
    · rw [hfile', htfile, FilePath.normalize_eq_of_same hsame]
    · rw [hshared.made] at hm
      exact Or.inl hm

theorem Allots.madeFiled {state next : SplitState} {derived : SheetId} {path : FilePath}
    (h : Allots state donor derived path next) (hmade : MadeFiled state) : MadeFiled next := by
  intro other id hm
  rcases h.made other id hm with hm | ⟨rfl, rfl⟩
  · obtain ⟨t, ht, htfile⟩ := hmade other id hm
    obtain ⟨t', ht', hsame⟩ := h.kept id t ht
    exact ⟨t', ht', hsame.trans htfile⟩
  · exact h.placed

/-! ### Paths beside the donors -/

/-- The imports of a donor have kept their specifiers, so it goes by the same name. -/
theorem Divided.nameFor_eq (h : Divided w settings pairs v) (hw : w.Recorded) {s : Sheet}
    (hs : w.get? donor = some s) (file : FilePath) : v.nameFor donor file = w.nameFor donor file := by
  have hdata : ∀ rule ∈ s.inbound, v.doc.get? rule = w.doc.get? rule := by
    intro rule hr
    obtain ⟨n, -, -, hn, -⟩ := (hw.rule donor s rule hs hr).readable
    exact h.data rule (contains_iff_get?.mpr ⟨n, hn⟩)
  have hauthored : v.authoredImports donor = w.authoredImports donor := by
    unfold authoredImports
    rw [h.original donor (lt_size hs), hs]
    exact List.filter_congr fun rule hr => by rw [hdata rule hr]
  unfold nameFor nameFromImports?
  rw [hauthored, hw.authoredImports_eq hs]
  have hnames : (s.inbound.filterMap fun rule => (((v.doc.get? rule).bind Node.params?).bind
      Css.specifier?).map FilePath.specifierName) = s.inbound.filterMap fun rule =>
      (((w.doc.get? rule).bind Node.params?).bind Css.specifier?).map FilePath.specifierName :=
    List.filterMap_congr fun rule hr => by rw [hdata rule hr]
  simp only [hnames]

/-- A donor goes by the last name in the specifier of an import, or by the name of its file. -/
theorem Analysed.nameFor_cases (hw : w.Analysed) {s : Sheet} (hs : w.get? donor = some s)
    (file : FilePath) :
    (∃ rule n params specifier, rule ∈ s.inbound ∧ w.doc.get? rule = some n ∧
      n.isImportRule = true ∧ n.params? = some params ∧ Css.specifier? params = some specifier ∧
      w.nameFor donor file = FilePath.specifierName specifier ∧ w.nameFor donor file ≠ "" ∧
      w.nameFor donor file ≠ "." ∧ w.nameFor donor file ≠ "..") ∨
    w.nameFor donor file = file.fileName?.getD "" := by
  unfold nameFor
  cases hn : w.nameFromImports? donor with
  | none => exact Or.inr rfl
  | some name =>
    have hproper := List.find?_some hn
    obtain ⟨rule, hr, hname⟩ := List.mem_filterMap.mp (List.mem_of_find?_eq_some hn)
    obtain ⟨specifier, hspecifier, rfl⟩ := Option.map_eq_some_iff.mp hname
    rw [hw.authoredImports_eq hs] at hr
    obtain ⟨n, params, _, hdata, himport, hparams, -⟩ := (hw.rule donor s rule hs hr).1.readable
    rw [hdata, Option.bind_some, hparams, Option.bind_some] at hspecifier
    simp only [Bool.and_eq_true, bne_iff_ne] at hproper
    exact Or.inl ⟨rule, n, params, specifier, hr, hdata, himport, hparams, hspecifier, rfl,
      hproper.1.1, hproper.1.2, hproper.2⟩

/-- Derived stylesheets have paths beside their donors, as these were named before the split. -/
structure Beside (w : Workspace) (settings : Settings) (pairs : List (SheetId × SheetId))
    (v : Workspace) : Prop where
  path : ∀ donor derived, (donor, derived) ∈ pairs → ∃ s t file attempt, w.get? donor = some s ∧
    s.file = some file ∧ v.get? derived = some t ∧
    t.file = some (derivedPath settings file (w.nameFor donor file) attempt).normalize
  donor : ∀ id, w.sheets.size ≤ id → id < v.sheets.size → ∃ donor, (donor, id) ∈ pairs

/-- The paths given out are those of the derived stylesheets. -/
structure GivenOut (w : Workspace) (settings : Settings) (state : SplitState) : Prop where
  beside : Beside w settings state.derivations.pairs state.workspace
  made : MadeFiled state

/-- One more donor has a path. -/
theorem GivenOut.splitSheet {state next : SplitState} (h : GivenOut w settings state)
    (hd : Divided w settings state.derivations.pairs state.workspace) (hw : w.Recorded) {s : Sheet}
    (hs : w.get? donor = some s) (hnext : Workspace.splitSheet settings state donor = .ok next) :
    GivenOut w settings next := by
  obtain ⟨s', file, attempt, derived, hs', hfile, hallots⟩ := exists_allots h.made hnext
  rw [hd.original donor (lt_size hs), hs] at hs'
  cases hs'
  rw [hd.nameFor_eq hw hs] at hallots
  refine ⟨⟨fun x id hp => ?_, fun id hle hid => ?_⟩, hallots.madeFiled h.made⟩
  · rw [hallots.derivations] at hp
    rcases List.mem_append.mp hp with hp | hp
    · obtain ⟨sx, r, filex, k, hsx, hfx, hr, hrfile⟩ := h.beside.path x id hp
      obtain ⟨r', hr', hsame⟩ := hallots.kept id r hr
      exact ⟨sx, r', filex, k, hsx, hfx, hr', hsame.trans hrfile⟩
    · cases List.mem_singleton.mp hp
      obtain ⟨t, ht, htfile⟩ := hallots.placed
      exact ⟨s, t, file, attempt, hs, hfile, ht, htfile⟩
  · rw [hallots.derivations]
    rcases hallots.size id hid with hid | rfl
    · obtain ⟨x, hx⟩ := h.beside.donor id hle hid
      exact ⟨x, List.mem_append_left _ hx⟩
    · exact ⟨donor, List.mem_append_right _ (List.mem_singleton_self _)⟩

/-! ### The run over the donors -/

/-- A split when the donors in `done` are through. -/
structure Underway (w : Workspace) (settings : Settings) (done : List SheetId) (state : SplitState) :
    Prop where
  divided : Divided w settings state.derivations.pairs state.workspace
  keys : state.derivations.pairs.map Prod.fst = done
  made : ∀ path derived, (path, derived) ∈ state.made →
    w.sheets.size ≤ derived ∧ derived < state.workspace.sheets.size

/-- A new derived stylesheet on a path that nobody holds. -/
theorem addDerived_ok {path : FilePath} (hfree : v.holderOf? path = none) (doc : Document)
    (root : NodeId) : ∃ t, t.Bare ∧ t.root = root ∧
      { v with doc }.addDerived path root = .ok ({ v with doc }.push t) := by
  have htaken : { v with doc }.taken? (some path.normalize) = none := by
    have : { v with doc }.holderOf? path.normalize = none := by
      rw [holderOf?_normalize]
      exact hfree
    simp [taken?, this]
  refine ⟨{ Sheet.new (some path.normalize) (Document.css doc root) root with derived := true },
    ⟨rfl, rfl, rfl, rfl, rfl⟩, rfl, ?_⟩
  unfold addDerived
  simp only [htaken]

theorem deriveNew_ok {path : FilePath} (hfree : v.holderOf? path = none) (nodes : List NodeId) :
    ∃ t, t.Bare ∧ t.root = (v.doc.create .root).1 ∧ v.deriveNew path nodes = .ok (
      { v with
        doc := nodes.foldl (fun doc node => doc.moveLast node (v.doc.create .root).1)
          (v.doc.create .root).2 }.push t) :=
  addDerived_ok hfree _ _

namespace Underway

variable {done : List SheetId} {state : SplitState} (h : Underway w settings done state)
  (hw : w.Tidy) {donor : SheetId} (hdonor : donor ∉ done) {s : Sheet}
  (hs : w.get? donor = some s) (hfile : s.file.isSome = true)
include h hw hdonor hs hfile

theorem splitSheet : ∃ next, Workspace.splitSheet settings state donor = .ok next ∧
    Underway w settings (done ++ [donor]) next := by
  have hdonor : donor ∉ state.derivations.pairs.map Prod.fst := h.keys ▸ hdonor
  have hget := h.divided.original_root hs
  have hutilities := h.divided.utilities_eq hw hdonor hs
  obtain ⟨seat, hseat⟩ := exists_seatFor settings state.made hget hfile
  unfold Workspace.splitSheet
  simp only [bind, Except.bind, hutilities, hseat]
  rcases seatFor_cases hget hfile hseat with ⟨path, rfl, hfree⟩ | ⟨path, derived, rfl, hmade⟩
  · obtain ⟨t, hbare, hroot, hnew⟩ := deriveNew_ok hfree (w.utilities settings donor)
    simp only [hnew]
    refine ⟨_, rfl, ?_, by simp [Derivations.push, h.keys], fun other id hm => ?_⟩
    · have hst := h.divided.tidy.wellFormed.stocked
      have hadd := h.divided.addRoot hbare hroot
      have ht : ({ state.workspace with doc := (state.workspace.doc.create .root).2 }.push t).2.get?
          state.workspace.sheets.size = some t := by rw [get?_push, if_pos rfl]
      have hempty : Forest.children (state.workspace.doc.create .root).2 t.root = [] := by
        rw [hroot, children_create hst, children_eq_nil (not_contains_created hst _)]
      have hline : Forest.children (state.workspace.doc.create .root).2 t.root ++
          w.utilities settings donor = w.utilities settings donor ++
          Forest.children (state.workspace.doc.create .root).2 t.root := by
        rw [hempty, List.nil_append, List.append_nil]
      have hgather := hline ▸ gathered_moveLast (hadd.gatherable hw hdonor h.divided.size_le ht)
      have hnext := hadd.gather hw hdonor h.divided.size_le ht hgather
      rw [hroot] at hnext
      exact hnext
    · have hsize : ∀ doc : Document, ({ state.workspace with doc }.push t).2.sheets.size =
          state.workspace.sheets.size + 1 := fun doc => by simp [push]
      rcases List.mem_cons.mp hm with heq | hm
      · cases heq
        exact ⟨h.divided.size_le, by rw [hsize]; exact Nat.lt_succ_self _⟩
      · obtain ⟨hle, hlt⟩ := h.made other id hm
        exact ⟨hle, by rw [hsize]; exact Nat.lt_succ_of_lt hlt⟩
  · obtain ⟨hle, hlt⟩ := h.made path derived hmade
    obtain ⟨t, ht⟩ := get?_isSome.mpr hlt
    have hgather := gathered_move (h.divided.gatherable hw hdonor hle ht) (List.nil_append _).symm
    have hnext := h.divided.gather hw hdonor hle ht hgather
    simp only [deriveShared, sheet_eq_ok.mpr ht, bind, Except.bind]
    refine ⟨_, rfl, hnext.withContent hle _, by simp [Derivations.push, h.keys], fun other id hm => ?_⟩
    simpa only [size_modify] using h.made other id hm

end Underway

/-- What every step keeps is kept along. -/
theorem underway_foldlM {inv : SplitState → Prop} {done donors : List SheetId} {state : SplitState}
    (h : Underway w settings done state) (hinv : inv state) (hw : w.Tidy)
    (hkeep : ∀ state next donor s, Divided w settings state.derivations.pairs state.workspace →
      inv state → w.get? donor = some s → splitSheet settings state donor = .ok next → inv next)
    (hnodup : (done ++ donors).Nodup)
    (hfiled : ∀ donor ∈ donors, ∃ s, w.get? donor = some s ∧ s.file.isSome = true) :
    ∃ last, donors.foldlM (splitSheet settings) state = .ok last ∧
      Underway w settings (done ++ donors) last ∧ inv last := by
  induction donors generalizing done state with
  | nil => exact ⟨state, rfl, by simpa using h, hinv⟩
  | cons donor donors ih =>
    obtain ⟨s, hs, hfile⟩ := hfiled donor (List.mem_cons_self ..)
    have hdonor : donor ∉ done := fun hd =>
      (List.nodup_append.mp hnodup).2.2 donor hd donor (List.mem_cons_self ..) rfl
    obtain ⟨next, hnext, hstep⟩ := h.splitSheet hw hdonor hs hfile
    rw [List.append_cons] at hnodup
    obtain ⟨last, hlast, hrun⟩ := ih hstep (hkeep state next donor s h.divided hinv hs hnext) hnodup
      fun x hx => hfiled x (List.mem_cons_of_mem _ hx)
    refine ⟨last, ?_, by simpa using hrun⟩
    rw [List.foldlM_cons, hnext]
    exact hlast

/-- **Every donor can be split, and what comes of it is divided.** -/
theorem exists_divided {inv : SplitState → Prop} (h : w.Tidy) (settings : Settings)
    (hinv : inv { workspace := w })
    (hkeep : ∀ state next donor s, Divided w settings state.derivations.pairs state.workspace →
      inv state → w.get? donor = some s → splitSheet settings state donor = .ok next → inv next) :
    ∃ state, (w.donors settings).foldlM (splitSheet settings) { workspace := w } = .ok state ∧
      Divided w settings state.derivations.pairs state.workspace ∧ inv state ∧
      state.derivations.pairs.map Prod.fst = w.donors settings := by
  have hstart : Underway w settings [] { workspace := w } :=
    ⟨divided_refl h, rfl, fun _ _ hm => absurd hm List.not_mem_nil⟩
  have hfiled : ∀ donor ∈ w.donors settings,
      ∃ s, w.get? donor = some s ∧ s.file.isSome = true := by
    intro donor hd
    have hcan := canSplit_of_mem_donors hd
    obtain ⟨s, hs⟩ := hcan.get?
    exact ⟨s, hs, ((isEligible_iff hs).mp hcan.eligible).file⟩
  have hnodup : ([] ++ w.donors settings).Nodup := donors_nodup w settings
  obtain ⟨state, hstate, hrun, hinv⟩ := underway_foldlM hstart hinv h hkeep hnodup hfiled
  exact ⟨state, hstate, hrun.divided, hinv, hrun.keys⟩

/-- The paths that are given out lie beside the donors. -/
theorem exists_divided_beside (h : w.Recorded) (settings : Settings) :
    ∃ state, (w.donors settings).foldlM (splitSheet settings) { workspace := w } = .ok state ∧
      Divided w settings state.derivations.pairs state.workspace ∧
      Beside w settings state.derivations.pairs state.workspace ∧
      state.derivations.pairs.map Prod.fst = w.donors settings := by
  have hgiven : GivenOut w settings { workspace := w } :=
    ⟨⟨fun _ _ hp => absurd hp List.not_mem_nil, fun _ hle hlt => absurd hlt (Nat.not_lt.mpr hle)⟩,
      fun _ _ hm => absurd hm List.not_mem_nil⟩
  obtain ⟨state, hstate, hdivided, hgiven, hkeys⟩ := exists_divided h.tidy settings hgiven
    fun _ _ _ _ hd hg hs hnext => hg.splitSheet hd h hs hnext
  exact ⟨state, hstate, hdivided, hgiven.beside, hkeys⟩

end Strata.Workspace
