import Strata.Proofs.Migration.Stages
import Strata.Proofs.Path.Uses
import Strata.Proofs.Split.Outcome

/-! The paths that a split gives out.

Whatever was done to a workspace, its donors find places, each among as many names as there are held
paths, and one more (`Allotment.search`). A derived stylesheet gets a path that nobody held, beside
the file of each of its donors. Only when the suffix is empty, and there is nothing else to name it
after, the path is that of the directory itself (`Settings.Places`). -/
namespace Strata

/-- The path is in the directory of the file, or it is that directory, nothing being there that a
derived stylesheet could be named after. -/
def Settings.Places (settings : Settings) (file path : FilePath) : Prop :=
  path.parent? = some file.directory ∨ settings.suffix = "" ∧ file.fileName? = none ∧
    file.directory.text ≠ "" ∧ path = file.directory

namespace Workspace

variable {w v u : Workspace} {settings : Settings} {d : Derivations} {donor : SheetId}

theorem places_derivedPath {file : FilePath} {name : String} (hnormal : file.normalize = file)
    (hname : GoesBy file name) (hsuffix : '/' ∉ settings.suffix.toList) (attempt : Nat) :
    settings.Places file (derivedPath settings file name attempt).normalize := by
  have hpiece : '/' ∉ (FilePath.derivedName name settings.suffix file.extension? attempt).toList :=
    FilePath.slash_not_mem_derivedName hname.bare hsuffix
      (fun _ => FilePath.slash_not_mem_extension) attempt
  have hnothing := @FilePath.eq_of_component?_derivedName name settings.suffix file.extension?
    hname.proper attempt
  rcases FilePath.parent?_join_directory hnormal hpiece fun hup =>
    hname.named (hnothing fun s h => by rw [hup] at h; cases h).1 with hparent | ⟨hnone, hne, hsame⟩
  · exact Or.inl hparent
  · obtain ⟨hempty, hbare⟩ := hnothing fun s h => by rw [hnone] at h; cases h
    exact Or.inr ⟨hbare hnone, hname.named hempty, hne, hsame⟩

/-! ### A split under way -/

/-- Every derived stylesheet has a donor, and a path that leads beside the file of each. -/
structure Allotted (w : Workspace) (settings : Settings) (pairs : List (SheetId × SheetId))
    (v : Workspace) : Prop where
  path : ∀ donor derived, (donor, derived) ∈ pairs → ∃ s t file name attempt,
    w.get? donor = some s ∧ s.file = some file ∧ v.get? derived = some t ∧ GoesBy file name ∧
    t.file = some (derivedPath settings file name attempt).normalize
  donor : ∀ id, w.sheets.size ≤ id → id < v.sheets.size → ∃ donor, (donor, id) ∈ pairs

theorem Allotted.congr {pairs : List (SheetId × SheetId)} (h : Allotted w settings pairs v)
    (hsame : v.SameFiles u) : Allotted w settings pairs u where
  path donor derived hp := by
    obtain ⟨s, t, file, name, attempt, hs, hfile, ht, hname, htfile⟩ := h.path donor derived hp
    obtain ⟨t', ht', htt⟩ := hsame.get?_of_left ht
    exact ⟨s, t', file, name, attempt, hs, hfile, ht', hname, htt.file.trans htfile⟩
  donor id hle hlt := h.donor id hle (hsame.size ▸ hlt)

structure Allotting (w : Workspace) (settings : Settings) (state : SplitState) : Prop where
  branching : Branching w state
  allotted : Allotted w settings state.derivations.pairs state.workspace
  made : MadeFiled state

theorem allotting_start (hw : w.OneHolder) : Allotting w settings { workspace := w } where
  branching := ⟨.refl hw, fun _ _ hm => absurd hm List.not_mem_nil⟩
  allotted := ⟨fun _ _ hp => absurd hp List.not_mem_nil,
    fun _ hle hlt => absurd hlt (Nat.not_lt.mpr hle)⟩
  made _ _ hm := absurd hm List.not_mem_nil

/-- One more donor has a place. -/
theorem Allotting.splitSheet {state next : SplitState} (h : Allotting w settings state)
    (hdonor : w.Filed donor) (hnext : splitSheet settings state donor = .ok next) :
    Allotting w settings next := by
  obtain ⟨s', file, attempt, derived, hs', hfile, hallots⟩ := exists_allots h.made hnext
  obtain ⟨s, hs, -⟩ := id hdonor
  obtain ⟨s'', hs'', hsame⟩ := h.branching.branched.original donor s hs
  cases hs'.symm.trans hs''
  refine ⟨h.branching.splitSheet hdonor hnext, ⟨fun x id hp => ?_, fun id hle hlt => ?_⟩,
    hallots.madeFiled h.made⟩
  · rw [hallots.derivations] at hp
    rcases List.mem_append.mp hp with hp | hp
    · obtain ⟨sx, t, filex, name, k, hsx, hfx, ht, hname, htfile⟩ := h.allotted.path x id hp
      obtain ⟨t', ht', hkept⟩ := hallots.kept id t ht
      exact ⟨sx, t', filex, name, k, hsx, hfx, ht', hname, hkept.trans htfile⟩
    · cases List.mem_singleton.mp hp
      obtain ⟨t, ht, htfile⟩ := hallots.placed
      exact ⟨s, t, file, _, attempt, hs, hsame.file.symm.trans hfile, ht,
        goesBy_nameFor state.workspace donor file, htfile⟩
  · rw [hallots.derivations]
    rcases hallots.size id hlt with hlt | rfl
    · obtain ⟨x, hx⟩ := h.allotted.donor id hle hlt
      exact ⟨x, List.mem_append_left _ hx⟩
    · exact ⟨donor, List.mem_append_right _ (List.mem_singleton_self _)⟩

theorem allotted_foldlM (hw : w.OneHolder) {state : SplitState}
    (h : (w.donors settings).foldlM (splitSheet settings) { workspace := w } = .ok state) :
    Allotted w settings state.derivations.pairs state.workspace := by
  have hrun : Allotting w settings state := foldlM_keeps
    (fun _ _ _ hmem hstate hnext => hstate.splitSheet (filed_of_mem_donors hmem) hnext)
    (allotting_start hw) h
  exact hrun.allotted

/-- When the turn of a donor comes, its search ends. -/
theorem search_of_donors {before after : List SheetId}
    (h : w.donors settings = before ++ donor :: after) : ∃ state s file,
      before.foldlM (splitSheet settings) { workspace := w } = .ok state ∧
      state.workspace.get? donor = some s ∧ s.file = some file ∧
      state.workspace.Search settings state.made donor file := by
  have hmem : ∀ x ∈ before ++ [donor], x ∈ w.donors settings := by
    intro x hx
    rw [h, List.append_cons]
    exact List.mem_append_left _ hx
  have hstart : Seated w { workspace := w } := ⟨fun _ h => h, by simp, by simp⟩
  obtain ⟨state, hstate, hseated⟩ := foldlM_ok (fun state (hs : Seated w state) x hx =>
    hs.splitSheet (filed_of_mem_donors (hmem x (List.mem_append_left _ hx)))) hstart
  obtain ⟨s, hs, hfile⟩ := hseated.kept donor
    (filed_of_mem_donors (hmem donor (List.mem_append_right _ (List.mem_singleton_self _))))
  obtain ⟨file, hf⟩ := Option.isSome_iff_exists.mp hfile
  exact ⟨state, s, file, hstate, hs, hf, searched settings state.made hs hf⟩

/-! ### The paths behind a split -/

/-- What a split gives out: donors search in vain among held paths only, and derived stylesheets have
paths of their own that nobody held, beside the files of their donors. -/
structure Allotment (w : Workspace) (settings : Settings) (u : Workspace) (d : Derivations) : Prop where
  search : ∀ before donor after, w.donors settings = before ++ donor :: after → ∃ state s file,
    before.foldlM (splitSheet settings) { workspace := w } = .ok state ∧
    state.workspace.get? donor = some s ∧ s.file = some file ∧
    state.workspace.Search settings state.made donor file
  kept : ∀ id s, w.get? id = some s → ∃ t, u.get? id = some t ∧ s.SameFile t
  fresh : ∀ id t, w.sheets.size ≤ id → u.get? id = some t → t.derived = true ∧
    (∃ path, t.Holds path ∧ path.normalize = path ∧ w.holderOf? path = none) ∧
    ∃ donor, (donor, id) ∈ d.pairs
  apart : ∀ i j s t, w.sheets.size ≤ i → w.sheets.size ≤ j → u.get? i = some s →
    u.get? j = some t → s.file = t.file → i = j
  beside : '/' ∉ settings.suffix.toList → ∀ donor derived, (donor, derived) ∈ d.pairs →
    ∃ s t file path, w.get? donor = some s ∧ s.file = some file ∧ w.sheets.size ≤ derived ∧
      u.get? derived = some t ∧ t.file = some path ∧ settings.Places file path

theorem Branched.unheld {pairs : List (SheetId × SheetId)} (h : Branched w pairs u)
    (hw : w.OneHolder) {id : SheetId} {t : Sheet} (hid : w.sheets.size ≤ id)
    (ht : u.get? id = some t) {path : FilePath} (hholds : t.Holds path)
    (hnormal : path.normalize = path) : w.holderOf? path = none := by
  cases hfound : w.holderOf? path with
  | none => rfl
  | some other =>
    obtain ⟨s, hs, hsholds⟩ := hw.holderOf?_eq_some.mp hfound
    obtain ⟨s', hs', hsame⟩ := h.original other s hs
    have heq := h.oneHolder other id s' t path hs' ht
      (hsame.holds_iff.mpr (hnormal ▸ hsholds)) hholds
    exact absurd (lt_size hs) (Nat.not_lt.mpr (heq ▸ hid))

/-- **Every workspace that can be made can be split, whatever the settings, and the derived stylesheets
get paths beside their donors that nobody held.** -/
theorem allotted_by_split (h : w.Reached) (settings : Settings) :
    ∃ u d, w.split settings = .ok (u, d) ∧ w.Allotment settings u d := by
  obtain ⟨u, d, hsplit⟩ := exists_parting w settings
  refine ⟨u, d, hsplit, ?_⟩
  have hfiles := h.filesApart
  have hone := hfiles.oneHolder
  obtain ⟨hbranched, -⟩ := branched_split hone hsplit
  obtain ⟨state, hstate, rfl, hu⟩ := split_eq_ok hsplit
  have hallotted := (allotted_foldlM hone hstate).congr (sameFiles_foldlM hu)
  refine ⟨fun _ _ _ => search_of_donors, hbranched.original, fun id t hid ht => ?_,
    fun i j s t hi hj hs ht heq => ?_, fun hsuffix donor derived hp => ?_⟩
  · obtain ⟨hderived, path, hholds, hnormal⟩ := hbranched.fresh id t hid ht
    exact ⟨hderived, ⟨path, hholds, hnormal, hbranched.unheld hone hid ht hholds hnormal⟩,
      hallotted.donor id hid (lt_size ht)⟩
  · obtain ⟨-, path, hpath, -⟩ := hbranched.fresh i s hi hs
    obtain ⟨-, other, hother, -⟩ := hbranched.fresh j t hj ht
    cases hpath.file.symm.trans (heq.trans hother.file)
    exact hbranched.oneHolder i j s t path hs ht hpath hother
  · obtain ⟨s, t, file, name, attempt, hs, hfile, ht, hname, htfile⟩ :=
      hallotted.path donor derived hp
    exact ⟨s, t, file, _, hs, hfile, (hbranched.pair donor derived hp).2.1, ht, htfile,
      places_derivedPath (hfiles.normal donor s file hs hfile) hname hsuffix attempt⟩

/-- A stylesheet with a utility, and another on the path that comes first for it. -/
def withNeighbour : List (Option FilePath × String) :=
  entryAnd "h1 {}\n@utility foo { color: red }" ++ [(some ⟨"/p/a.utilities.css"⟩, "b {}")]

theorem allotted_beside_neighbour : ∃ (w u : Workspace) (d : Derivations),
    w.Reached ∧ w.split {} = .ok (u, d) ∧
    (u.sheets.toList.map Sheet.file).getLast? = some (some ⟨"/p/a.utilities.1.css"⟩) ∧
    w.Allotment {} u d := by
  have hrun : splitsWith withNeighbour entryFiles ⟨"/p"⟩ {} (fun _ u _ =>
      (u.sheets.toList.map Sheet.file).getLast? == some (some ⟨"/p/a.utilities.1.css"⟩)) = true := by
    decide +kernel
  obtain ⟨table, w, u, d, hl, hsplit, hcheck⟩ := exists_of_splitsWith hrun
  obtain ⟨u', d', hsplit', h⟩ := allotted_by_split (reached_inheriting hl) {}
  cases hsplit.symm.trans hsplit'
  exact ⟨w, u, d, reached_inheriting hl, hsplit, beq_iff_eq.mp hcheck, h⟩

/-- With an empty suffix a file that is called by two dots is split to its own directory. -/
theorem not_always_beside : ¬ ∀ (w : Workspace) (settings : Settings) (u : Workspace)
    (d : Derivations), w.Reached → '/' ∉ settings.suffix.toList → w.split settings = .ok (u, d) →
    ∀ donor derived s t file path, (donor, derived) ∈ d.pairs → w.get? donor = some s →
      s.file = some file → u.get? derived = some t → t.file = some path →
      path.parent? = some file.directory := by
  intro hall
  have hrun : splitsWith [(some ⟨"a.css"⟩, "@import '../..' layer(utilities);"),
      (some ⟨"../.."⟩, "h1 {}\n@utility foo { color: red }")]
      (.known [⟨"a.css"⟩, ⟨"../.."⟩]) ⟨"/"⟩ { suffix := "" } (fun w u d =>
        d.pairs == [(1, 2)] && (w.get? 1).map Sheet.file == some (some ⟨"../.."⟩) &&
          (u.get? 2).map Sheet.file == some (some ⟨".."⟩)) = true := by
    decide +kernel
  obtain ⟨table, w, u, d, hl, hsplit, hcheck⟩ := exists_of_splitsWith hrun
  simp only [Bool.and_eq_true, beq_iff_eq] at hcheck
  obtain ⟨⟨hpairs, hdonor⟩, hderived⟩ := hcheck
  obtain ⟨s, hs, hfile⟩ := Option.map_eq_some_iff.mp hdonor
  obtain ⟨t, ht, hpath⟩ := Option.map_eq_some_iff.mp hderived
  have hparent := hall w _ u d (reached_inheriting hl) (by decide) hsplit 1 2 s t _ _
    (by rw [hpairs]; exact List.mem_singleton_self _) hs hfile ht hpath
  revert hparent
  decide

end Workspace

end Strata
