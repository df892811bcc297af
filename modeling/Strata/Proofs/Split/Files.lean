import Strata.Proofs.Split.Success
import Strata.Proofs.Workspace.Files

/-! Files of derived stylesheets.

A split leaves the files of the stylesheets there were, and gives every derived stylesheet a path
that nobody holds (`Branched`). Nothing is asked of the workspace here, not even that its document
is a forest. -/
namespace Strata.Workspace

variable {w u v : Workspace} {settings : Settings} {d : Derivations} {donor : SheetId}

/-- Beside the stylesheets of `w`, with the files they had, derived ones with files of their own. -/
structure Branched (w : Workspace) (pairs : List (SheetId × SheetId)) (u : Workspace) : Prop where
  size_le : w.sheets.size ≤ u.sheets.size
  original : ∀ id s, w.get? id = some s → ∃ t, u.get? id = some t ∧ s.SameFile t
  fresh : ∀ id t, w.sheets.size ≤ id → u.get? id = some t →
    t.derived = true ∧ ∃ path, t.Holds path ∧ path.normalize = path
  oneHolder : u.OneHolder
  pair : ∀ donor derived, (donor, derived) ∈ pairs →
    w.Filed donor ∧ w.sheets.size ≤ derived ∧ derived < u.sheets.size

namespace Branched

variable {pairs : List (SheetId × SheetId)}

theorem refl (hw : w.OneHolder) : Branched w [] w where
  size_le := Nat.le_refl _
  original _ s hs := ⟨s, hs, .refl s⟩
  fresh _ _ hid ht := absurd (lt_size ht) (Nat.not_lt.mpr hid)
  oneHolder := hw
  pair _ _ hp := absurd hp List.not_mem_nil

variable (h : Branched w pairs u)
include h

theorem congr (hsame : u.SameFiles v) : Branched w pairs v where
  size_le := hsame.size ▸ h.size_le
  original id s hs := by
    obtain ⟨t, ht, hst⟩ := h.original id s hs
    obtain ⟨r, hr, htr⟩ := hsame.get?_of_left ht
    exact ⟨r, hr, hst.trans htr⟩
  fresh id r hid hr := by
    obtain ⟨t, ht, htr⟩ := hsame.sheet id r hr
    obtain ⟨hderived, path, hholds, hnormal⟩ := h.fresh id t hid ht
    exact ⟨htr.derived.trans hderived, path, htr.holds_iff.mpr hholds, hnormal⟩
  oneHolder := hsame.oneHolder h.oneHolder
  pair donor derived hp := hsame.size.symm ▸ h.pair donor derived hp

theorem push {t : Sheet} {path : FilePath} (hderived : t.derived = true)
    (hholds : t.Holds path.normalize) (hfree : u.holderOf? path = none) :
    Branched w pairs (u.push t).2 where
  size_le := Nat.le_trans h.size_le (by simp [Workspace.push])
  original id s hs := by
    obtain ⟨r, hr, hsr⟩ := h.original id s hs
    exact ⟨r, get?_push_of_left hr t, hsr⟩
  fresh id r hid hr := by
    rcases get?_push_cases hr with hr | ⟨-, rfl⟩
    · exact h.fresh id r hid hr
    · exact ⟨hderived, path.normalize, hholds, FilePath.normalize_normalize path⟩
  oneHolder := h.oneHolder.push fun other hother => by
    have heq : other = path.normalize := Option.some.inj (hother.file.symm.trans hholds.file)
    exact fun id s hs => heq ▸ not_holds_of_holderOf?_eq_none hfree hs
  pair donor derived hp := by
    obtain ⟨hfiled, hle, hlt⟩ := h.pair donor derived hp
    exact ⟨hfiled, hle, Nat.lt_of_lt_of_le hlt (by simp [Workspace.push])⟩

/-- One more pair. -/
theorem pairWith {derived : SheetId} (hdonor : w.Filed donor) (hle : w.sheets.size ≤ derived)
    (hlt : derived < u.sheets.size) : Branched w (pairs ++ [(donor, derived)]) u where
  size_le := h.size_le
  original := h.original
  fresh := h.fresh
  oneHolder := h.oneHolder
  pair other id hp := by
    rcases List.mem_append.mp hp with hp | hp
    · exact h.pair other id hp
    · cases List.mem_singleton.mp hp
      exact ⟨hdonor, hle, hlt⟩

end Branched

/-- A split under way: what was made is derived. -/
structure Branching (w : Workspace) (state : SplitState) : Prop where
  branched : Branched w state.derivations.pairs state.workspace
  made : ∀ path derived, (path, derived) ∈ state.made →
    w.sheets.size ≤ derived ∧ derived < state.workspace.sheets.size

theorem Branching.splitSheet {state next : SplitState} (h : Branching w state)
    (hdonor : w.Filed donor) (hnext : splitSheet settings state donor = .ok next) :
    Branching w next := by
  obtain ⟨s, file, attempt, -, -, halone | ⟨derived, hshared⟩⟩ := splitSheet_cases hnext
  · obtain ⟨hfree, -, ⟨doc, t, hderived, hholds, hworkspace⟩, hderivations, hmade⟩ := halone
    have hsame : state.workspace.SameFiles { state.workspace with doc } := .of_sheets rfl
    have hnew := (h.branched.congr hsame).push hderived hholds hfree
    rw [← hworkspace] at hnew
    have hsize : next.workspace.sheets.size = state.workspace.sheets.size + 1 := by
      rw [hworkspace]
      exact Array.size_push ..
    refine ⟨?_, fun other id hm => ?_⟩
    · rw [hderivations]
      exact hnew.pairWith hdonor h.branched.size_le (hsize ▸ Nat.lt_succ_self _)
    · rw [hmade] at hm
      rw [hsize]
      rcases List.mem_cons.mp hm with heq | hm
      · obtain ⟨-, rfl⟩ := Prod.mk.inj heq
        exact ⟨h.branched.size_le, Nat.lt_succ_self _⟩
      · exact ⟨(h.made other id hm).1, Nat.lt_succ_of_lt (h.made other id hm).2⟩
  · obtain ⟨⟨other, hother, -⟩, ⟨doc, content, hworkspace⟩, hderivations, hmade⟩ := hshared
    have hsame : state.workspace.SameFiles next.workspace := by
      rw [hworkspace]
      have hdoc : state.workspace.SameFiles { state.workspace with doc } := .of_sheets rfl
      exact hdoc.trans (.modify _ derived fun s => ⟨rfl, rfl, rfl, rfl⟩)
    obtain ⟨hle, hlt⟩ := h.made other derived hother
    refine ⟨?_, fun other id hm => ?_⟩
    · rw [hderivations]
      exact (h.branched.congr hsame).pairWith hdonor hle (hsame.size ▸ hlt)
    · rw [hsame.size]
      exact h.made other id (hmade ▸ hm)

theorem sameFiles_addCompanion (u : Workspace) (d : Derivations) (donor derived : SheetId)
    (target : FilePath) (rule : NodeId) :
    u.SameFiles (addCompanion d donor derived target u rule) := by
  rcases addCompanion_cases u d donor derived target rule with heq | ⟨home, placed, heq, -⟩
  · rw [heq]
    exact .of_sheets rfl
  · rw [heq]
    have hdoc : u.SameFiles { u with doc := placed.2 } := .of_sheets rfl
    exact hdoc.trans (.modify _ derived fun s => ⟨rfl, rfl, rfl, rfl⟩)

theorem sameFiles_addCompanions {pair : SheetId × SheetId} (h : addCompanions d u pair = .ok v) :
    u.SameFiles v :=
  addCompanions_keeps (fun u' target rule hu =>
    hu.trans (sameFiles_addCompanion u' d pair.1 pair.2 target rule)) (.of_sheets rfl) h

/-- The donors of a split are those it runs over. -/
theorem keys_foldlM {donors : List SheetId} {state last : SplitState}
    (h : donors.foldlM (splitSheet settings) state = .ok last) :
    last.derivations.pairs.map Prod.fst = state.derivations.pairs.map Prod.fst ++ donors := by
  induction donors generalizing state with
  | nil =>
    cases h
    exact (List.append_nil _).symm
  | cons donor donors ih =>
    rw [List.foldlM_cons] at h
    cases hnext : splitSheet settings state donor with
    | error e => simp [bind, Except.bind, hnext] at h
    | ok next =>
      simp only [bind, Except.bind, hnext] at h
      refine (ih h).trans ?_
      obtain ⟨s, file, attempt, -, -, halone | ⟨derived, hshared⟩⟩ := splitSheet_cases hnext
      · simp [halone.derivations, Derivations.push]
      · simp [hshared.derivations, Derivations.push]

theorem branching_foldlM (hw : w.OneHolder) {state : SplitState}
    (h : (w.donors settings).foldlM (splitSheet settings) { workspace := w } = .ok state) :
    Branching w state :=
  foldlM_keeps
    (fun _ _ _ hmem hstate hnext => hstate.splitSheet (filed_of_mem_donors hmem) hnext)
    ⟨.refl hw, fun _ _ hm => absurd hm List.not_mem_nil⟩ h

theorem sameFiles_foldlM {pairs : List (SheetId × SheetId)}
    (h : pairs.foldlM (addCompanions d) v = .ok u) : v.SameFiles u :=
  foldlM_keeps (fun _ _ _ _ hv hnext => hv.trans (sameFiles_addCompanions hnext))
    (.of_sheets rfl) h

/-- **A split gives derived stylesheets files of their own, and takes none away.** -/
theorem branched_split (hw : w.OneHolder) (h : w.split settings = .ok (u, d)) :
    Branched w d.pairs u ∧ (d.pairs.map Prod.fst).Nodup := by
  obtain ⟨state, hstate, rfl, hu⟩ := split_eq_ok h
  refine ⟨(branching_foldlM hw hstate).branched.congr (sameFiles_foldlM hu), ?_⟩
  rw [keys_foldlM hstate]
  exact donors_nodup w settings

end Strata.Workspace
