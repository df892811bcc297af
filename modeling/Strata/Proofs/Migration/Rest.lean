import Strata.Proofs.Migration.Success
import Strata.Proofs.Split.Decision
import Strata.Proofs.Workspace.Arrangement

/-! Migrations that find nothing to do.

A workspace is `AtRest` when the transforms leave its trees as they are, every stylesheet that could
be split may stay whole, and none has been emptied. Then no pass changes anything, and where the
stylesheets were read from files nothing is planned
(`exists_plan_nil_of_atRest`). -/
namespace Strata.Workspace

variable {w v : Workspace} {settings : Settings} {ts : List Transform} {resolve : Resolution}
  {base : FilePath}

structure AtRest (w : Workspace) (settings : Settings) (ts : List Transform) : Prop where
  transformed : ∀ id s, w.get? id = some s → ∀ t ∈ ts,
    t.apply { file := s.file, layers := s.layers, settings } s.root w.doc = .ok w.doc
  whole : ∀ id, w.CanSplit settings id → w.IsSelfContained settings id
  filled : ∀ id, w.isEmptied id = false

namespace AtRest

variable (h : w.AtRest settings ts)
include h

theorem runTransforms {id : SheetId} (hid : id < w.sheets.size) :
    w.runTransforms settings ts id = (w, none) := by
  obtain ⟨s, hs⟩ := get?_isSome.mpr hid
  have hall := h.transformed id s hs
  have hrun : ∀ some : List Transform, some ⊆ ts →
      Transform.runAll some { file := s.file, layers := s.layers, settings } s.root w.doc =
        (w.doc, none) := by
    intro some
    induction some with
    | nil => exact fun _ => rfl
    | cons t some ih =>
      intro hsome
      obtain ⟨ht, hsome⟩ := List.cons_subset.mp hsome
      unfold Transform.runAll
      rw [hall t ht]
      exact ih hsome
  unfold Workspace.runTransforms
  simp only [hs, hrun ts (List.Subset.refl ts)]

theorem transformAll {ids : List SheetId} (hids : ∀ id ∈ ids, id < w.sheets.size) :
    w.transformAll settings ts ids = (w, none) := by
  induction ids with
  | nil => rfl
  | cons id ids ih =>
    obtain ⟨hid, hids⟩ := List.forall_mem_cons.mp hids
    unfold Workspace.transformAll
    rw [h.runTransforms hid]
    exact ih hids

/-- One that is split would be imported by one that is split, and so on without an end. -/
theorem not_splits (id : SheetId) : ¬ w.Splits settings id := by
  intro hs
  induction hs with
  | mixed hcan hself => exact hself (h.whole _ hcan)
  | handed _ _ _ ih => exact ih

theorem split (hw : w.Analysed) : w.split settings = .ok (w, {}) := by
  have hnone : w.donors settings = [] := by
    refine List.eq_nil_iff_forall_not_mem.mpr fun id hid => ?_
    exact h.not_splits id ((mem_donors hw id).mp hid)
  unfold Workspace.split
  rw [hnone]
  rfl

theorem cleanUp : (w.cleanUp {}).1 = w := by
  have hnone : w.ids.filter w.isEmptied = [] :=
    List.filter_eq_nil_iff.mpr fun id _ => by rw [h.filled id]; exact Bool.false_ne_true
  show (discardEmptied (w.sheets.size + 1) w {}).1 = w
  unfold discardEmptied
  simp only [hnone]

end AtRest

/-- What was read from files prints as it was read. -/
theorem Reads.asLoaded {sources : List (FilePath × String)} (h : Reads sources w)
    (hv : SameButLinks w v) : v.AsLoaded := by
  intro id t path ht _ _
  obtain ⟨s, hs, hst⟩ := hv.sheet id t ht
  obtain ⟨source, -, hread⟩ := h.exists_source hs
  have hsheet := h.fresh.sheet id s hs
  have hprint : v.css id = Css.print (Css.read source.2).1 := by
    have hroot : t.root = s.root := hst.root
    simp only [css, ht, hv.doc, hroot, Document.css, hread.root,
      h.fresh.tidy.wellFormed.grove_eq hread.bears]
    rfl
  have hloaded : t.loadedPrint = s.loadedPrint := by rw [hst]
  rw [hst.discarded, hst.derived, hsheet.discarded, hsheet.derived, hprint, hloaded,
    hread.loadedPrint]
  rfl

/-- **A migration of what is at rest plans nothing.** -/
theorem exists_plan_nil_of_atRest {sources : List (FilePath × String)} (h : Reads sources w)
    {table : List (List SheetId)}
    (hl : (w.connect resolve base).1.inheritLayers = .ok (table, v)) (hv : v.AtRest settings ts) :
    ∃ report, w.migrate settings ts resolve base = (v, .ok report) ∧ report.plan = [] := by
  have htransformed : v.transformAll settings ts v.ids = (v, none) :=
    hv.transformAll fun id hid => List.mem_range.mp hid
  have hrun : ∃ report, w.migrate settings ts resolve base = (v, .ok report) := by
    unfold migrate
    simp only [hl, htransformed, hv.split (analysed h.fresh hl), hv.cleanUp]
    exact ⟨_, rfl⟩
  obtain ⟨report, hreport⟩ := hrun
  refine ⟨report, hreport, ?_⟩
  rw [plan_of_migrate hreport, plan_eq_nil_iff]
  exact h.asLoaded ((linked_connect h.fresh resolve base).same.trans (sameButLinks_inheritLayers hl))

end Strata.Workspace
