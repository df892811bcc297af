import Strata.Migration
import Strata.Proofs.Analysis
import Strata.Proofs.Split.Success

/-! When a migration succeeds.

Imports are followed whatever they lead to, every workspace can be split, and a
cleanup is never refused. So with transforms that do not fail a migration fails
only where layers cannot be inherited, and that is a cycle of imports
(`migrate_ok_iff`). -/
namespace Strata

namespace Transform

/-- Does not fail. -/
def Total (t : Transform) : Prop :=
  ∀ context root doc, ∃ next, t.apply context root doc = .ok next

theorem total_of_standard : ∀ t ∈ standard, t.Total := by
  intro t ht context root doc
  cases List.mem_singleton.mp ht
  exact ⟨_, rfl⟩

theorem runAll_total {ts : List Transform} (hts : ∀ t ∈ ts, t.Total) (context : SheetFacts)
    (root : NodeId) (doc : Document) : (runAll ts context root doc).2 = none := by
  induction ts generalizing doc with
  | nil => rfl
  | cons t ts ih =>
    obtain ⟨next, hnext⟩ := hts t (List.mem_cons_self ..) context root doc
    rw [runAll, hnext]
    exact ih (fun t ht => hts t (List.mem_cons_of_mem _ ht)) next

end Transform

namespace Workspace

open Relation

variable {w v : Workspace} {settings : Settings} {ts : List Transform} {resolve : Resolution}
  {base : FilePath}

/-! ### The passes before a split -/

theorem transformAll_total (hts : ∀ t ∈ ts, t.Total) {ids : List SheetId}
    (hids : ∀ id ∈ ids, id < w.sheets.size) : (w.transformAll settings ts ids).2 = none := by
  induction ids generalizing w with
  | nil => rfl
  | cons id ids ih =>
    obtain ⟨s, hs⟩ := get?_isSome.mpr (hids id (List.mem_cons_self ..))
    have hrun : (w.runTransforms settings ts id).2 = none ∧
        (w.runTransforms settings ts id).1.sheets = w.sheets := by
      unfold runTransforms
      rw [hs]
      exact ⟨Transform.runAll_total hts _ s.root w.doc, rfl⟩
    unfold transformAll
    rcases hres : w.runTransforms settings ts id with ⟨next, error⟩
    rw [hres] at hrun
    obtain ⟨rfl, hsheets⟩ := hrun
    refine ih fun x hx => ?_
    rw [hsheets]
    exact hids x (List.mem_cons_of_mem _ hx)

/-! ### The whole migration -/

/-- An import of `x` leads to `y`. -/
def LeadsTo (w : Workspace) (resolve : Resolution) (base : FilePath) (x y : SheetId) : Prop :=
  ∃ rule layers, w.Edge resolve base x y rule layers

theorem migrate_eq_inheritLayers (hts : ∀ t ∈ ts, t.Total) :
    (∃ report, (w.migrate settings ts resolve base).2 = .ok report) ↔
      ∃ table v, (w.connect resolve base).1.inheritLayers = .ok (table, v) := by
  unfold migrate
  rcases w.connect resolve base with ⟨u, counts⟩
  simp only
  cases hl : u.inheritLayers with
  | error e => simp
  | ok inherited =>
    obtain ⟨table, v⟩ := inherited
    refine iff_of_true ?_ ⟨table, v, rfl⟩
    have hnone : (v.transformAll settings ts v.ids).2 = none :=
      transformAll_total hts fun id hid => List.mem_range.mp hid
    rcases hrun : v.transformAll settings ts v.ids with ⟨next, error⟩
    rw [hrun] at hnone
    cases hnone
    obtain ⟨last, d, hsplit⟩ := exists_parting next settings
    simp only [hrun, hsplit]
    exact ⟨_, rfl⟩

/-- What is planned is planned for the workspace that is left. -/
theorem plan_of_migrate {report : Report}
    (h : w.migrate settings ts resolve base = (v, .ok report)) : report.plan = v.plan := by
  unfold migrate at h
  rcases w.connect resolve base with ⟨u, counts⟩
  simp only at h
  split at h
  · cases h
  · split at h
    · cases h
    · split at h
      · cases h
      · cases h
        rfl

/-- **A migration fails only at a cycle of imports.** -/
theorem migrate_ok_iff (hw : w.Fresh) (hts : ∀ t ∈ ts, t.Total) :
    (∃ report, (w.migrate settings ts resolve base).2 = .ok report) ↔
      ∀ id, ¬ TransGen (w.LeadsTo resolve base) id id := by
  have hu := linked_connect hw resolve base
  have hparent : (w.connect resolve base).1.ParentOf = Function.swap (w.LeadsTo resolve base) := by
    funext y x
    exact propext (parentOf_iff_edge hu x y)
  rw [migrate_eq_inheritLayers hts, inheritLayers_ok_iff (closed_linked hu)]
  refine forall_congr' fun id => not_congr ?_
  rw [Above, hparent]
  exact transGen_swap

/-! ### Plans -/

/-- Every stylesheet that holds a path prints as what was loaded from there, and none that was loaded
is to be deleted. -/
def AsLoaded (w : Workspace) : Prop :=
  ∀ id s path, w.get? id = some s → s.file = some path → s.holdsFile = true →
    if s.discarded then s.derived = true
    else (if s.derived then w.printLoadedFrom? id path else some s.loadedPrint) = some (w.css id)

theorem change?_eq_none {id : SheetId} {s : Sheet} {path : FilePath} (hs : w.get? id = some s)
    (hfile : s.file = some path) (hholds : s.holdsFile = true) : w.change? id = none ↔
      if s.discarded then s.derived = true
      else (if s.derived then w.printLoadedFrom? id path else some s.loadedPrint) = some (w.css id) := by
  have hheld : w.holdsFile id = true := by simp [holdsFile, hs, hfile, hholds]
  unfold change?
  simp only [hs, hfile, Option.bind_eq_bind, Option.bind_some, hheld, Bool.not_true,
    Bool.false_eq_true, if_false]
  cases s.discarded with
  | true => cases s.derived <;> simp
  | false =>
    simp only [Bool.false_eq_true, if_false]
    exact ite_eq_left_iff.trans (by simp)

/-- **Nothing is planned exactly when all is as it was loaded.** -/
theorem plan_eq_nil_iff : w.plan = [] ↔ w.AsLoaded := by
  unfold plan
  rw [List.filterMap_eq_nil_iff]
  constructor
  · intro hnone id s path hs hfile hholds
    exact (change?_eq_none hs hfile hholds).mp (hnone id (List.mem_range.mpr (lt_size hs)))
  · intro h id hid
    obtain ⟨s, hs⟩ := get?_isSome.mpr (List.mem_range.mp hid)
    cases hfile : s.file with
    | none => simp [change?, hs, hfile]
    | some path =>
      cases hholds : s.holdsFile with
      | true => exact (change?_eq_none hs hfile hholds).mpr (h id s path hs hfile hholds)
      | false => simp [change?, hs, hfile, holdsFile, hholds]

end Workspace

end Strata
