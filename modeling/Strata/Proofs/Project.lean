import Strata.Project
import Strata.Proofs.Migration.Success

/-! Projects that are migrated again.

The files of a migrated project are read and followed anew, so a second migration
succeeds exactly when they can be read and their imports are without cycles, and it
plans nothing exactly when everything then is as it was read (`settled_iff`). A
migration that plans nothing is settled, for it left the project as it was. -/
namespace Strata.Project

open Relation

variable {p : Project} {m : Outcome} {w : Workspace}

/-! ### Migrations -/

theorem fresh_workspace (h : p.workspace = .ok w) : w.Fresh := by
  refine foldlM_keeps (fun u file next _ hu hstep => ?_) Workspace.fresh_empty h
  have hload := hu.load (some file.1) file.2
  rcases hres : u.load (some file.1) file.2 with ⟨id | e, v⟩
  · simp only [hres] at hstep
    cases hstep
  · simp only [hres] at hstep hload
    cases hstep
    exact hload

/-- The imports of the files lead along no cycle. -/
def Acyclic (p : Project) (w : Workspace) : Prop :=
  ∀ id, ¬ TransGen (w.LeadsTo (.known p.files.paths) p.root) id id

theorem migrate_cases (h : p.migrate = .ok m) : ∃ w, p.workspace = .ok w ∧
    w.migrate p.settings p.transforms (.known p.files.paths) p.root = (m.workspace, .ok m.report) ∧
    m.project = p.apply m.report.plan := by
  unfold migrate at h
  cases hw : p.workspace with
  | error e => rw [hw] at h; cases h
  | ok w =>
    rcases hrun : w.migrate p.settings p.transforms (.known p.files.paths) p.root with ⟨v, result⟩
    cases result with
    | error e => simp only [hw, hrun, bind, Except.bind] at h; cases h
    | ok report =>
      simp only [hw, hrun, bind, Except.bind] at h
      cases h
      exact ⟨w, rfl, hrun, rfl⟩

/-- **A project can be migrated exactly when its files can be read and import one another without
cycles.** -/
theorem migrate_ok_iff (hts : ∀ t ∈ p.transforms, t.Total) :
    (∃ m, p.migrate = .ok m) ↔ ∃ w, p.workspace = .ok w ∧ p.Acyclic w := by
  constructor
  · intro hex
    obtain ⟨m, hm⟩ := hex
    obtain ⟨w, hw, hrun, -⟩ := migrate_cases hm
    exact ⟨w, hw, (Workspace.migrate_ok_iff (fresh_workspace hw) hts).mp ⟨m.report, by rw [hrun]⟩⟩
  · intro hex
    obtain ⟨w, hw, hacyclic⟩ := hex
    obtain ⟨report, hreport⟩ :=
      (Workspace.migrate_ok_iff (fresh_workspace hw) hts).mpr hacyclic
    rcases hrun : w.migrate p.settings p.transforms (.known p.files.paths) p.root with ⟨v, result⟩
    rw [hrun] at hreport
    cases hreport
    refine ⟨⟨report, v, p.apply report.plan⟩, ?_⟩
    simp only [migrate, hw, hrun, bind, Except.bind]
    rfl

/-- A report has the plan of the workspace that is left. -/
theorem plan_eq (h : p.migrate = .ok m) : m.report.plan = m.workspace.plan := by
  obtain ⟨w, -, hrun, -⟩ := migrate_cases h
  exact Workspace.plan_of_migrate hrun

/-! ### Second migrations -/

/-- A second migration succeeds and plans nothing. -/
def Outcome.Settled (m : Outcome) : Prop := ∃ again, m.again = .ok again ∧ again.report.plan = []

/-- **A migration that plans nothing is settled.** -/
theorem settled_of_plan_nil (h : p.migrate = .ok m) (hnil : m.report.plan = []) : m.Settled := by
  obtain ⟨-, -, -, hproject⟩ := migrate_cases h
  rw [hnil] at hproject
  have hsame : m.project = p := hproject
  refine ⟨m, ?_, hnil⟩
  rw [Outcome.again, hsame]
  exact h

/-- **A migration is settled exactly when what it leaves can be read and followed without cycles, and
is then as it was read.** -/
theorem settled_iff (m : Outcome) (hts : ∀ t ∈ m.project.transforms, t.Total) :
    m.Settled ↔ (∃ w, m.project.workspace = .ok w ∧ m.project.Acyclic w) ∧
      ∀ again, m.again = .ok again → again.workspace.AsLoaded := by
  rw [← migrate_ok_iff hts]
  constructor
  · intro hex
    obtain ⟨again, hagain, hnil⟩ := hex
    refine ⟨⟨again, hagain⟩, fun other hother => ?_⟩
    rw [hagain] at hother
    cases hother
    rw [← Workspace.plan_eq_nil_iff, ← plan_eq hagain]
    exact hnil
  · intro hboth
    obtain ⟨⟨again, hagain⟩, hloaded⟩ := hboth
    refine ⟨again, hagain, ?_⟩
    rw [plan_eq hagain, Workspace.plan_eq_nil_iff]
    exact hloaded again hagain

/-- A project with some files in `/p`. -/
def holding (files : List (String × String)) : Project :=
  files.foldl (fun p (inner, contents) => p.add ⟨inner⟩ contents) { root := ⟨"/p"⟩ }

/-- The migration succeeds, and `check` holds of what comes of it. -/
def migratesWith (p : Project) (check : Outcome → Bool) : Bool :=
  match p.migrate with
  | .ok m => check m
  | .error _ => false

theorem exists_of_migratesWith {check : Outcome → Bool} (h : p.migratesWith check = true) :
    ∃ m, p.migrate = .ok m ∧ check m = true := by
  unfold migratesWith at h
  split at h
  · next m hm => exact ⟨m, hm, h⟩
  · cases h

/-- Two donors on both ends of a chain share a derived stylesheet, and the one between leads from it
to it. -/
theorem not_always_settled : ¬ ∀ (p : Project) (m : Outcome), p.root.isAbsolute = true →
    p.settings = {} → p.transforms = [] ∨ p.transforms = Transform.standard →
    p.migrate = .ok m → m.Settled := by
  intro hall
  have hrun : (holding [("root.css", "@import './lib' layer(utilities);"),
      ("lib/index.css", "@import '../y.css';\n@utility x { a: b }"),
      ("y.css", "@import './lib/lib.css';\n@utility y { a: b }"),
      ("lib/lib.css", "@utility z { a: b }")]).migratesWith (fun m => !m.again.isOk) = true := by
    decide +kernel
  obtain ⟨m, hm, hcheck⟩ := exists_of_migratesWith hrun
  obtain ⟨again, hagain, -⟩ := hall _ m (by decide) rfl (Or.inr rfl) hm
  rw [hagain] at hcheck
  cases hcheck

end Strata.Project
