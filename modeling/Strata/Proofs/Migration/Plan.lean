import Strata.Proofs.Migration.Files
import Strata.Proofs.Migration.Success
import Strata.Proofs.Transform

/-! What a plan leads to.

A plan is the difference between the files that were loaded and the stylesheets that are left: once
it is carried out, the files are those of the stylesheets that are kept, and each holds what its
stylesheet prints, or was not touched because it prints as what was read from it (`Accounts`). The
plan compares a kept stylesheet with the one that was loaded from its path, which need not be the
same one, and deletes a path only when its holder is to go. -/
namespace Strata.Workspace

variable {w z : Workspace} {files : FileSet} {settings : Settings} {ts : List Transform}
  {resolve : Resolution} {base : FilePath} {id : SheetId} {s : Sheet} {path : FilePath}
  {c : FileChange}

/-! ### Single changes -/

/-- A change is for a path that its stylesheet holds. -/
theorem change?_cases (h : z.change? id = some c) : ∃ s, z.get? id = some s ∧ s.Holds c.path ∧
    (s.discarded = true ∧ s.derived = false ∧ c = .delete c.path ∨
      s.discarded = false ∧ c = .write c.path (z.css id ++ "\n")) := by
  unfold change? at h
  cases hs : z.get? id with
  | none => simp [hs] at h
  | some s =>
    cases hf : s.file with
    | none => simp [hs, hf] at h
    | some path =>
      simp only [hs, hf, holdsFile, Option.bind_eq_bind, Option.bind_some, Option.any_some,
        Option.isSome_some, Bool.true_and] at h
      cases hh : s.holdsFile with
      | false => simp [hh] at h
      | true =>
        simp only [hh, Bool.not_true, Bool.false_eq_true, if_false] at h
        split at h
        · next hd =>
          split at h
          · cases h
          · next hderived =>
            cases h
            exact ⟨s, rfl, ⟨hf, hh⟩, Or.inl ⟨hd, Bool.eq_false_iff.mpr hderived, rfl⟩⟩
        · next hd =>
          obtain ⟨-, hc⟩ := Option.ite_none_left_eq_some.mp h
          cases hc
          exact ⟨s, rfl, ⟨hf, hh⟩, Or.inr ⟨Bool.eq_false_iff.mpr hd, rfl⟩⟩

theorem mem_plan : c ∈ z.plan ↔ ∃ id, z.change? id = some c := by
  unfold plan
  rw [List.mem_filterMap]
  refine ⟨fun ⟨id, _, h⟩ => ⟨id, h⟩, fun ⟨id, h⟩ => ⟨id, ?_, h⟩⟩
  obtain ⟨s, hs, -⟩ := change?_cases h
  exact List.mem_range.mpr (lt_size hs)

theorem printLoadedFrom?_eq_some {css : String} (h : z.printLoadedFrom? id path = some css) :
    ∃ other s, z.get? other = some s ∧ s.derived = false ∧ s.file = some path ∧
      s.loadedPrint = css := by
  obtain ⟨other, -, hother⟩ := List.exists_of_findSome?_eq_some h
  obtain ⟨s, hs, rfl⟩ := Option.map_eq_some_iff.mp hother
  obtain ⟨hget, hcond⟩ := Option.filter_eq_some_iff.mp hs
  rw [Bool.and_eq_true, Bool.not_eq_true', beq_iff_eq] at hcond
  exact ⟨other, s, hget, hcond.1, hcond.2, rfl⟩

/-! ### Plans -/

/-- The file is as it was, and the stylesheet prints as what was read from it. -/
structure Untouched (plan : List FileChange) (files : FileSet) (path : FilePath) (css : String) :
    Prop where
  unplanned : ∀ c ∈ plan, c.path.same path = false
  read : ∃ text trees, files.get? path = some text ∧
    (plan.foldl Project.applyChange files).get? path = some text ∧
    Css.parse text = .ok trees ∧ css = Css.print trees

/-- The plan leads from the files to the stylesheets that are kept. -/
structure Accounts (z : Workspace) (plan : List FileChange) (files : FileSet) : Prop where
  apart : FileChange.Apart plan
  paths : ∀ path, path ∈ (plan.foldl Project.applyChange files).paths ↔
    ∃ id s, z.get? id = some s ∧ s.discarded = false ∧ s.file = some path
  holder : ∀ id s path, z.get? id = some s → s.discarded = false → s.file = some path →
    z.holdsFile id = true ∧ z.holderOf? path = some id
  distinct : ∀ i j s t path, z.get? i = some s → z.get? j = some t → s.discarded = false →
    t.discarded = false → s.file = some path → t.file = some path → i = j
  contents : ∀ id s path, z.get? id = some s → s.discarded = false → s.file = some path →
    (plan.foldl Project.applyChange files).get? path = some (z.css id ++ "\n") ∨
      Untouched plan files path (z.css id)

/-- The paths of a workspace behind a migration are normal. -/
theorem HandedOver.normal {pairs : List (SheetId × SheetId)} {promoted : List SheetId}
    (h : HandedOver w pairs promoted z) (hw : Loaded files w) (hs : z.get? id = some s)
    (hfile : s.file = some path) : path.normalize = path := by
  by_cases hid : id < w.sheets.size
  · obtain ⟨r, hr⟩ := get?_isSome.mpr hid
    obtain ⟨t, ht, hsame, -⟩ := h.original id r hr
    rw [hs] at ht
    cases ht
    exact (hw.read id r path hr (hsame.symm.trans hfile)).normal
  · obtain ⟨-, other, hholds, hnormal⟩ := h.derived id s (Nat.le_of_not_lt hid) hs
    cases hholds.file.symm.trans hfile
    exact hnormal

section accounts

variable {pairs : List (SheetId × SheetId)} {promoted : List SheetId}
  (h : HandedOver w pairs promoted z) (hw : Loaded files w)
include h hw

/-- A stylesheet that was not derived is one of those that were loaded. -/
theorem HandedOver.read (hs : z.get? id = some s) (hderived : s.derived = false)
    (hfile : s.file = some path) : ∃ text trees, files.get? path = some text ∧
      Css.parse text = .ok trees ∧ s.loadedPrint = Css.print trees := by
  by_cases hid : id < w.sheets.size
  · obtain ⟨r, hr⟩ := get?_isSome.mpr hid
    obtain ⟨t, ht, hsame, -, hprint⟩ := h.original id r hr
    rw [hs] at ht
    cases ht
    rw [hprint]
    exact (hw.read id r path hr (hsame.symm.trans hfile)).print
  · rw [(h.derived id s (Nat.le_of_not_lt hid) hs).1] at hderived
    cases hderived

/-- A change for the path of a stylesheet is the change of that stylesheet. -/
theorem HandedOver.change?_of_same (hs : z.get? id = some s) (hholds : s.Holds path)
    (hc : c ∈ z.plan) (hsame : c.path.same path = true) : c.path = path ∧ z.change? id = some c := by
  obtain ⟨other, hchange⟩ := mem_plan.mp hc
  obtain ⟨t, ht, htholds, -⟩ := change?_cases hchange
  have heq : c.path = path := (FilePath.same_iff_eq (h.normal hw ht htholds.file)
    (h.normal hw hs hholds.file)).mp hsame
  rw [h.oneHolder id other s t path hs ht hholds (heq ▸ htholds)]
  exact ⟨heq, hchange⟩

theorem HandedOver.apart : FileChange.Apart z.plan := by
  unfold plan
  refine List.Pairwise.filterMap _ (fun i j hij c hc d hd => ?_) List.nodup_range
  obtain ⟨s, hs, hsp, -⟩ := change?_cases hc
  obtain ⟨t, ht, htp, -⟩ := change?_cases hd
  by_contra hsame
  rw [Bool.not_eq_false, FilePath.same_iff_eq (h.normal hw hs hsp.file) (h.normal hw ht htp.file)]
    at hsame
  exact hij (h.oneHolder i j s t d.path hs ht (hsame ▸ hsp) htp)

theorem HandedOver.contents (hs : z.get? id = some s) (hlive : s.discarded = false)
    (hfile : s.file = some path) :
    (z.plan.foldl Project.applyChange files).get? path = some (z.css id ++ "\n") ∨
      Untouched z.plan files path (z.css id) := by
  have hholds := h.kept id s path hs hlive hfile
  cases hchange : z.change? id with
  | some c =>
    obtain ⟨t, ht, htholds, hcase⟩ := change?_cases hchange
    rw [hs] at ht
    cases ht
    have hpath : c.path = path := Option.some.inj (htholds.file.symm.trans hfile)
    have hwrite : c = .write path (z.css id ++ "\n") := by
      rcases hcase with ⟨hd, -, -⟩ | ⟨-, hc⟩
      · rw [hlive] at hd
        cases hd
      · rwa [hpath] at hc
    have hget : (z.plan.foldl Project.applyChange files).get? c.path = c.contents? :=
      Project.get?_apply_of_mem (h.apart hw) (mem_plan.mpr ⟨id, hchange⟩)
    rw [hwrite] at hget
    exact Or.inl hget
  | none =>
    have hunplanned : ∀ c ∈ z.plan, c.path.same path = false := by
      intro c hc
      by_contra hsame
      rw [Bool.not_eq_false] at hsame
      obtain ⟨-, hsome⟩ := h.change?_of_same hw hs hholds hc hsame
      rw [hchange] at hsome
      cases hsome
    have hloaded := (change?_eq_none hs hfile hholds.held).mp hchange
    rw [hlive] at hloaded
    obtain ⟨text, trees, hget, hparse, hprint⟩ : ∃ text trees, files.get? path = some text ∧
        Css.parse text = .ok trees ∧ z.css id = Css.print trees := by
      cases hderived : s.derived with
      | true =>
        rw [hderived] at hloaded
        obtain ⟨other, t, ht, horiginal, hpath, hcss⟩ := printLoadedFrom?_eq_some hloaded
        rw [← hcss]
        exact h.read hw ht horiginal hpath
      | false =>
        rw [hderived] at hloaded
        rw [← Option.some.inj hloaded]
        exact h.read hw hs hderived hfile
    refine Or.inr ⟨hunplanned, text, trees, hget, ?_, hparse, hprint⟩
    rw [Project.get?_apply_of_forall_not_same hunplanned, hget]

theorem HandedOver.mem_paths : path ∈ (z.plan.foldl Project.applyChange files).paths ↔
    ∃ id s, z.get? id = some s ∧ s.discarded = false ∧ s.file = some path := by
  have hnormal : (z.plan.foldl Project.applyChange files).Normal := by
    refine Project.normal_apply hw.normal fun c hc => ?_
    obtain ⟨id, hchange⟩ := mem_plan.mp hc
    obtain ⟨s, hs, hholds, -⟩ := change?_cases hchange
    exact h.normal hw hs hholds.file
  rw [hnormal.mem_paths]
  constructor
  · intro hboth
    obtain ⟨hpath, contents, hget⟩ := hboth
    by_cases hplanned : ∃ c ∈ z.plan, c.path.same path = true
    · -- What is found was written, for a stylesheet that is kept.
      obtain ⟨c, hc, hsame⟩ := hplanned
      obtain ⟨id, hchange⟩ := mem_plan.mp hc
      obtain ⟨s, hs, hholds, hcase⟩ := change?_cases hchange
      have heq := (FilePath.same_iff_eq (h.normal hw hs hholds.file) hpath).mp hsame
      rw [← heq, Project.get?_apply_of_mem (h.apart hw) hc] at hget
      rcases hcase with ⟨-, -, hdelete⟩ | ⟨hlive, -⟩
      · rw [hdelete] at hget
        cases hget
      · exact ⟨id, s, hs, hlive, heq ▸ hholds.file⟩
    · have hunplanned : ∀ c ∈ z.plan, c.path.same path = false := fun c hc => by
        by_contra hsame
        exact hplanned ⟨c, hc, Bool.not_eq_false _ ▸ hsame⟩
      rw [Project.get?_apply_of_forall_not_same hunplanned] at hget
      obtain ⟨id, r, hr, hfile⟩ := hw.all path (hw.normal.mem_paths.mpr ⟨hpath, contents, hget⟩)
      obtain ⟨s, hs, hsame, hderived, -⟩ := h.original id r hr
      have hsfile : s.file = some path := hsame.trans hfile
      cases hlive : s.discarded with
      | false => exact ⟨id, s, hs, hlive, hsfile⟩
      | true =>
        -- A discarded stylesheet that held its path would be deleted.
        by_cases hholds : s.Holds path
        · have hchange : z.change? id ≠ none := by
            rw [Ne, change?_eq_none hs hsfile hholds.held, hlive, if_pos rfl, hderived,
              hw.original id r hr]
            exact Bool.false_ne_true
          obtain ⟨c, hc⟩ := Option.ne_none_iff_exists'.mp hchange
          obtain ⟨t, ht, htholds, -⟩ := change?_cases hc
          rw [hs] at ht
          cases ht
          have hpath : c.path = path := Option.some.inj (htholds.file.symm.trans hsfile)
          have hno := hunplanned c (mem_plan.mpr ⟨id, hc⟩)
          rw [hpath, FilePath.same_refl] at hno
          cases hno
        · obtain ⟨other, t, ht, hkept, htholds⟩ := h.vacated id s path hs hsfile hholds
          exact ⟨other, t, ht, hkept, htholds.file⟩
  · intro hex
    obtain ⟨id, s, hs, hlive, hfile⟩ := hex
    refine ⟨h.normal hw hs hfile, ?_⟩
    rcases h.contents hw hs hlive hfile with hget | ⟨-, text, trees, -, hget, -⟩
    · exact ⟨_, hget⟩
    · exact ⟨text, hget⟩

theorem HandedOver.accounts : z.Accounts z.plan files where
  apart := h.apart hw
  paths _ := h.mem_paths hw
  holder id s path hs hlive hfile := by
    have hholds := h.kept id s path hs hlive hfile
    exact ⟨by simp [holdsFile, hs, hfile, hholds.held],
      h.oneHolder.holderOf? hs hholds (h.normal hw hs hfile)⟩
  distinct i j s t path hs ht hslive htlive hsfile htfile :=
    h.oneHolder i j s t path hs ht (h.kept i s path hs hslive hsfile)
      (h.kept j t path ht htlive htfile)
  contents _ _ _ hs hlive hfile := h.contents hw hs hlive hfile

end accounts

/-! ### Migrations -/

/-- A migration that succeeds goes through all passes. -/
theorem migrate_passes {report : Report}
    (h : w.migrate settings ts resolve base = (z, .ok report)) : ∃ table v g u d,
      (w.connect resolve base).1.inheritLayers = .ok (table, v) ∧
      (v.transformAll settings ts v.ids).1 = { v with doc := g } ∧
      { v with doc := g }.split settings = .ok (u, d) ∧ z = (u.cleanUp d).1 := by
  unfold migrate at h
  simp only at h
  split at h
  · cases h
  · next table v hinherit =>
    have hsheets : (v.transformAll settings ts v.ids).1.sheets = v.sheets :=
      sheets_transformAll v.ids v
    split at h
    · cases h
    · next next hrun =>
      rw [hrun] at hsheets
      split at h
      · cases h
      · next u d hsplit =>
        cases h
        rcases next with ⟨doc, sheets⟩
        cases hsheets
        exact ⟨table, v, doc, u, d, hinherit, by rw [hrun], hsplit, rfl⟩

/-- A migration that succeeds splits a workspace with the same files and cleans it up. -/
theorem migrate_cases {report : Report} (hw : w.Fresh)
    (h : w.migrate settings ts resolve base = (z, .ok report)) :
    ∃ v u d, w.SameFiles v ∧ v.split settings = .ok (u, d) ∧ z = (u.cleanUp d).1 := by
  obtain ⟨table, v, g, u, d, hinherit, -, hsplit, hz⟩ := migrate_passes h
  have hsame := (linked_connect hw resolve base).same.trans (sameButLinks_inheritLayers hinherit)
  exact ⟨{ v with doc := g }, u, d, (SameFiles.of_sameButLinks hsame).trans (.of_sheets rfl), hsplit,
    hz⟩

theorem accounts_of_loaded {report : Report} (hfresh : w.Fresh) (hw : Loaded files w)
    (h : w.migrate settings ts resolve base = (z, .ok report)) : z.Accounts report.plan files := by
  obtain ⟨v, u, d, hsame, hsplit, rfl⟩ := migrate_cases hfresh h
  have hv := hw.congr hsame
  obtain ⟨hbranched, hnodup⟩ := branched_split hv.oneHolder hsplit
  obtain ⟨promoted, hover⟩ := handedOver_cleanUp hv hbranched hnodup
  rw [plan_of_migrate h]
  exact hover.accounts hv

/-- **A plan is the difference between the files that were loaded and the stylesheets that are
kept**, whatever the transforms do. -/
theorem accounts_of_migrate {sources : List (Option FilePath × String)} {report : Report}
    (hw : loadAll sources = .ok w)
    (h : w.migrate settings ts resolve base = (z, .ok report)) :
    z.Accounts report.plan (filesOf sources) :=
  accounts_of_loaded (loaded_loadAll hw).1 (loaded_loadAll hw).2 h

/-- The texts are all accepted, their migration succeeds, and `check` holds of what is planned. -/
def plansWith (sources : List (Option FilePath × String)) (settings : Settings)
    (ts : List Transform) (resolve : Resolution) (base : FilePath)
    (check : List FileChange → Bool) : Bool :=
  match loadAll sources with
  | .error _ => false
  | .ok w =>
    match w.migrate settings ts resolve base with
    | (_, .error _) => false
    | (_, .ok report) => check report.plan

theorem exists_of_plansWith {sources : List (Option FilePath × String)}
    {check : List FileChange → Bool}
    (h : plansWith sources settings ts resolve base check = true) :
    ∃ w z report, loadAll sources = .ok w ∧
      w.migrate settings ts resolve base = (z, .ok report) ∧ check report.plan = true := by
  unfold plansWith at h
  split at h
  · cases h
  · next w hw =>
    split at h
    · cases h
    · next z report hm => exact ⟨w, z, report, hw, hm, h⟩

/-- An entry, a text without a file, a stylesheet of utilities only and one that has more. -/
def entryAndTwo : List (Option FilePath × String) :=
  [(some ⟨"/p/index.css"⟩, "@import './a.css' layer(utilities);\n@import './b.css' layer(utilities);"),
    (none, "h1 { color: red }"), (some ⟨"/p/a.css"⟩, "@utility a { color: red }"),
    (some ⟨"/p/b.css"⟩, "h2 { color: red }\n@utility b { color: red }")]

/-- The stylesheet of utilities only hands its path over, so nothing is planned for that. -/
theorem accounts_of_two_donors : ∃ w z report, loadAll entryAndTwo = .ok w ∧
    w.migrate {} Transform.standard (.known (entryAndTwo.filterMap Prod.fst)) ⟨"/p"⟩ =
      (z, .ok report) ∧
    report.plan.map FileChange.path = [⟨"/p/index.css"⟩, ⟨"/p/b.css"⟩, ⟨"/p/b.utilities.css"⟩] ∧
    z.Accounts report.plan (filesOf entryAndTwo) := by
  have hrun : plansWith entryAndTwo {} Transform.standard (.known (entryAndTwo.filterMap Prod.fst))
      ⟨"/p"⟩ (fun plan => plan.map FileChange.path ==
        [⟨"/p/index.css"⟩, ⟨"/p/b.css"⟩, ⟨"/p/b.utilities.css"⟩]) = true := by
    decide +kernel
  obtain ⟨w, z, report, hw, hm, hcheck⟩ := exists_of_plansWith hrun
  exact ⟨w, z, report, hw, hm, beq_iff_eq.mp hcheck, accounts_of_migrate hw hm⟩

end Strata.Workspace
