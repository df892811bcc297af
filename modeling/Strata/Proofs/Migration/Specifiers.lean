import Strata.Proofs.Migration.Addresses
import Strata.Proofs.Migration.Plan
import Strata.Proofs.Project

/-! Imports behind the migration of a project.

The files of a project are loaded one by one, so its stylesheets are read from them (`Loaded`), and
where one imports another they are all in directories. From there every import leads to its
stylesheet through all passes, and the files that are left follow those that were there
(`Resolution.Follows`), so what an import says resolves to the file that its stylesheet has now. -/
namespace Strata

open Forest FilePath

namespace Workspace

variable {w v u : Workspace} {settings : Settings} {d : Derivations} {files : FileSet}
  {base : FilePath} {g : Document}

/-! ### Files that are loaded -/

/-- Only what is found in the files matters. -/
theorem Loaded.congr_files (h : Loaded files w) {others : FileSet} (hnormal : others.Normal)
    (hget : ∀ path, path.normalize = path → others.get? path = files.get? path) :
    Loaded others w where
  normal := hnormal
  oneHolder := h.oneHolder
  original := h.original
  read id s path hs hfile := by
    obtain ⟨hpath, hholds, text, trees, hread, hrest⟩ := h.read id s path hs hfile
    exact ⟨hpath, hholds, text, trees, (hget path hpath).trans hread, hrest⟩
  all path hp := by
    obtain ⟨hpath, contents, hread⟩ := hnormal.mem_paths.mp hp
    exact h.all path (h.normal.mem_paths.mpr ⟨hpath, contents, (hget path hpath) ▸ hread⟩)

/-- The files are those that stylesheets were read from. -/
theorem Loaded.mem_paths (h : Loaded files w) {id : SheetId} {s : Sheet} {path : FilePath}
    (hs : w.get? id = some s) (hfile : s.file = some path) : path ∈ files.paths := by
  obtain ⟨hpath, -, text, -, hread, -⟩ := h.read id s path hs hfile
  exact h.normal.mem_paths.mpr ⟨hpath, text, hread⟩

/-! ### The passes before the split -/

theorem Literal.reshaped {atRule : String} (hat : Text.sameCaseless atRule "import" = false)
    (h : w.Literal) (hg : Document.Reshaped atRule w.roots w.doc g) :
    Literal { w with doc := g } where
  file := h.file
  specifier x n params specifier hx himport :=
    h.specifier x n params specifier ((hg.fixed hat x n (Node.isFixed_of_isImportRule himport)).mp hx)
      himport

/-- **Where a stylesheet is imported, the passes before the split lead to what it needs.** -/
theorem sited_of_passes {table : List (List SheetId)} (hfresh : w.Fresh) (hw : Loaded files w)
    (hfiled : ∀ id s, w.get? id = some s → s.file.isSome = true) (hliteral : w.Literal)
    (habsolute : ∀ path ∈ files.paths, path.isAbsolute = true)
    (hdots : ∀ path ∈ files.paths, ¬ Resolution.DottedPath path)
    (hflat : Resolution.Flat files.paths)
    (hl : (w.connect (.known files.paths) base).1.inheritLayers = .ok (table, v))
    {atRule : String} (hat : Text.sameCaseless atRule "import" = false)
    (hg : Document.Reshaped atRule v.roots v.doc g)
    (himported : ∃ y t rule, v.get? y = some t ∧ rule ∈ t.inbound) :
    Sited { v with doc := g } {} files.paths := by
  have hlinked := linked_connect hfresh (.known files.paths) base
  have hsame := hlinked.same.trans (sameButLinks_inheritLayers hl)
  have hv := analysed hfresh hl
  have hrooted : w.Rooted := by
    obtain ⟨y, t, rule, ht, hr⟩ := himported
    obtain ⟨x, layers, he⟩ := (mem_inbound_inherited hlinked hl ht rule).mp hr
    have himports : v.Imports x y :=
      ⟨t, rule, ht, hr, (hsame.sheetOf? rule).trans (he.sheetOf? hfresh.tidy)⟩
    obtain ⟨s, hs, -⟩ := he
    obtain ⟨r, hr, -⟩ := hsame.sheet y t ht
    refine rooted_of_flat hw (lt_size hs) (lt_size hr) ?_ (fun id s hs => ?_) habsolute hdots hflat
    · rintro rfl
      exact hv.acyclic x (.single himports)
    · obtain ⟨path, hfile⟩ := Option.isSome_iff_exists.mp (hfiled id s hs)
      exact ⟨path, hw.mem_paths hs hfile, hfile⟩
  have hdir : ∀ id s, w.get? id = some s → s.dir?.isSome = true := by
    intro id s hs
    obtain ⟨names, -, hdir⟩ := hrooted.dir hs
    rw [hdir]
    rfl
  exact {
    analysed := hv.reshaped hat hg
    rooted := (hrooted.congr (.of_sameButLinks hsame)).congr (.of_sheets rfl)
    traced := (traced_of_followed hfresh hl hdir fun _ _ _ => Resolution.normalize_of_known).reshaped
      hv hg
    literal := (hliteral.of_sameButLinks hsame).reshaped hat hg
    suffix := by decide +kernel
    bare := by decide
    long := by decide }

/-- An import is left only where there was one. -/
theorem Migrated.exists_inbound {z : Workspace} (h : Migrated w settings d v u z) {id : SheetId}
    {t : Sheet} {rule : NodeId} (ht : z.get? id = some t) (hr : rule ∈ t.inbound) :
    ∃ y s rule, w.get? y = some s ∧ rule ∈ s.inbound := by
  obtain ⟨s, hs, hst⟩ := h.cleaned.sheet id t ht
  by_cases hid : id < w.sheets.size
  · exact ⟨id, s, rule, h.parted.original hid ▸ hs, hst.subset hr⟩
  · obtain ⟨-, donor, o, rule, -, -, ho, hrule, -⟩ :=
      h.parted.companion_cases (Nat.le_of_not_lt hid) hs (hst.subset hr)
    exact ⟨donor, o, rule, ho, hrule⟩

end Workspace

theorem FileSet.get?_append_singleton (files : FileSet) (path : FilePath) (contents : String)
    (q : FilePath) : FileSet.get? (files ++ [(path, contents)]) q =
      (files.get? q).or (if path.same q then some contents else none) := by
  induction files with
  | nil =>
    rw [List.nil_append, get?_cons]
    cases path.same q <;> rfl
  | cons file files ih =>
    rw [List.cons_append, get?_cons, get?_cons, ih]
    cases file.1.same q <;> rfl

namespace Project

variable {p : Project} {w : Workspace} {m : Outcome}

/-- **The stylesheets of a project are read from its files.** -/
theorem loaded_workspace (hp : p.files.Normal) (h : p.workspace = .ok w) :
    Workspace.Loaded p.files w ∧ ∀ id s, w.get? id = some s → s.file.isSome = true := by
  obtain ⟨step, hok, herror, hfiles⟩ : ∃ step : Workspace → FilePath × String →
      Except MigrationError Workspace,
      (∀ v path text id next, v.load (some path) text = (.ok id, next) →
        step v (path, text) = .ok next) ∧
      (∀ v path text e next, v.load (some path) text = (.error e, next) →
        step v (path, text) = .error e) ∧ p.workspace = p.files.foldlM step {} :=
    ⟨_, fun _ _ _ _ _ h => by simp only [h], fun _ _ _ _ _ h => by simp only [h], rfl⟩
  rw [hfiles] at h
  have hrun : ∀ (todo done : FileSet) (v : Workspace), (done ++ todo).Normal → v.Fresh →
      Workspace.Loaded done v → (∀ id s, v.get? id = some s → s.file.isSome = true) →
      todo.foldlM step v = .ok w →
      Workspace.Loaded (done ++ todo) w ∧ ∀ id s, w.get? id = some s → s.file.isSome = true := by
    clear h
    intro todo
    induction todo with
    | nil =>
      intro done v _ _ hloaded hfiled h
      cases h
      exact ⟨by rwa [List.append_nil], hfiled⟩
    | cons file todo ih =>
      obtain ⟨path, text⟩ := file
      intro done v hnormal hfresh hloaded hfiled h
      rw [List.foldlM_cons] at h
      have hnext := hfresh.load (some path) text
      rcases hload : v.load (some path) text with ⟨_ | id, next⟩
      · rw [herror v path text _ next hload] at h
        cases h
      · rw [hok v path text id next hload] at h
        rw [hload] at hnext
        have hpath : path.normalize = path := hnormal path (by simp [FileSet.paths])
        have hdone : FileSet.Normal (done ++ [(path, text)]) := by
          refine fun q hq => hnormal q ?_
          simp only [FileSet.paths, List.map_append, List.map_cons, List.map_nil, List.mem_append,
            List.mem_cons, List.not_mem_nil, or_false] at hq ⊢
          exact hq.imp_right Or.inl
        rw [List.append_cons] at hnormal ⊢
        obtain ⟨hfree, trees, hparse, rfl⟩ := Workspace.load_ok hload hfresh.tidy.wellFormed
        rw [Option.map_some, hpath] at hfree hnext h
        have hunheld : ∀ id s, v.get? id = some s → ¬ s.Holds path := fun _ _ =>
          Workspace.not_held_of_taken? hfree hpath
        have hdoc : Workspace.Loaded done { v with doc := (v.doc.withText text).2 } :=
          ⟨hloaded.normal, hloaded.oneHolder, hloaded.original, hloaded.read, hloaded.all⟩
        refine ih _ _ hnormal hnext ((hdoc.push rfl hpath ⟨rfl, rfl⟩ hunheld hparse rfl).congr_files
          hdone fun q hq => ?_) (fun id s hs => ?_) h
        · rw [FileSet.get?_append_singleton, FileSet.get?_insert]
          by_cases hsame : path.same q = true
          · have hnone : done.get? q = none := by
              by_contra hsome
              obtain ⟨contents, hget⟩ := Option.ne_none_iff_exists'.mp hsome
              obtain ⟨id, s, hs, hfile⟩ := hloaded.all q (hloaded.normal.mem_paths.mpr ⟨hq, _, hget⟩)
              have heq := (FilePath.same_iff_eq hpath hq).mp hsame
              subst heq
              exact hunheld id s hs (hloaded.read id s path hs hfile).holds
            rw [hnone, if_pos hsame]
            rfl
          · rw [if_neg hsame, if_neg hsame, Option.or_none]
        · rcases Workspace.get?_push_cases hs with hs | ⟨-, rfl⟩
          · exact hfiled id s hs
          · rfl
  exact hrun p.files [] {} hp Workspace.fresh_empty Workspace.loaded_nil
    (fun id s hs => by simp [Workspace.get?] at hs) h

/-- The files of the project are at normal absolute paths. -/
structure Absolute (p : Project) : Prop where
  root : p.root.isAbsolute = true
  normal : p.files.Normal
  absolute : ∀ path ∈ p.files.paths, path.isAbsolute = true

theorem absolute_empty {root : FilePath} (h : root.isAbsolute = true) (settings : Settings)
    (ts : List Transform) : Absolute { root, settings, transforms := ts } :=
  ⟨h, FileSet.normal_nil, fun _ hm => absurd hm List.not_mem_nil⟩

/-- Files are added at paths inside the root. -/
theorem Absolute.add (h : p.Absolute) (inner : FilePath) (contents : String) :
    (p.add inner contents).Absolute where
  root := h.root
  normal := h.normal.insert (normalize_normalize _) contents
  absolute path hm := by
    have hnew : (p.path inner).isAbsolute = true := by
      obtain ⟨names, -, -, hnormal⟩ := exists_ofNames (isAbsolute_join h.root inner)
      rw [Project.path, hnormal]
      exact isAbsolute_ofNames names
    have hnormal := h.normal.insert (normalize_normalize (p.root.join inner)) contents
    obtain ⟨hpath, text, hget⟩ := hnormal.mem_paths.mp hm
    rw [FileSet.get?_insert] at hget
    split at hget
    · next hsame =>
      rw [← (same_iff_eq (normalize_normalize (p.root.join inner)) hpath).mp hsame]
      exact hnew
    · exact h.absolute path (h.normal.mem_paths.mpr ⟨hpath, text, hget⟩)

/-- The passes of a migration with the default settings: the files are loaded as `w`, layers are
inherited in `v`, transforms leave the trees `g`, and a split leads to `u`. -/
structure Passes (p : Project) (m : Outcome) (w v : Workspace) (g : Document) (x u : Workspace)
    (d : Derivations) : Prop where
  workspace : p.workspace = .ok w
  loaded : Workspace.Loaded p.files w
  filed : ∀ id s, w.get? id = some s → s.file.isSome = true
  inherited : ∃ table,
    (w.connect (.known p.files.paths) p.root).1.inheritLayers = .ok (table, v)
  transformed : (v.transformAll {} p.transforms v.ids).1 = { v with doc := g }
  reshaped : Document.Reshaped ({} : Settings).atRule v.roots v.doc g
  branched : Workspace.Branched { v with doc := g } d.pairs u
  migrated : Workspace.Migrated { v with doc := g } {} d x u m.workspace
  cleaned : m.workspace = (u.cleanUp d).1
  handed : ∃ promoted, Workspace.HandedOver { v with doc := g } d.pairs promoted m.workspace
  accounts : m.workspace.Accounts m.report.plan p.files
  applied : m.project = p.apply m.report.plan

theorem exists_passes (hp : p.files.Normal) (hsettings : p.settings = {})
    (hts : p.transforms = [] ∨ p.transforms = Transform.standard) (hm : p.migrate = .ok m) :
    ∃ w v g x u d, p.Passes m w v g x u d := by
  obtain ⟨w, hw, hrun, happlied⟩ := migrate_cases hm
  rw [hsettings] at hrun
  have hfresh := fresh_workspace hw
  obtain ⟨hloaded, hfiled⟩ := loaded_workspace hp hw
  obtain ⟨table, v, g, u, d, hl, htransformed, hsplit, hz⟩ := Workspace.migrate_passes hrun
  have hv := Workspace.analysed hfresh hl
  have hsame := ((Workspace.linked_connect hfresh _ _).same.trans
    (Workspace.sameButLinks_inheritLayers hl))
  have hkeeps : ∀ t ∈ p.transforms, t.KeepsImports := by
    rcases hts with hts | hts <;> rw [hts]
    · exact fun _ ht => absurd ht List.not_mem_nil
    · exact Transform.keepsImports_of_standard
  have hg : Document.Reshaped ({} : Settings).atRule v.roots v.doc
      (v.transformAll {} p.transforms v.ids).1.doc :=
    Workspace.transformAll_keeps hkeeps v.ids hv.tidy
  rw [htransformed] at hg
  have hvloaded : Workspace.Loaded p.files { v with doc := g } :=
    hloaded.congr ((Workspace.SameFiles.of_sameButLinks hsame).trans (.of_sheets rfl))
  obtain ⟨x, u', d', hsplit', hmigrated⟩ :=
    Workspace.exists_migrated (hv.reshaped (by decide +kernel) hg) {}
  cases hsplit.symm.trans hsplit'
  obtain ⟨hbranched, hnodup⟩ := Workspace.branched_split hvloaded.oneHolder hsplit
  have hhanded := Workspace.handedOver_cleanUp hvloaded hbranched hnodup
  rw [← hz] at hmigrated hhanded
  exact ⟨w, v, g, x, u, d, hw, hloaded, hfiled, ⟨table, hl⟩, htransformed, hg, hbranched, hmigrated,
    hz, hhanded, Workspace.accounts_of_loaded hfresh hloaded hrun, happlied⟩

namespace Passes

variable {v x u : Workspace} {g : Document} {d : Derivations} (h : p.Passes m w v g x u d)
include h

/-- The files that are left are those of the stylesheets that are kept. -/
theorem mem_paths (path : FilePath) : path ∈ m.project.files.paths ↔
    ∃ id s, m.workspace.get? id = some s ∧ s.discarded = false ∧ s.file = some path := by
  rw [h.applied]
  exact h.accounts.paths path

theorem sameButLinks : w.SameButLinks v := by
  obtain ⟨table, hl⟩ := h.inherited
  exact (Workspace.linked_connect (fresh_workspace h.workspace) _ _).same.trans
    (Workspace.sameButLinks_inheritLayers hl)

theorem loaded_before : Workspace.Loaded p.files { v with doc := g } :=
  h.loaded.congr ((Workspace.SameFiles.of_sameButLinks h.sameButLinks).trans (.of_sheets rfl))

theorem kept_of_inbound {id : SheetId} {t : Sheet} {rule : NodeId}
    (ht : m.workspace.get? id = some t) (hr : rule ∈ t.inbound) : t.discarded = false := by
  obtain ⟨s, -, hst⟩ := h.migrated.cleaned.sheet id t ht
  by_contra hd
  rw [hst.inbound, if_pos ((Bool.not_eq_false _).mp hd)] at hr
  cases hr

/-- An import that is left resolves to the file of the stylesheet that it points at. -/
theorem resolves (hp : p.Absolute) (hdots : ∀ path ∈ p.files.paths, ¬ Resolution.DottedPath path)
    (hliteral : w.Literal) (hflat : Resolution.Flat p.files.paths)
    (hafter : Resolution.Flat m.project.files.paths) {id : SheetId} {t : Sheet} {rule : NodeId}
    (ht : m.workspace.get? id = some t) (hr : rule ∈ t.inbound)
    (hlive : m.workspace.doc.contains rule = true) : ∃ path, t.file = some path ∧
      m.workspace.Resolves (.known m.project.files.paths) rule path := by
  obtain ⟨table, hl⟩ := h.inherited
  have hmigrated := h.migrated
  have hsited := Workspace.sited_of_passes (fresh_workspace h.workspace) h.loaded h.filed hliteral
    hp.absolute hdots hflat hl (by decide +kernel) h.reshaped (hmigrated.exists_inbound ht hr)
  have haddressed := h.cleaned ▸ Workspace.addressed_cleanUp hmigrated.parted hsited h.branched
  obtain ⟨dir, specifier, path, hdir, hsays, hfile, hmeans⟩ := haddressed.leads id t rule ht hr hlive
  have hmem := (h.mem_paths path).mpr ⟨id, t, ht, h.kept_of_inbound ht hr, hfile⟩
  obtain ⟨names, name, hnames, hroot⟩ := haddressed.rooted id t ht
  cases hfile.symm.trans hroot
  obtain ⟨home, r, -, hr', hrdir⟩ := Workspace.dirOf?_eq_some.mp hdir
  obtain ⟨start, hstart, hstartdir⟩ := (hmigrated.parted.rooted hsited).dir hr'
  cases hrdir.symm.trans hstartdir
  refine ⟨_, hfile, _, specifier,
    (haddressed.dirOf?_eq hmigrated.cleaned hmigrated.tidy_split hlive).trans hdir, hsays, ?_⟩
  rcases hmeans with hknown | rfl
  · -- The files that are left were there, or they are derived.
    refine Resolution.Follows.known ⟨fun q hq => ?_, fun q hq => ?_, hafter⟩
      (isAbsolute_ofNames start) hknown hmem (Resolution.not_dottedPath_ofNames hnames)
    · obtain ⟨y, s, hs, -, hsfile⟩ := (h.mem_paths q).mp hq
      obtain ⟨names, name, hnames, hroot⟩ := haddressed.rooted y s hs
      cases hsfile.symm.trans hroot
      exact normalize_ofNames fun x hx => (hnames x hx).1
    · obtain ⟨y, s, hs, -, hsfile⟩ := (h.mem_paths q).mp hq
      refine (haddressed.new y s q hs hsfile).imp_left fun hbefore => ?_
      obtain ⟨z, o, ho, hofile⟩ := hbefore
      exact h.loaded_before.mem_paths ho hofile
  · exact Resolution.known_specifierTo hstart (fun x hx => (hnames x hx).1)
      (fun x hx => (hnames x hx).2) hmem

end Passes

/-- **Behind a migration every import that is left resolves, among the files that are left, to the
file of the stylesheet that it points at.** -/
theorem resolves_after_migration (hp : p.Absolute) (hsettings : p.settings = {})
    (hts : p.transforms = [] ∨ p.transforms = Transform.standard)
    (hdots : ∀ path ∈ p.files.paths, ¬ Resolution.DottedPath path) (hw : p.workspace = .ok w)
    (hliteral : w.Literal) (hflat : Resolution.Flat p.files.paths) (hm : p.migrate = .ok m)
    (hafter : Resolution.Flat m.project.files.paths) :
    ∀ id t rule, m.workspace.get? id = some t → rule ∈ t.inbound →
      m.workspace.doc.contains rule = true → t.discarded = false ∧ ∃ path, t.file = some path ∧
        m.workspace.Resolves (.known m.project.files.paths) rule path := by
  obtain ⟨w', v, g, x, u, d, hpasses⟩ := exists_passes hp.normal hsettings hts hm
  cases hw.symm.trans hpasses.workspace
  intro id t rule ht hr hlive
  exact ⟨hpasses.kept_of_inbound ht hr, hpasses.resolves hp hdots hliteral hflat hafter ht hr hlive⟩

theorem absolute_holding (files : List (String × String)) : (holding files).Absolute := by
  obtain ⟨step, hstep, hfiles⟩ : ∃ step : Project → String × String → Project,
      (∀ p file, step p file = p.add ⟨file.1⟩ file.2) ∧
        holding files = files.foldl step { root := ⟨"/p"⟩ } := ⟨_, fun _ _ => rfl, rfl⟩
  have hrun : ∀ p : Project, p.Absolute → (files.foldl step p).Absolute := by
    clear hfiles
    induction files with
    | nil => exact fun _ h => h
    | cons file files ih =>
      intro p h
      rw [List.foldl_cons, hstep]
      exact ih _ (h.add ⟨file.1⟩ file.2)
  rw [hfiles]
  exact hrun _ (absolute_empty (by decide) {} Transform.standard)

instance (path : FilePath) : Decidable (Resolution.DottedPath path) :=
  decidable_of_iff (∃ c ∈ path.components, c = .name c.text ∧ c.text.toList.take 2 = ['.', '.'])
    ⟨fun ⟨c, hc, hname, hdots⟩ => ⟨c.text, hname ▸ hc, hdots⟩,
      fun ⟨s, hs, hdots⟩ => ⟨.name s, hs, rfl, hdots⟩⟩

instance (files : List FilePath) : Decidable (Resolution.Flat files) :=
  inferInstanceAs (Decidable (∀ p ∈ files, ∀ q ∈ files, p.components <+: q.components → p = q))

/-- An entry that imports a stylesheet of utilities only, without its extension, and one that has
more. -/
def entryAndLibrary : Project :=
  holding [("index.css", "@import './a' layer(utilities);\n@import './b.css' layer(utilities);"),
    ("a.css", "@utility a { color: red }"), ("b.css", "h1 {}\n@utility b { color: red }")]

/-- The import without an extension resolves to the path that was taken over. -/
theorem resolves_to_taken_over : ∃ m t rule, entryAndLibrary.migrate = .ok m ∧
    m.workspace.get? 3 = some t ∧ rule ∈ t.inbound ∧ t.file = some ⟨"/p/a.css"⟩ ∧
    m.workspace.Resolves (.known m.project.files.paths) rule ⟨"/p/a.css"⟩ := by
  have hrun : entryAndLibrary.migratesWith (fun m => decide (Resolution.Flat m.project.files.paths) &&
      (m.workspace.get? 3).any fun t => t.file == some ⟨"/p/a.css"⟩ &&
        t.inbound.any m.workspace.doc.contains) = true := by decide +kernel
  obtain ⟨m, hm, hcheck⟩ := exists_of_migratesWith hrun
  rw [Bool.and_eq_true, decide_eq_true_eq] at hcheck
  obtain ⟨t, ht, hcheck'⟩ := (Option.any_eq_true _ _).mp hcheck.2
  rw [Bool.and_eq_true, beq_iff_eq, List.any_eq_true] at hcheck'
  obtain ⟨hfile, rule, hr, hlive⟩ := hcheck'
  obtain ⟨w, hw, -⟩ := migrate_cases hm
  have hliteral : w.Literal := by
    have hread : entryAndLibrary.workspace.toOption.any (fun w => decide w.Literal) = true := by
      decide +kernel
    rw [hw] at hread
    exact of_decide_eq_true hread
  obtain ⟨-, path, hpath, hresolves⟩ := resolves_after_migration (absolute_holding _) rfl
    (Or.inr rfl) (by decide +kernel) hw hliteral (by decide +kernel) hm hcheck.1 3 t rule ht hr hlive
  cases hfile.symm.trans hpath
  exact ⟨m, t, rule, hm, ht, hr, hfile, hresolves⟩

end Project

end Strata
