import Strata.Proofs.Emptied
import Strata.Proofs.Migration.SecondRun
import Strata.Proofs.Migration.Specifiers

/-! Projects that are settled behind one migration.

What a migration left is read anew from the files of the project that it left. Where these say what
their stylesheets do (`Outcome.Legible`), the second workspace is one that was reread
(`Passes.reread`), so the second migration succeeds exactly when the imports of the first outcome are
without cycles, and it plans nothing (`settled_iff_acyclic`). -/
namespace Strata

namespace Workspace.Reads

variable {files : FileSet} {w : Workspace} {id : SheetId} {s : Sheet} {path : FilePath}
  (h : Reads files w) (hnormal : files.Normal) (hs : w.get? id = some s)
  (hfile : s.file = some path)
include h hnormal hs hfile

theorem exists_file : ∃ source ∈ files, source.1 = path ∧ ReadAs w.doc source s := by
  obtain ⟨source, hsource, hread⟩ := h.exists_source hs
  have hheld := hread.holds.file
  rw [hnormal source.1 (List.mem_map_of_mem hsource), hfile] at hheld
  exact ⟨source, hsource, (Option.some.inj hheld).symm, hread⟩

theorem get?_file (hnodup : files.paths.Nodup) : files.get? path = some s.content := by
  obtain ⟨source, hsource, rfl, hread⟩ := h.exists_file hnormal hs hfile
  rw [hread.content]
  exact hnormal.get?_of_mem hnodup hsource

end Workspace.Reads

namespace Project

open Forest Document Relation

variable {p : Project} {m : Outcome} {w v x u : Workspace} {g : Document} {d : Derivations}

/-- What the files of a migrated project say is what its stylesheets do. -/
structure Outcome.Legible (m : Outcome) : Prop where
  /-- The file of a stylesheet that is kept is read as its trees. -/
  trees : ∀ id s path, m.workspace.get? id = some s → s.discarded = false → s.file = some path →
    ∃ text trees, m.project.files.get? path = some text ∧ Css.parse text = .ok trees ∧
      trees.forms = (m.workspace.doc.grove s.root).forms
  /-- An import that is of no stylesheet resolves to none of the files. -/
  nowhere : ∀ id s rule specifier, m.workspace.get? id = some s → s.discarded = false →
    rule ∈ m.workspace.doc.imports s.root →
    (∀ y t, m.workspace.get? y = some t → rule ∉ t.inbound) →
    m.workspace.doc.Says rule specifier →
    Resolution.known m.project.files.paths specifier (s.dir?.getD m.project.root) = none

theorem workspace_eq_loadFiles (p : Project) : p.workspace = Workspace.loadFiles p.files := by
  unfold Workspace.loadFiles Workspace.loadAll
  refine Eq.trans ?_ (List.foldlM_map ..).symm
  rfl

namespace Passes

variable (h : p.Passes m w v g x u d)
include h

theorem normal_after : m.project.files.Normal := by
  intro path hpath
  obtain ⟨id, s, hs, -, hfile⟩ := (h.mem_paths path).mp hpath
  obtain ⟨promoted, hhanded⟩ := h.handed
  exact hhanded.normal h.loaded_before hs hfile

theorem nodup_after (horder : p.files.InOrder) : m.project.files.paths.Nodup := by
  rw [h.applied]
  exact (inOrder_apply horder m.report.plan).nodup

/-- **The files that a migration leaves are read as what it left.** -/
theorem reread (hp : p.Absolute) (horder : p.files.InOrder)
    (hdots : ∀ path ∈ p.files.paths, ¬ Resolution.DottedPath path) (hliteral : w.Literal)
    (hflat : Resolution.Flat p.files.paths) (hafter : Resolution.Flat m.project.files.paths)
    (hlegible : m.Legible) : ∃ r, m.project.workspace = .ok r ∧
      Workspace.Reread m.workspace m.project.files m.project.root r := by
  have hnormal := h.normal_after
  have hnodup := h.nodup_after horder
  have hread : ∀ source ∈ m.project.files, ∃ id s trees, m.workspace.get? id = some s ∧
      s.discarded = false ∧ s.file = some source.1 ∧ Css.parse source.2 = .ok trees ∧
      trees.forms = (m.workspace.doc.grove s.root).forms := by
    intro source hsource
    obtain ⟨id, s, hs, hkept, hfile⟩ := (h.mem_paths source.1).mp (List.mem_map_of_mem hsource)
    obtain ⟨text, trees, hget, hparse, hforms⟩ := hlegible.trees id s source.1 hs hkept hfile
    rw [hnormal.get?_of_mem hnodup hsource] at hget
    cases hget
    exact ⟨id, s, trees, hs, hkept, hfile, hparse, hforms⟩
  have hown : ∀ source ∈ m.project.files, source.1.normalize = source.1 := fun source hsource =>
    hnormal source.1 (List.mem_map_of_mem hsource)
  have hdistinct : (m.project.files.map fun source => source.1.normalize).Nodup := by
    rw [List.map_congr_left hown]
    exact hnodup
  obtain ⟨r, hr, hreads⟩ := Workspace.exists_loadFiles hdistinct fun source hsource => by
    obtain ⟨-, -, trees, -, -, -, hparse, -⟩ := hread source hsource
    exact ⟨trees, hparse⟩
  have htidy := h.migrated.cleaned.tidy
  refine ⟨r, (workspace_eq_loadFiles m.project).trans hr, hreads, hreads.catalogued hdistinct, htidy,
    h.accounts.distinct, fun y hy => ?_, fun a s path hs hkept hfile => ?_, fun a y s t hay hs ht => ?_,
    fun id t rule ht hrule hlive => h.migrated.mem_imports_of_inbound ht hrule hlive,
    fun id t rule ht hrule hlive => ⟨h.kept_of_inbound ht hrule,
      h.resolves hp hdots hliteral hflat hafter ht hrule hlive⟩, hlegible.nowhere⟩
  · obtain ⟨t, ht⟩ := Workspace.get?_isSome.mpr hy
    obtain ⟨source, hsource, hras⟩ := hreads.exists_source ht
    obtain ⟨id, s, -, hs, hkept, hfile, -⟩ := hread source hsource
    exact ⟨id, s, t, source.1, hs, hkept, hfile, ht, hown source hsource ▸ hras.holds.file⟩
  · obtain ⟨source, hsource, rfl⟩ := List.mem_map.mp ((h.mem_paths path).mpr ⟨a, s, hs, hkept, hfile⟩)
    obtain ⟨y, t, ht, hras⟩ := hreads.exists_sheet hsource
    exact ⟨y, s, t, source.1, hs, hkept, hfile, ht, hown source hsource ▸ hras.holds.file⟩
  · obtain ⟨s', t', path, hs', hkept, hfile, ht', htfile⟩ := hay
    cases hs.symm.trans hs'
    cases ht.symm.trans ht'
    obtain ⟨source, hsource, rfl, hras⟩ := hreads.exists_file hnormal ht htfile
    obtain ⟨id, s', trees, hs', hkept', hfile', hparse, hforms⟩ := hread source hsource
    cases h.accounts.distinct a id s s' source.1 hs hs' hkept hkept' hfile hfile'
    cases hs.symm.trans hs'
    obtain ⟨n, hn⟩ := contains_iff_get?.mp (htidy.live hs)
    have hform : n.form = .root := beq_iff_eq.mp
      ((Document.Tidy.form htidy s.root n hn).mpr (Workspace.root_mem_roots hs))
    refine ⟨?_, ?_⟩
    · rw [hn, hras.root, Option.map_some, Option.map_some, hform]
      rfl
    · rw [hreads.fresh.tidy.wellFormed.grove_eq hras.bears, Css.parse_eq_ok.mp hparse]
      exact hforms

/-- A stylesheet that was there has the text of its file. -/
theorem content_eq (hp : p.Absolute) (horder : p.files.InOrder) {id : SheetId} {s : Sheet}
    {path : FilePath} (hs : v.get? id = some s) (hfile : s.file = some path) :
    p.files.get? path = some s.content := by
  obtain ⟨a, ha, hsame⟩ := h.sameButLinks.sheet id s hs
  have hreads := Workspace.reads_of_loadFiles ((workspace_eq_loadFiles p).symm.trans h.workspace)
  have hcontent : s.content = a.content := by rw [hsame]
  rw [hcontent]
  exact hreads.get?_file hp.normal ha (hsame.file.symm.trans hfile) horder.nodup

/-- Where the file of a stylesheet that is kept is not blank, there is something in it. -/
theorem children_ne_nil (hp : p.Absolute) (horder : p.files.InOrder) {id : SheetId} {s : Sheet}
    {path : FilePath} {text : String} (hs : m.workspace.get? id = some s)
    (hkept : s.discarded = false) (hfile : s.file = some path)
    (hget : m.project.files.get? path = some text) (hblank : Workspace.isBlankText text = false) :
    m.workspace.doc.children s.root ≠ [] := by
  intro hnone
  have htidy := h.migrated.cleaned.tidy
  have hcss : m.workspace.css id = "" := Workspace.css_eq_empty hs hnone fun n hn =>
    (Document.Tidy.form htidy s.root n hn).mpr (Workspace.root_mem_roots hs)
  rw [h.applied] at hget
  rcases h.accounts.contents id s path hs hkept hfile with hwritten | ⟨-, own, -, hbefore, hsame, -⟩
  · cases hget.symm.trans hwritten
    rw [hcss] at hblank
    cases hblank
  · cases hget.symm.trans hsame
    by_cases hid : id < v.sheets.size
    · -- One that was there, and prints as nothing now, has been discarded.
      obtain ⟨r, hr⟩ := Workspace.get?_isSome.mpr hid
      obtain ⟨promoted, hhanded⟩ := h.handed
      obtain ⟨s', hs', hsfile, -⟩ := hhanded.original id r hr
      cases hs.symm.trans hs'
      have hcontent := h.content_eq hp horder hr (hsfile.symm.trans hfile)
      cases hbefore.symm.trans hcontent
      have hswept := Workspace.swept_cleanUp (h.migrated.parted.standing h.migrated.analysed) d
      rw [← h.cleaned] at hswept
      have hu : u.get? id = some r := (h.migrated.parted.original hid).trans hr
      obtain ⟨t, ht, -, hdiscarded, -⟩ := hswept.sheet id r hu
      cases hs.symm.trans ht
      have hprinted := hswept.printed id ⟨r, hu, (h.migrated.analysed.plain id r hr).1, hblank⟩
        fun hin => by
          rw [hdiscarded.mpr hin] at hkept
          cases hkept
      rw [hcss] at hprinted
      cases hprinted
    · obtain ⟨c, hc, -⟩ := h.migrated.exists_utility_of_derived (by decide +kernel)
        (Nat.le_of_not_lt hid) hs
      have hmem := (htidy.wellFormed.listed c s.root).mpr hc
      rw [hnone] at hmem
      cases hmem

/-- What was read from there is at rest, where imports are without cycles. -/
theorem atRest (hp : p.Absolute) (horder : p.files.InOrder)
    (hts : p.transforms = [] ∨ p.transforms = Transform.standard) (hliteral : w.Literal)
    {r q : Workspace} {table : List (List SheetId)}
    (hr : Workspace.Reread m.workspace m.project.files m.project.root r)
    (hl : (r.connect (.known m.project.files.paths) m.project.root).1.inheritLayers =
      .ok (table, q)) (hrests : m.workspace.Rests {} p.transforms) :
    q.AtRest {} p.transforms := by
  obtain ⟨before, hinherited⟩ := h.inherited
  have hfresh := fresh_workspace h.workspace
  have hv := Workspace.analysed hfresh hinherited
  have hat : Text.sameCaseless ({} : Settings).atRule "import" = false := by decide +kernel
  have hlayer : Text.sameCaseless ({} : Settings).atRule "layer" = false := by decide +kernel
  have hlabels : Workspace.Labelled { v with doc := g } :=
    (Workspace.labelled_of_inherited hfresh hinherited).reshaped hv h.reshaped
  have hadditions : Workspace.Additions d.pairs m.workspace := by
    rw [h.cleaned]
    refine Workspace.Additions.cleanUp ?_ (h.migrated.parted.standing h.migrated.analysed)
    exact h.migrated.parted.additions h.migrated.analysed
      ((hliteral.of_sameButLinks h.sameButLinks).reshaped hat h.reshaped) (by decide +kernel)
  refine Workspace.atRest_reread h.migrated hrests hat hr hl hlayer hlabels hadditions
    (hts.imp_right fun hts => ⟨hts, fun id s hs => ?_⟩) fun a y s t hay hs ht hblank => ?_
  · have hexhausted : Workspace.Exhausted { v with doc := g } {} id := by
      rw [← h.transformed, hts]
      exact Workspace.exhausted_transformAll hlayer (fun id hid => List.mem_range.mp hid) hv.tidy
        (Or.inl (List.mem_range.mpr (Workspace.lt_size hs)))
    exact hexhausted s hs
  · obtain ⟨s', t', path, hs', hkept, hfile, ht', htfile⟩ := hay
    cases hs.symm.trans hs'
    cases ht.symm.trans ht'
    exact h.children_ne_nil hp horder hs hkept hfile
      (hr.reads.get?_file h.normal_after ht htfile (h.nodup_after horder)) hblank

end Passes

/-- **A migration is settled exactly when the imports that it left are without cycles**, where its
files say what its stylesheets do, and no stylesheet is left that a second one would split or
convert. -/
theorem settled_iff_acyclic (hp : p.Absolute) (horder : p.files.InOrder) (hsettings : p.settings = {})
    (hts : p.transforms = [] ∨ p.transforms = Transform.standard)
    (hdots : ∀ path ∈ p.files.paths, ¬ Resolution.DottedPath path) (hw : p.workspace = .ok w)
    (hliteral : w.Literal) (hflat : Resolution.Flat p.files.paths) (hm : p.migrate = .ok m)
    (hafter : Resolution.Flat m.project.files.paths) (hlegible : m.Legible)
    (hrests : m.workspace.Rests {} p.transforms) :
    m.Settled ↔ ∀ id, ¬ TransGen m.workspace.Imports id id := by
  obtain ⟨w', v, g, x, u, d, h⟩ := exists_passes hp.normal hsettings hts hm
  cases hw.symm.trans h.workspace
  obtain ⟨r, hr, hreread⟩ := h.reread hp horder hdots hliteral hflat hafter hlegible
  have htotal : ∀ t ∈ p.transforms, t.Total := by
    rcases hts with hts | hts <;> rw [hts]
    · exact fun _ ht => absurd ht List.not_mem_nil
    · exact Transform.total_of_standard
  have hsame : m.project.transforms = p.transforms ∧ m.project.settings = {} := by
    rw [h.applied]
    exact ⟨rfl, hsettings⟩
  rw [← hreread.acyclic_iff]
  constructor
  · intro hsettled
    obtain ⟨⟨r', hr', hacyclic⟩, -⟩ := (settled_iff m (hsame.1 ▸ htotal)).mp hsettled
    cases hr.symm.trans hr'
    exact hacyclic
  · intro hacyclic
    have hruns : ∃ report, (r.migrate {} p.transforms (.known m.project.files.paths)
        m.project.root).2 = .ok report :=
      (Workspace.migrate_ok_iff hreread.reads.fresh htotal).mpr hacyclic
    obtain ⟨table, q, hl⟩ := (Workspace.migrate_eq_inheritLayers htotal).mp hruns
    have hrest := h.atRest hp horder hts hliteral hreread hl hrests
    obtain ⟨report, hrun, hnil⟩ := Workspace.exists_plan_nil_of_atRest hreread.reads hl hrest
    refine ⟨⟨report, q, m.project.apply report.plan⟩, ?_, hnil⟩
    rw [Outcome.again]
    simp only [migrate, hr, hsame, hrun, bind, Except.bind]
    rfl

theorem inOrder_holding (files : List (String × String)) : (holding files).files.InOrder := by
  refine List.foldlRecOn (motive := fun p : Project => p.files.InOrder) files _
    List.Pairwise.nil fun p hp file _ => ?_
  exact hp.insert _ file.2

instance (m : Outcome) : Decidable m.Legible :=
  decidable_of_iff ((∀ id ∈ m.workspace.ids, ∀ s ∈ m.workspace.get? id, s.discarded = false →
      ∀ path ∈ s.file, ((m.project.files.get? path).bind fun text => (Css.parse text).toOption).any
        (fun trees => trees.forms == (m.workspace.doc.grove s.root).forms) = true) ∧
    ∀ id ∈ m.workspace.ids, ∀ s ∈ m.workspace.get? id, s.discarded = false →
      ∀ rule ∈ m.workspace.doc.imports s.root,
        (∀ y ∈ m.workspace.ids, ∀ t ∈ m.workspace.get? y, rule ∉ t.inbound) →
        ∀ specifier ∈ ((m.workspace.doc.get? rule).bind Node.params?).bind Css.specifier?,
          Resolution.known m.project.files.paths specifier (s.dir?.getD m.project.root) = none) <| by
    constructor
    · intro hboth
      obtain ⟨htrees, hnowhere⟩ := hboth
      refine ⟨fun id s path hs hkept hfile => ?_,
        fun id s rule specifier hs hkept hrule hnone hsays => ?_⟩
      · obtain ⟨trees, hread, hforms⟩ := (Option.any_eq_true _ _).mp
          (htrees id (List.mem_range.mpr (Workspace.lt_size hs)) s hs hkept path hfile)
        obtain ⟨text, hget, hparse⟩ := Option.bind_eq_some_iff.mp hread
        refine ⟨text, trees, hget, ?_, beq_iff_eq.mp hforms⟩
        cases hres : Css.parse text with
        | error e => rw [hres] at hparse; cases hparse
        | ok other => rw [hres] at hparse; cases hparse; rfl
      · obtain ⟨n, params, hn, hparams, hspecifier⟩ := hsays
        refine hnowhere id (List.mem_range.mpr (Workspace.lt_size hs)) s hs hkept rule hrule
          (fun y _ t ht => hnone y t ht) specifier ?_
        rw [hn, Option.bind_some, hparams]
        exact hspecifier
    · intro h
      refine ⟨fun id _ s hs hkept path hfile => ?_, fun id _ s hs hkept rule hrule hnone specifier
        hspecifier => ?_⟩
      · obtain ⟨text, trees, hget, hparse, hforms⟩ := h.trees id s path hs hkept hfile
        rw [hget, Option.bind_some, hparse]
        exact beq_iff_eq.mpr hforms
      · obtain ⟨params, hwritten, hspecifier⟩ := Option.bind_eq_some_iff.mp hspecifier
        obtain ⟨n, hn, hparams⟩ := Option.bind_eq_some_iff.mp hwritten
        exact h.nowhere id s rule specifier hs hkept hrule
          (fun y t ht => hnone y (List.mem_range.mpr (Workspace.lt_size ht)) t ht)
          ⟨n, params, hn, hparams, hspecifier⟩

/-- The project behind the migration of an entry and two donors, one of which is taken over, is
settled. -/
theorem settled_taken_over : ∃ m, entryAndLibrary.migrate = .ok m ∧ m.Settled ∧
    m.Legible ∧ m.workspace.Rests {} Transform.standard ∧
    ∀ id, ¬ TransGen m.workspace.Imports id id := by
  have hrun : entryAndLibrary.migratesWith (fun m => decide (Resolution.Flat m.project.files.paths) &&
      decide m.Legible && m.workspace.ids.all (fun id => (m.workspace.get? id).all fun t =>
        (!t.derived || (m.workspace.doc.children t.root).all
          fun c => !(m.workspace.doc.get? c).any Node.isImportRule) &&
        (Transform.layerBlocksOf {} t.root m.workspace.doc).isEmpty) &&
      m.workspace.ids.all (fun x => m.workspace.ids.all fun y =>
        !decide (m.workspace.Imports x y) || (x == 2 && y != 2))) = true := by decide +kernel
  obtain ⟨m, hm, hcheck⟩ := exists_of_migratesWith hrun
  simp only [Bool.and_eq_true, decide_eq_true_eq, List.all_eq_true] at hcheck
  obtain ⟨⟨⟨hafter, hlegible⟩, hsheets⟩, hedges⟩ := hcheck
  have hsheet : ∀ id t, m.workspace.get? id = some t →
      (t.derived = true → ∀ c ∈ m.workspace.doc.children t.root,
        (m.workspace.doc.get? c).any Node.isImportRule = false) ∧
      Transform.layerBlocksOf {} t.root m.workspace.doc = [] := by
    intro id t ht
    have hall := hsheets id (List.mem_range.mpr (Workspace.lt_size ht))
    rw [ht, Option.all_some, Bool.and_eq_true, List.isEmpty_iff] at hall
    refine ⟨fun hderived c hc => ?_, hall.2⟩
    have hbare := hall.1
    rw [hderived, Bool.not_true, Bool.false_or, List.all_eq_true] at hbare
    exact (Bool.not_eq_true' _).mp (hbare c hc)
  have hrests : m.workspace.Rests {} Transform.standard :=
    ⟨fun id t ht hderived _ => (hsheet id t ht).1 hderived, fun _ id t ht _ block hblock => by
      rw [(hsheet id t ht).2] at hblock
      cases hblock⟩
  have himports : ∀ x y, m.workspace.Imports x y → x = 2 ∧ y ≠ 2 := by
    intro x y hi
    obtain ⟨_, _, _, _, _, _, hpasses⟩ := exists_passes (absolute_holding _).normal rfl (Or.inr rfl) hm
    obtain ⟨t, -, ht, -⟩ := id hi
    have hedge := hedges x
      (List.mem_range.mpr (Workspace.lt_size_of_imports hi hpasses.migrated.cleaned.tidy)) y
      (List.mem_range.mpr (Workspace.lt_size ht))
    simpa [hi] using hedge
  have hacyclic : ∀ id, ¬ TransGen m.workspace.Imports id id := by
    intro id hcycle
    obtain ⟨y, hfirst, -⟩ := TransGen.head'_iff.mp hcycle
    obtain ⟨x, -, hlast⟩ := TransGen.tail'_iff.mp hcycle
    exact (himports x id hlast).2 (himports id y hfirst).1
  obtain ⟨w, hw, -⟩ := migrate_cases hm
  have hliteral : w.Literal := by
    have hread : entryAndLibrary.workspace.toOption.any (fun w => decide w.Literal) = true := by
      decide +kernel
    rw [hw] at hread
    exact of_decide_eq_true hread
  exact ⟨m, hm, (settled_iff_acyclic (absolute_holding _) (inOrder_holding _) rfl (Or.inr rfl)
    (by decide +kernel) hw hliteral (by decide +kernel) hm hafter hlegible hrests).mpr hacyclic,
    hlegible, hrests, hacyclic⟩

end Project

end Strata
