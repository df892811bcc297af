import Strata.Proofs.Css.ImportParams
import Strata.Proofs.Following
import Strata.Proofs.Migration.Traces
import Strata.Proofs.Resolution.Siblings
import Strata.Proofs.Split.Escorts

/-! Companions in stylesheets without a file.

A stylesheet without a file is never split, so the companion of an import of it stands beside the
import. It cannot be named by the way from a directory, so it gets the specifier of the import with
the name of the derived stylesheet for its last name. From the base directory that leads to the
derived stylesheet just when what stands in front of the last name leads to the directory of the
donor (`named_by_swap`), which it does not where the specifier leaves out the name of the file. -/
namespace Strata.Workspace

open Forest FilePath

variable {w v u : Workspace} {settings : Settings} {d : Derivations} {files : List FilePath}
  {base file path : FilePath} {x donor derived : SheetId} {s : Sheet} {rule companion : NodeId}
  {written specifier : String}

/-- `companion` stands beside an import of `file`, in the same stylesheet, and reads the specifier of
that with the last name exchanged for that of `path`. -/
structure NamedBySwap (u : Workspace) (files : List FilePath) (base : FilePath) (x : SheetId)
    (rule : NodeId) (written specifier : String) (file path : FilePath) (companion : NodeId) :
    Prop where
  home : u.sheetOf? companion = some x
  beside : u.doc.parent? companion = u.doc.parent? rule
  reads : (u.doc.get? companion).bind Node.params? =
    some (Css.plainImport (specifierInImport none path specifier) (Css.importQuote written))
  /-- A specifier without quotes and backslashes is found again between the quotes. -/
  readBack : Css.Literal (specifierInImport none path specifier) →
    u.doc.Says companion (specifierInImport none path specifier)
  leads : Resolution.known (path :: files) (specifierInImport none path specifier) base = some path ↔
    Resolution.HeadLeads base specifier file.directory

/-- In `u`, which a split of the workspace that `w` has become left, every import of a donor in a
stylesheet without a file has its companion, named by a swap. -/
def NamesBySwap (w u : Workspace) (d : Derivations) (files : List FilePath) (base : FilePath) : Prop :=
  ∀ x s donor derived rule written, w.get? x = some s → s.file = none →
    w.Points (.known files) base x donor rule written → (donor, derived) ∈ d.pairs →
    ∃ specifier file path r companion, Css.specifier? written = some specifier ∧
      Resolution.known files specifier base = some file ∧ u.get? derived = some r ∧
      r.file = some path ∧ companion ∈ r.inbound ∧
      u.NamedBySwap files base x rule written specifier file path companion

/-- The exchanged name is that of a derived stylesheet. -/
theorem leads_swapped (hbase : base.isAbsolute = true)
    (hknown : Resolution.known files specifier base = some file)
    (hsuffix : '/' ∉ settings.suffix.toList)
    (hlong : "css".toList.length < settings.suffix.toList.length) {name : String}
    (hname : '/' ∉ name.toList) {attempt : Nat}
    (hpath : path = (derivedPath settings file name attempt).normalize) :
    specifierInImport none path specifier ≠ "" ∧
      (Resolution.known (path :: files) (specifierInImport none path specifier) base = some path ↔
        Resolution.HeadLeads base specifier file.directory) := by
  have hnamed := named_derivedName hname hsuffix (Nat.lt_trans (by decide) hlong)
    (fun _ => slash_not_mem_extension (p := file)) attempt
  have hfile := fileName?_join_directory (Resolution.normalize_of_known hknown) hnamed
  exact ⟨Resolution.specifierInImport_none_ne_empty (hpath ▸ hfile) specifier,
    Resolution.known_specifierInImport_iff hbase hknown hnamed (derivedName_ne_index hlong attempt)
      hpath⟩

namespace Parted

variable (h : Parted w settings d v u) (hw : w.Recorded)
include h hw

/-- **The companion of an import in a stylesheet without a file stands beside the import.** -/
theorem beside_of_anonymous (hat : Text.sameCaseless settings.atRule "import" = false)
    (hx : w.get? x = some s) (hanonymous : s.file = none) {t : Sheet}
    (hp : (donor, derived) ∈ d.pairs) (ht : w.get? donor = some t) (hrule : rule ∈ t.inbound)
    (hsheet : w.sheetOf? rule = some x) : ∃ companion node r,
      u.sheetOf? companion = some x ∧ u.doc.parent? companion = u.doc.parent? rule ∧
      v.companionOf? x ⟨donor, derived, rule⟩ = some node ∧
      (u.doc.get? companion).bind Node.params? = node.params? ∧
      u.get? derived = some r ∧ companion ∈ r.inbound := by
  have hlive := (hw.tidy.sheetOf?_eq_some.mp hsheet).1
  have hwhole (host : SheetId) (hp : (x, host) ∈ d.pairs) : False := by
    obtain ⟨q, r, file, attempt, hq, hfile, -⟩ := h.beside.path x host hp
    cases hx.symm.trans hq
    rw [hanonymous] at hfile
    cases hfile
  have hv : v.sheetOf? rule = some x := by
    rcases unmoved_or_carried w settings d.pairs rule with hu | ⟨host, hc⟩
    · rw [h.divided.sheetOf?_unmoved hw.tidy hlive hu, hsheet]
    · obtain ⟨importer, hp, himporter⟩ := hc.donor hw.tidy
      cases hsheet.symm.trans himporter
      exact (hwhole host hp).elim
  have he : (⟨donor, derived, rule⟩ : Errand) ∈ v.errands d.pairs := by
    obtain ⟨t', ht', -, -, hrules, -⟩ := h.authoredImports_eq hw hp
    cases ht.symm.trans ht'
    exact mem_errands.mpr ⟨hp, hrules ▸ hrule⟩
  obtain ⟨home, container, companion, node, hsite, hnode, -, hparent, hparams, hescort⟩ :=
    h.exists_escort hw hat he
  obtain ⟨r, hr, hinbound, -⟩ := hescort.points
  cases hsite with
  | @front importer _ _ himporter hof _ _ =>
    cases hv.symm.trans himporter
    exact (hwhole home ((of?_eq_some h.donors).mp hof)).elim
  | beside himporter _ hcontainer =>
    cases hv.symm.trans himporter
    have hvlive := h.live_rule hw he
    have hrparent : u.doc.parent? rule = some container :=
      (h.accompanied.grown.parent rule hvlive).trans hcontainer
    have htidy := h.accompanied.tidy
    have habove (c : NodeId) (hc : u.doc.parent? c = some container) :
        u.sheetOf? container = u.sheetOf? c :=
      htidy.sheetOf?_within (contains_of_parent? hc) (Within.of_parent hc)
    refine ⟨companion, node, r, ?_, hparent.trans hrparent.symm, hnode, hparams, hr, hinbound⟩
    rw [← habove companion hparent, habove rule hrparent, h.sheetOf?_eq hlive, hv]

/-- **It is named by the specifier of the import with another last name.** -/
theorem namedBySwap (hbase : base.isAbsolute = true)
    (hknown : Resolution.known files specifier base = some file)
    (hsuffix : '/' ∉ settings.suffix.toList)
    (hlong : "css".toList.length < settings.suffix.toList.length)
    (hat : Text.sameCaseless settings.atRule "import" = false) (hx : w.get? x = some s)
    (hanonymous : s.file = none) {t : Sheet} (hp : (donor, derived) ∈ d.pairs)
    (ht : w.get? donor = some t) (hfile : t.file = some file) (hrule : rule ∈ t.inbound)
    (hsheet : w.sheetOf? rule = some x)
    (hwritten : (w.doc.get? rule).bind Node.params? = some written)
    (hspecifier : Css.specifier? written = some specifier) :
    ∃ path r companion, u.get? derived = some r ∧ r.file = some path ∧ companion ∈ r.inbound ∧
      u.NamedBySwap files base x rule written specifier file path companion := by
  obtain ⟨companion, node, r, hhome, hbeside, hnode, hparams, hr, hinbound⟩ :=
    h.beside_of_anonymous hw hat hx hanonymous hp ht hrule hsheet
  obtain ⟨owner, q, path, written', specifier', howner, hq, hpath, hwritten', hspecifier', rfl⟩ :=
    companionOf?_eq_some.mp hnode
  have hlive := (hw.tidy.sheetOf?_eq_some.mp hsheet).1
  rw [h.divided.data rule hlive, hwritten] at hwritten'
  cases hwritten'
  cases hspecifier.symm.trans hspecifier'
  rw [h.divided.original x (Workspace.lt_size hx), hx] at howner
  cases howner
  have hreads : (u.doc.get? companion).bind Node.params? =
      some (Css.plainImport (specifierInImport none path specifier) (Css.importQuote written)) := by
    have hdir : s.dir? = none := by rw [Sheet.dir?, hanonymous]; rfl
    rw [hparams, companionParams, hdir]
    rfl
  obtain ⟨r', hr', hsame⟩ := h.accompanied.get?_of_left hq
  cases hr.symm.trans hr'
  obtain ⟨t', q', file', attempt, ht', hfile', hq', hqfile⟩ := h.beside.path donor derived hp
  cases ht.symm.trans ht'
  cases hfile.symm.trans hfile'
  cases hq.symm.trans hq'
  obtain ⟨hfilled, hleads⟩ := leads_swapped hbase hknown hsuffix hlong
    (slash_not_mem_nameFor w donor file) (Option.some.inj (hpath.symm.trans hqfile))
  refine ⟨path, r, companion, hr, hsame.file.trans hpath, hinbound, hhome, hbeside, hreads,
    fun hliteral => ?_, hleads⟩
  obtain ⟨n, hn, hn'⟩ := Option.bind_eq_some_iff.mp hreads
  refine ⟨n, _, hn, hn', ?_⟩
  rw [Css.specifier?_plainImport (Css.isQuote_importQuote written) hliteral,
    if_neg (by rwa [String.isEmpty_iff])]

end Parted

/-- **A stylesheet without a file imports the derived stylesheet by the specifier with another last
name, and this leads there just when what stands in front of the name leads to the directory of the
donor.** -/
theorem named_by_swap (sources : List (Option FilePath × String)) (files : List FilePath)
    (hbase : base.isAbsolute = true) :
    ∃ u d, ((filled sources).connect (.known files) base).1.afterInheriting.split {} = .ok (u, d) ∧
      NamesBySwap (filled sources) u d files base := by
  have hfresh := fresh_filled sources
  have hfollows := (follows_connect hfresh (.known files) base).afterInheriting
  generalize ((filled sources).connect (.known files) base).1.afterInheriting = w at *
  have hsame := hfollows.same
  have hw := hfollows.recorded hfresh
  obtain ⟨v, u, d, hsplit, h⟩ := exists_parted hw {}
  refine ⟨u, d, hsplit, fun x s donor derived rule written hs hanonymous hpoints hp => ?_⟩
  have hedge := (edge_iff_points hfresh.tidy).mpr ⟨written, hpoints, rfl⟩
  obtain ⟨s', specifier, file, hs', -, hwritten, hspecifier, hknown, hholder⟩ := hpoints
  cases hs.symm.trans hs'
  have hknown : Resolution.known files specifier base = some file := by
    rwa [Sheet.dir?, hanonymous] at hknown
  -- The import points at the donor, and is where it was.
  obtain ⟨t, ht⟩ := get?_isSome.mpr (h.lt_size hp)
  have hrule : rule ∈ t.inbound := (hfollows.inbound donor t ht rule).mpr ⟨x, _, hedge⟩
  obtain ⟨sw, hsw, hsws⟩ := hsame.get?_of_left hs
  have hsheet : w.sheetOf? rule = some x := (hsame.sheetOf? rule).trans (hedge.sheetOf? hfresh.tidy)
  obtain ⟨r, hr, hrfile⟩ := normalize_of_holderOf? hholder
  obtain ⟨t', ht', htr⟩ := hsame.get?_of_left hr
  cases ht.symm.trans ht'
  have hfile : t.file = some file := by
    rw [htr.file, hrfile, Resolution.normalize_of_known hknown]
  obtain ⟨path, r, companion, hr, hpath, hinbound, hnamed⟩ := h.namedBySwap hw hbase hknown
    (by decide +kernel) (by decide +kernel) (by decide +kernel) hsw (hsws.file.trans hanonymous) hp
    ht hfile hrule hsheet (hsame.doc ▸ hwritten) hspecifier
  exact ⟨specifier, file, path, r, companion, hspecifier, hknown, hr, hpath, hinbound, hnamed⟩

/-- A stylesheet without a file that imports another by `specifier`. -/
def anonymousImport (specifier : String) : List (Option FilePath × String) :=
  [(none, "@import '" ++ specifier ++ "' layer(utilities);"),
    (some ⟨"/p/lib/index.css"⟩, "h1 {}\n@utility foo { color: red }")]

def indexFiles : List FilePath := [⟨"/p/lib/index.css"⟩]

/-- The derived stylesheet is `path`, and the stylesheet without a file imports it by `specifier`. -/
def importsDerived (path : FilePath) (specifier : String) (w u : Workspace) (d : Derivations) : Bool :=
  match w.get? 0, u.get? 2 with
  | some s, some t => s.file == none && d.pairs == [(1, 2)] && t.file == some path &&
      t.inbound.any fun rule => u.sheetOf? rule == some 0 &&
        ((u.doc.get? rule).bind Node.params?).bind Css.specifier? == some specifier
  | _, _ => false

/-- With the name of the file in the specifier the exchanged name leads to the derived stylesheet. -/
theorem named_by_swap_in_full : FilePath.isAbsolute ⟨"/p"⟩ = true ∧ ∃ w u d,
    ((filled (anonymousImport "./lib/index.css")).connect (.known indexFiles)
      ⟨"/p"⟩).1.afterInheriting = w ∧ w.split {} = .ok (u, d) ∧
    importsDerived ⟨"/p/lib/index.utilities.css"⟩ "./lib/index.utilities.css" w u d = true ∧
    NamesBySwap (filled (anonymousImport "./lib/index.css")) u d indexFiles ⟨"/p"⟩ := by
  have hrun : splitsWith (anonymousImport "./lib/index.css") (.known indexFiles) ⟨"/p"⟩ {}
      (importsDerived ⟨"/p/lib/index.utilities.css"⟩ "./lib/index.utilities.css") = true := by
    decide +kernel
  have hbase : FilePath.isAbsolute ⟨"/p"⟩ = true := rfl
  obtain ⟨table, w, u, d, hl, hsplit, hcheck⟩ := exists_of_splitsWith hrun
  obtain ⟨u', d', hsplit', h⟩ := named_by_swap (anonymousImport "./lib/index.css") indexFiles hbase
  rw [afterInheriting_eq hl] at hsplit'
  cases hsplit.symm.trans hsplit'
  exact ⟨hbase, w, u, d, afterInheriting_eq hl, hsplit, hcheck, h⟩

theorem exists_of_importsDerived (h : importsDerived path specifier w u d = true) :
    ∃ s t companion, w.get? 0 = some s ∧ s.file = none ∧ (1, 2) ∈ d.pairs ∧ u.get? 2 = some t ∧
      t.file = some path ∧ companion ∈ t.inbound ∧ u.sheetOf? companion = some 0 ∧
      u.doc.Says companion specifier := by
  unfold importsDerived at h
  split at h
  · next s t hs ht =>
    simp only [Bool.and_eq_true, beq_iff_eq, List.any_eq_true] at h
    obtain ⟨⟨⟨hfile, hpairs⟩, hpath⟩, companion, hinbound, hhome, hsays⟩ := h
    obtain ⟨params, hparams, hspecifier⟩ := Option.bind_eq_some_iff.mp hsays
    obtain ⟨n, hn, hn'⟩ := Option.bind_eq_some_iff.mp hparams
    exact ⟨s, t, companion, hs, hfile, by rw [hpairs]; exact List.mem_singleton_self _, ht, hpath,
      hinbound, hhome, n, params, hn, hn', hspecifier⟩
  · cases h

/-- Where the specifier is that of a directory with an index, the exchanged name is beside the
directory. -/
theorem not_always_leading : ¬ ∀ (sources : List (Option FilePath × String)) (base : FilePath)
    (table : List (List SheetId)) (w u : Workspace) (d : Derivations),
    (∀ file ∈ sources.filterMap Prod.fst, file.isAbsolute = true) → base.isAbsolute = true →
    ((filled sources).connect (.known (sources.filterMap Prod.fst)) base).1.inheritLayers =
      .ok (table, w) → w.split {} = .ok (u, d) →
    ∀ x s donor derived t path companion specifier, w.get? x = some s → s.file = none →
      (donor, derived) ∈ d.pairs → u.get? derived = some t → t.file = some path →
      companion ∈ t.inbound → u.sheetOf? companion = some x → u.doc.Says companion specifier →
      Resolution.known (path :: sources.filterMap Prod.fst) specifier base = some path := by
  intro hall
  have hrun : splitsWith (anonymousImport "./lib") (.known indexFiles) ⟨"/p"⟩ {}
      (importsDerived ⟨"/p/lib/lib.utilities.css"⟩ "./lib.utilities.css") = true := by
    decide +kernel
  obtain ⟨table, w, u, d, hl, hsplit, hcheck⟩ := exists_of_splitsWith hrun
  obtain ⟨s, t, companion, hs, hfile, hp, ht, hpath, hinbound, hhome, hsays⟩ :=
    exists_of_importsDerived hcheck
  have hleads := hall (anonymousImport "./lib") ⟨"/p"⟩ table w u d (by decide) rfl hl hsplit 0 s 1 2 t
    _ companion _ hs hfile hp ht hpath hinbound hhome hsays
  revert hleads
  decide +kernel

end Strata.Workspace
