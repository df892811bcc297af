import Strata.Proofs.Migration.PlainImports
import Strata.Proofs.Migration.Traces

/-! Where a split puts files and imports.

A derived stylesheet has its file beside that of its donor, so every import is read in the directory
it was read in before. There a companion names its target, and what it remembers resolves as before
to the donor it was made for. -/
namespace Strata

open FilePath Component

/-- `t` has a file made for a derived stylesheet, in the directory of the file of `s`. -/
def Sheet.DerivedBeside (s t : Sheet) : Prop :=
  ∃ names name own, (∀ x ∈ names ++ [name], Named x ∧ ¬ Dotted x) ∧
    s.file = some (ofNames (names ++ [name])) ∧ Named own ∧ ¬ Dotted own ∧ Marked own ∧
    t.file = some (ofNames (names ++ [own]))

theorem Sheet.DerivedBeside.dir {s t : Sheet} (h : s.DerivedBeside t) : t.dir? = s.dir? := by
  obtain ⟨names, name, own, hnames, hs, hown, -, -, ht⟩ := h
  have hfront : ∀ x ∈ names, Named x := fun x hx => (hnames x (List.mem_append_left _ hx)).1
  rw [Sheet.dir?, Sheet.dir?, hs, ht]
  exact (parent?_ofNames (FilePath.named_append hfront hown)).trans
    (parent?_ofNames fun x hx => (hnames x hx).1).symm

namespace Workspace

open Forest

variable {w v u : Workspace} {settings : Settings} {d : Derivations} {files : List FilePath}

/-! ### Files -/

/-- What is asked of a workspace and of the suffix of derived names so that imports lead somewhere. -/
structure Sited (w : Workspace) (settings : Settings) (files : List FilePath) : Prop where
  analysed : w.Analysed
  rooted : w.Rooted
  traced : w.Traced (.known files)
  literal : w.Literal
  suffix : Css.Literal settings.suffix
  /-- No directory is in the suffix. -/
  bare : '/' ∉ settings.suffix.toList
  /-- The suffix is no extension that is inferred. -/
  long : ".css".toList.length < settings.suffix.toList.length

section derived

variable (h : Parted w settings d v u) (hw : w.Sited settings files)

include hw in
/-- A donor goes by a proper name that does not start like the way up. -/
theorem proper_nameFor {donor : SheetId} {s : Sheet} {file : FilePath} (hs : w.get? donor = some s)
    (hfile : s.file = some file) :
    w.nameFor donor file ≠ "" ∧ w.nameFor donor file ≠ "." ∧ ¬ Dotted (w.nameFor donor file) := by
  obtain ⟨names, name, hnames, hrootfile⟩ := hw.rooted donor s hs
  cases hfile.symm.trans hrootfile
  have hnamed : ∀ x ∈ names ++ [name], Named x := fun x hx => (hnames x hx).1
  rcases hw.analysed.nameFor_cases hs (ofNames (names ++ [name])) with
    ⟨rule, n, params, specifier, hr, hn, -, hparams, hspecifier, heq, hempty, hdot, hdots⟩ | heq
  · refine ⟨hempty, hdot, fun hdotted => ?_⟩
    obtain ⟨path, hpath, dir, specifier', hdir, ⟨n', params', hn', hparams', hspecifier'⟩, hknown⟩ :=
      hw.traced donor s rule hs hr
    cases hn.symm.trans hn'
    cases hparams.symm.trans hparams'
    cases hspecifier.symm.trans hspecifier'
    cases hfile.symm.trans hpath
    obtain ⟨id, t, -, ht, htdir⟩ := dirOf?_eq_some.mp hdir
    obtain ⟨start, -, hstart⟩ := hw.rooted.dir ht
    cases htdir.symm.trans hstart
    rw [heq] at hempty hdot hdots hdotted
    have hcomponent : component? (specifierName specifier).toList =
        some (.name (specifierName specifier)) := by
      rw [← String.toList_inj.ne] at hempty hdot hdots
      simp only [component?, show (specifierName specifier).toList ≠ [] from hempty,
        show (specifierName specifier).toList ≠ ['.'] from hdot,
        show (specifierName specifier).toList ≠ ['.', '.'] from hdots, or_self, if_false,
        String.ofList_toList]
    exact Resolution.not_dottedPath_ofNames hnames
      (Resolution.dottedPath_of_known (isAbsolute_ofNames start) hknown hcomponent hdotted)
  · rw [heq, fileName?_ofNames hnamed, Option.getD_some]
    obtain ⟨hname, hdots⟩ := hnames name (List.mem_append_right _ (List.mem_singleton_self _))
    refine ⟨?_, ?_, hdots⟩
    · rintro rfl
      exact hname.2.1 rfl
    · rintro rfl
      exact hname.2.2.1 rfl

include h hw

/-- **A derived stylesheet has a file of its own beside that of its donor.** -/
theorem Parted.derivedBeside {donor derived : SheetId} {s t : Sheet}
    (hp : (donor, derived) ∈ d.pairs) (hs : w.get? donor = some s) (ht : u.get? derived = some t) :
    s.DerivedBeside t := by
  obtain ⟨s', r, file, attempt, hs', hfile, hr, hrfile⟩ := h.beside.path donor derived hp
  cases hs.symm.trans hs'
  obtain ⟨r', hr', hrt⟩ := h.accompanied.sheet derived t ht
  cases hr.symm.trans hr'
  obtain ⟨hempty, hdot, hdots⟩ := proper_nameFor hw hs hfile
  obtain ⟨names, name, hnames, hrootfile⟩ := hw.rooted donor s hs
  cases hfile.symm.trans hrootfile
  have hnamed : ∀ x ∈ names ++ [name], Named x := fun x hx => (hnames x hx).1
  have hmarked : Marked (derivedName _ _ (ofNames (names ++ [name])).extension? _) :=
    marked_derivedName hempty hw.long attempt
  have hown : Named (derivedName (w.nameFor donor (ofNames (names ++ [name]))) settings.suffix
      (ofNames (names ++ [name])).extension? attempt) :=
    named_derivedName (slash_not_mem_nameFor w donor _) hw.bare (Nat.lt_trans (by decide) hw.long)
      (fun _ => slash_not_mem_extension) attempt
  refine ⟨names, name, _, hnames, hrootfile, hown, not_dotted_derivedName hempty hdot hdots attempt,
    hmarked, ?_⟩
  have hfold : (ofNames names).inner.foldl fold [.root] = stacked names := by
    rw [inner_ofNames fun x hx => hnamed x (List.mem_append_left _ hx)]
    exact foldl_names_stacked [] names
  rw [hrt.file, hrfile, derivedPath, parent?_ofNames hnamed, Option.getD_some,
    normalize_join_name (isAbsolute_ofNames names) hown hfold]

/-! ### Directories -/

/-- **Nodes stay in their directories.** -/
theorem Parted.dirOf?_eq {x : NodeId} (hx : w.doc.contains x = true) : u.dirOf? x = w.dirOf? x := by
  unfold dirOf?
  rcases unmoved_or_carried w settings d.pairs x with hu | ⟨derived, hc⟩
  · rw [h.sheetOf?_unmoved hw.analysed hx hu]
    cases hid : w.sheetOf? x with
    | none => rfl
    | some id =>
      obtain ⟨-, s, hs, -⟩ := hw.analysed.tidy.sheetOf?_eq_some.mp hid
      simp only [Option.bind_some, h.original (Workspace.lt_size hs)]
  · obtain ⟨donor, hp, hdonor⟩ := hc.donor hw.analysed.tidy
    obtain ⟨-, s, hs, -⟩ := hw.analysed.tidy.sheetOf?_eq_some.mp hdonor
    obtain ⟨t, ht⟩ := get?_isSome.mpr (h.size ▸ (h.divided.pair donor derived hp).2)
    rw [h.sheetOf?_carried hw.analysed hx hc, hdonor, Option.bind_some, Option.bind_some, ht, hs]
    exact (h.derivedBeside hw hp hs ht).dir

/-- Companions are in the directories of the imports that they were made for. -/
theorem Parted.dir_home {rule : NodeId} {derived home : SheetId}
    (hhome : v.companionHome d derived rule = some home) (hx : w.doc.contains rule = true) :
    (u.get? home).bind Sheet.dir? = w.dirOf? rule := by
  obtain ⟨x, s, hsheet, hs, -⟩ := hw.analysed.tidy.exists_sheetOf? hx
  have hdir : w.dirOf? rule = s.dir? := by rw [dirOf?, hsheet, Option.bind_some, hs, Option.bind_some]
  rcases h.companionHome_cases hw.analysed hsheet hhome with hc | ⟨-, ⟨hp, -⟩ | ⟨rfl, -⟩⟩
  · rw [← h.dirOf?_eq hw hx, dirOf?, h.sheetOf?_carried hw.analysed hx hc,
      Option.bind_some]
  · obtain ⟨t, ht⟩ := get?_isSome.mpr (h.size ▸ (h.divided.pair x home hp).2)
    rw [hdir, ht]
    exact (h.derivedBeside hw hp hs ht).dir
  · rw [h.original (Workspace.lt_size hs), hs, hdir]
    rfl

/-- Every stylesheet has a file in a directory still. -/
theorem Parted.rooted : u.Rooted := by
  intro id t ht
  by_cases hid : id < w.sheets.size
  · exact hw.rooted id t (h.original hid ▸ ht)
  · obtain ⟨donor, hp⟩ := h.beside.donor id (Nat.le_of_not_lt hid)
      (h.size ▸ Workspace.lt_size ht)
    obtain ⟨s, hs⟩ := get?_isSome.mpr (h.lt_size hp)
    obtain ⟨names, name, own, hnames, -, hown, hdots, -, hfile⟩ :=
      h.derivedBeside hw hp hs ht
    refine ⟨names, own, fun x hx => ?_, hfile⟩
    rcases List.mem_append.mp hx with hx | hx
    · exact hnames x (List.mem_append_left _ hx)
    · rw [List.mem_singleton.mp hx]
      exact ⟨hown, hdots⟩

/-! ### Companions -/

/-- A companion remembers an import of a donor, which resolves to the file of that in its directory. -/
theorem Parted.remembers {c : NodeId} {n : Node} {origin : Origin}
    (hn : u.doc.get? c = some n) (horigin : n.origin = some origin) :
    ∃ dir s path, u.dirOf? c = some dir ∧ w.get? origin.sheet = some s ∧ s.file = some path ∧
      Resolution.known files origin.specifier dir = some path := by
  have hlive := contains_iff_get?.mpr ⟨n, hn⟩
  have hnew : v.doc.contains c = false := by
    by_contra hold
    rw [Bool.not_eq_false] at hold
    rw [h.accompanied.grown.data c hold] at hn
    rw [h.divided.origin hw.analysed.origin c n hn] at horigin
    cases horigin
  obtain ⟨donor, derived, rule, home, node, hcommission, hhome, hdata⟩ := h.worded.node c hlive hnew
  cases hn.symm.trans hdata
  obtain ⟨s, hs, hrule⟩ := hcommission.served
  rw [h.divided.original donor (h.lt_size hcommission.pair)] at hs
  obtain ⟨r, q, target, written, specifier, -, -, -, hwritten, hspecifier, rfl⟩ := hcommission.worded
  cases horigin
  obtain ⟨path, hfile, dir, specifier', hdir, ⟨m, params, hm, hparams, hsays⟩, hknown⟩ :=
    hw.traced donor s rule hs hrule
  have hwlive := contains_iff_get?.mpr ⟨m, hm⟩
  rw [h.divided.data rule hwlive, hm, Option.bind_some, hparams] at hwritten
  cases hwritten
  cases hspecifier.symm.trans hsays
  refine ⟨dir, s, path, ?_, hs, hfile, hknown⟩
  rw [dirOf?, hhome, Option.bind_some,
    h.dir_home hw hcommission.serves hwlive, hdir]

/-- **A companion names the file of its stylesheet by the way from its directory.** -/
theorem Parted.companion_says {id : SheetId} {t : Sheet} {c : NodeId} (hid : w.sheets.size ≤ id)
    (ht : u.get? id = some t) (hc : c ∈ t.inbound) : ∃ dir path, u.dirOf? c = some dir ∧
      t.file = some path ∧ u.doc.Says c (specifierTo dir path) := by
  have hrootedu := h.rooted hw
  obtain ⟨hnew, -⟩ := h.companion_cases hid ht hc
  obtain ⟨donor, rule, home, node, n, hcommission, hhome, hn, hparams⟩ := h.worded.inbound id t c ht hc hnew
  obtain ⟨r, q, target, written, specifier, hr, hq, htarget, -, -, rfl⟩ := hcommission.worded
  obtain ⟨q', hq', hsame⟩ := h.accompanied.sheet id t ht
  cases hq.symm.trans hq'
  obtain ⟨r', hr', hrr⟩ := h.accompanied.get?_of_left hr
  obtain ⟨start, hstart, hdir⟩ := hrootedu.dir hr'
  obtain ⟨names, name, hnames, hfile⟩ := hrootedu id t ht
  cases hfile.symm.trans (hsame.file.trans htarget)
  have hrdir : r.dir? = some (ofNames start) := by
    rw [← hdir, Sheet.dir?, Sheet.dir?, hrr.file]
  refine ⟨ofNames start, _, dirOf?_eq_some.mpr ⟨home, r', hhome, hr', hdir⟩, hfile, n, _, hn,
    hparams, ?_⟩
  have hplace := FilePath.uses_specifierTo (p := ofNames start) Css.joining_isLiteral
    (h.literal_derived hw.analysed hw.literal hw.suffix hcommission.pair hq htarget)
  rw [companionParams, hrdir, specifierInImport,
    Css.specifier?_plainImport (Css.isQuote_importQuote written) hplace, if_neg]
  rw [String.isEmpty_iff, specifierTo_ofNames hstart fun x hx => (hnames x hx).1]
  exact written_ne_empty _

/-- An import points at one stylesheet. -/
theorem Parted.inbound_unique (hb : Branched w d.pairs u) {id id' : SheetId} {t t' : Sheet}
    {c : NodeId} (hid : w.sheets.size ≤ id) (ht : u.get? id = some t) (ht' : u.get? id' = some t')
    (hc : c ∈ t.inbound) (hc' : c ∈ t'.inbound) : id = id' := by
  have hrootedu := h.rooted hw
  obtain ⟨hnew, -⟩ := h.companion_cases hid ht hc
  have hid' : w.sheets.size ≤ id' := by
    by_contra hlt
    rw [Nat.not_le] at hlt
    rcases h.inbound_cases hw.analysed ht' hc' with ⟨-, -, hlive⟩ | ⟨-, -, donor, hp⟩
    · rw [(h.divided.live c).mpr (Or.inl hlive)] at hnew
      cases hnew
    · exact absurd hlt (Nat.not_lt.mpr (h.divided.pair donor id' hp).1)
  obtain ⟨dir, path, hdir, hfile, n, params, hn, hparams, hspecifier⟩ :=
    h.companion_says hw hid ht hc
  obtain ⟨dir', path', hdir', hfile', n', params', hn', hparams', hspecifier'⟩ :=
    h.companion_says hw hid' ht' hc'
  cases hdir.symm.trans hdir'
  cases hn.symm.trans hn'
  cases hparams.symm.trans hparams'
  have hspecifiers := Option.some.inj (hspecifier.symm.trans hspecifier')
  obtain ⟨home, r, -, hr, hrdir⟩ := dirOf?_eq_some.mp hdir
  obtain ⟨start, hstart, hstartdir⟩ := hrootedu.dir hr
  cases hrdir.symm.trans hstartdir
  obtain ⟨-, place, hholds, -⟩ := hb.fresh id t hid ht
  cases hholds.file.symm.trans hfile
  obtain ⟨-, place', hholds', -⟩ := hb.fresh id' t' hid' ht'
  cases hholds'.file.symm.trans hfile'
  refine hb.oneHolder id id' t t' path ht ht' hholds ?_
  obtain ⟨names, name, hnames, hroot⟩ := hrootedu id t ht
  cases hfile.symm.trans hroot
  obtain ⟨names', name', hnames', hroot'⟩ := hrootedu id' t' ht'
  cases hfile'.symm.trans hroot'
  have hgoal := normalize_join_specifierTo hstart fun x hx => (hnames x hx).1
  have hgoal' := normalize_join_specifierTo hstart fun x hx => (hnames' x hx).1
  rw [hspecifiers, hgoal'] at hgoal
  exact hgoal ▸ hholds'

end derived

end Workspace

end Strata
