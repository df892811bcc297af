import Strata.Proofs.Css.ImportParams
import Strata.Proofs.Migration.Files
import Strata.Proofs.Migration.Survival
import Strata.Proofs.Path.Uses

/-! Imports of utilities are plain.

Derived stylesheets are imported by companions only. A companion is made with a
specifier in quotes, and when its target takes over a path another specifier goes
into the same quotes, so all that a migration adds stays plain (`Additions`). A
stylesheet that keeps utilities in a layer that is split was not split, and the
reason can only be that it was plainly imported before. -/
namespace Strata

/-- Paths are joined with characters that stand for themselves between quotes. -/
theorem Css.joining_isLiteral : FilePath.Joining Css.isLiteral where
  slash := by decide
  dot := by decide
  digit c hc := by
    rw [Css.isLiteral_iff]
    refine ⟨?_, ?_⟩
    · rw [← Bool.not_eq_true, Css.isQuote_iff]
      rintro (rfl | rfl) <;> revert hc <;> decide
    · rintro rfl
      revert hc
      decide

/-- A plain import which remembers a specifier that can be put in quotes. -/
structure Node.Plain (n : Node) : Prop where
  params : ∃ params, n.params? = some params ∧ Css.Quoted params
  origin : ∃ origin, n.origin = some origin ∧ Css.Literal origin.specifier

namespace Workspace

open Forest

variable {w v u z : Workspace} {settings : Settings} {d : Derivations}
  {pairs : List (SheetId × SheetId)}

/-- No path, and no specifier of an import, has a quote or a backslash. -/
structure Literal (w : Workspace) : Prop where
  file : ∀ id s path, w.get? id = some s → s.file = some path → Css.Literal path.text
  specifier : ∀ x n params specifier, w.doc.get? x = some n → n.isImportRule = true →
    n.params? = some params → Css.specifier? params = some specifier → Css.Literal specifier

/-- What a migration has added is plain, and so will be what names the path of a donor. -/
structure Additions (pairs : List (SheetId × SheetId)) (u : Workspace) : Prop where
  donor : ∀ donor derived s path, (donor, derived) ∈ pairs → u.get? donor = some s →
    s.file = some path → Css.Literal path.text
  added : ∀ x n, u.doc.get? x = some n → n.isAdded = true → n.Plain

/-! ### The split -/

section split

variable (h : Parted w settings d v u) (hw : w.Analysed) (hliteral : w.Literal)
  (hsuffix : Css.Literal settings.suffix)
include h hw hliteral hsuffix

/-- The path of a derived stylesheet is put together from paths and specifiers. -/
theorem Parted.literal_derived {donor derived : SheetId} {t : Sheet} {path : FilePath}
    (hp : (donor, derived) ∈ d.pairs) (ht : v.get? derived = some t) (hfile : t.file = some path) :
    Css.Literal path.text := by
  have hok := Css.joining_isLiteral
  obtain ⟨s, t', file, attempt, hs, hf, ht', hplace⟩ := h.beside.path donor derived hp
  rw [ht] at ht'
  cases ht'
  have hpath := Option.some.inj (hfile.symm.trans hplace)
  have hfileLiteral := hliteral.file donor s file hs hf
  have hname : Css.Literal (w.nameFor donor file) := by
    rcases hw.nameFor_cases hs file with
      ⟨rule, n, params, specifier, -, hdata, himport, hparams, hspecifier, heq, -⟩ | heq
    · rw [heq]
      exact FilePath.uses_specifierName (hliteral.specifier rule n params specifier hdata himport
        hparams hspecifier)
    · rw [heq]
      cases hfn : file.fileName? with
      | none => exact Text.uses_nil
      | some name => exact FilePath.uses_fileName? hok hfileLiteral hfn
  have hdir : Css.Literal (file.parent?.getD ⟨""⟩).text := by
    cases hd : file.parent? with
    | none => exact Text.uses_nil
    | some dir => exact FilePath.uses_parent? hok hfileLiteral hd
  rw [hpath]
  exact FilePath.uses_normalize hok (FilePath.uses_join hok hdir (FilePath.uses_derivedName
    hok.dot hok.digit hname hsuffix (fun ext hext => FilePath.uses_extension? hok hfileLiteral hext) attempt))

theorem Parted.additions : Additions d.pairs u where
  donor donor derived s path hp hs hfile := by
    rw [h.original (h.lt_size hp)] at hs
    exact hliteral.file donor s path hs hfile
  added x n hx hadded := by
    have hlive := contains_iff_get?.mpr ⟨n, hx⟩
    cases hold : v.doc.contains x with
    | true =>
      rw [h.accompanied.grown.data x hold] at hx
      rw [Node.isAdded, h.divided.origin hw.origin x n hx] at hadded
      cases hadded
    | false =>
      obtain ⟨donor, derived, rule, home, node, hcommission, -, hdata⟩ := h.worded.node x hlive hold
      rw [hx] at hdata
      cases hdata
      obtain ⟨t, r, target, written, specifier, -, hr, htarget, hwritten, hspecifier, rfl⟩ :=
        hcommission.worded
      have hliteralSpecifier : Css.Literal specifier := by
        obtain ⟨s, hs, hrule⟩ := hcommission.served
        rw [h.divided.original donor (h.lt_size hcommission.pair)] at hs
        obtain ⟨m, _, _, hdata, himport, -⟩ := (hw.rule donor s rule hs hrule).1.readable
        rw [h.divided.data rule (contains_iff_get?.mpr ⟨m, hdata⟩), hdata] at hwritten
        exact hliteral.specifier rule m written specifier hdata himport hwritten hspecifier
      have hplace := h.literal_derived hw hliteral hsuffix hcommission.pair hr htarget
      exact ⟨⟨_, rfl, Css.quoted_plainImport (FilePath.uses_specifierInImport Css.joining_isLiteral
        t.dir? hplace hliteralSpecifier) written⟩, _, rfl, hliteralSpecifier⟩

end split

/-! ### The cleanup -/

theorem Additions.pruned (h : Additions pairs u) (hp : Pruned u w) : Additions pairs w where
  donor donor derived s path hpair hs hfile := by
    obtain ⟨r, hr, rfl | rfl⟩ := hp.sheet donor s hs
    · exact h.donor donor derived _ path hpair hr hfile
    · exact h.donor donor derived r path hpair hr hfile
  added x n hx := by
    rw [hp.data x (contains_iff_get?.mpr ⟨n, hx⟩)] at hx
    exact h.added x n hx

/-- An import that was plain names the path of a donor, or the specifier it remembers. -/
theorem Additions.readdress (h : Additions pairs w) {file : FilePath} (hfile : Css.Literal file.text)
    (donor : SheetId) (rule : NodeId) : Additions pairs (readdress donor file w rule) := by
  unfold Workspace.readdress
  simp only
  split
  · exact h
  · next changed hchanged =>
    refine ⟨h.donor, fun x n hx hadded => ?_⟩
    replace hx : Forest.get? (w.doc.update rule (Node.withParams changed)) x = some n := hx
    rw [get?_update] at hx
    split at hx
    · next heq =>
      subst heq
      obtain ⟨m, hm, rfl⟩ := Option.map_eq_some_iff.mp hx
      rw [Node.isAdded_withParams] at hadded
      obtain ⟨⟨params, hparams, hquoted⟩, origin, horigin, hremembered⟩ := h.added x m hm hadded
      simp only [hm, Option.bind_eq_bind, Option.bind_some, hparams, horigin] at hchanged
      obtain ⟨current, hcurrent, hreplaced⟩ := Option.bind_eq_some_iff.mp hchanged
      have hnew : Css.Quoted changed := by
        refine hquoted.replaceTarget? ?_ hreplaced
        split
        · exact hremembered
        · exact FilePath.uses_specifierInImport Css.joining_isLiteral _ hfile
            (hquoted.literal_specifier hcurrent)
      rcases m with ⟨form, span, _⟩
      cases form with
      | atRule name old block => exact ⟨⟨changed, rfl, hnew⟩, origin, horigin, hremembered⟩
      | _ => cases hparams
    · exact h.added x n hx hadded

theorem Additions.foldl_readdress (h : Additions pairs w) {file : FilePath}
    (hfile : Css.Literal file.text) (donor : SheetId) (rules : List NodeId) :
    Additions pairs (rules.foldl (Workspace.readdress donor file) w) := by
  induction rules generalizing w with
  | nil => exact h
  | cons rule rules ih => exact ih (h.readdress hfile donor rule)

theorem Additions.takeOver {state : Workspace × Cleanup} (h : Additions pairs state.1)
    {pair : SheetId × SheetId} (hpair : pair ∈ pairs) :
    Additions pairs (Workspace.takeOver state pair).1 := by
  obtain ⟨donor, derived⟩ := pair
  rcases takeOver_cases state donor derived with heq | ⟨o, t, file, next, hnext, heq⟩
  · rw [heq]
    exact h
  · rw [heq]
    have hfile := h.donor donor derived o file hpair hnext.giver hnext.vacant
    have hall := h.foldl_readdress hfile donor t.inbound
    obtain ⟨hdoc, -, -⟩ := assignFile_ok hnext.assigned
    refine ⟨fun x y s path hxy hs hpath => ?_, fun x n hx => ?_⟩
    · rw [get?_assignFile hnext.assigned] at hs
      obtain ⟨r, hr, rfl⟩ := Option.map_eq_some_iff.mp hs
      split at hpath
      · rw [← Option.some.inj hpath]
        exact FilePath.uses_normalize Css.joining_isLiteral hfile
      · refine hall.donor x y r path hxy hr ?_
        split at hpath <;> exact hpath
    · rw [hdoc] at hx
      exact hall.added x n hx

/-- A cleanup keeps additions plain. -/
theorem Additions.cleanUp (h : Additions d.pairs u) (hu : u.Standing) :
    Additions d.pairs (u.cleanUp d).1 := by
  have hrun : ∀ (todo : List (SheetId × SheetId)) (state : Workspace × Cleanup), todo ⊆ d.pairs →
      Additions d.pairs state.1 → Additions d.pairs (todo.foldl Workspace.takeOver state).1 := by
    intro todo
    induction todo with
    | nil => exact fun _ _ hstate => hstate
    | cons pair todo ih =>
      intro state hsub hstate
      exact ih _ (fun _ hm => hsub (List.mem_cons_of_mem _ hm))
        (hstate.takeOver (hsub (List.mem_cons_self ..)))
  exact hrun d.pairs _ (fun _ hm => hm) (h.pruned (pruned_discardEmptied hu _ _ (pruned_refl hu)))

/-! ### Stylesheets that keep utilities -/

/-- The tree of a stylesheet has an at-rule that is split off. -/
def HoldsUtility (w : Workspace) (settings : Settings) (id : SheetId) : Prop :=
  ∃ x, w.sheetOf? x = some id ∧ (w.doc.get? x).any (Node.isAt settings.atRule) = true

theorem isRoot_of_isAt {n : Node} {name : String} (h : n.isAt name = true) : n.isRoot = false := by
  rcases n with ⟨form, span, origin⟩
  cases form with
  | root => cases h
  | _ => rfl

/-- Such an at-rule is a utility or within one. -/
theorem exists_utility_above (hw : w.Tidy) {id : SheetId} {x : NodeId} (hx : w.sheetOf? x = some id)
    (hat : (w.doc.get? x).any (Node.isAt settings.atRule) = true) :
    ∃ top ∈ w.utilities settings id, w.doc.Within top x := by
  obtain ⟨hlive, s, hs, hwithin⟩ := hw.sheetOf?_eq_some.mp hx
  have hbelow : w.doc.Below s.root x := by
    refine (within_iff.mp hwithin).resolve_left ?_
    rintro rfl
    obtain ⟨n, hn, hname⟩ := (Option.any_eq_true _ _).mp hat
    have hroot := (Document.Tidy.form hw s.root n hn).mpr (root_mem_roots hs)
    rw [isRoot_of_isAt hname] at hroot
    cases hroot
  unfold utilities
  rw [hs]
  exact hw.wellFormed.exists_outermost hbelow hat

namespace Migrated

variable (h : Migrated w settings d v u z)
  (hat : Text.sameCaseless settings.atRule "import" = false)
include h hat

/-- A stylesheet that was there and holds a utility still was not split. -/
theorem not_splits {id : SheetId} (hid : id < w.sheets.size) (hutility : z.HoldsUtility settings id) :
    w.utilities settings id ≠ [] ∧ ¬ w.Splits settings id := by
  obtain ⟨x, hx, hname⟩ := hutility
  obtain ⟨hzlive, -⟩ := h.cleaned.tidy.sheetOf?_eq_some.mp hx
  have hulive := h.cleaned.thinned.live_before hzlive
  have huname : (u.doc.get? x).any (Node.isAt settings.atRule) = true := by
    rcases h.cleaned.data x hzlive with heq | ⟨-, n, params, hn, hz⟩
    · rwa [heq] at hname
    · rw [hz, Option.any_some, Node.isAt_withParams] at hname
      rw [hn, Option.any_some, hname]
  obtain ⟨n, hn, hnat⟩ := (Option.any_eq_true _ _).mp huname
  -- It is no companion, as that is an import, and no new root.
  have hwlive : w.doc.contains x = true := by
    cases hvlive : v.doc.contains x with
    | false =>
      obtain ⟨⟨m, hm, himport, -⟩, -⟩ := h.parted.accompanied.added x hulive hvlive
      rw [hn] at hm
      cases hm
      rw [isImportRule_of_isAt hat hnat] at himport
      cases himport
    | true =>
      refine ((h.parted.divided.live x).mp hvlive).resolve_right ?_
      rintro ⟨y, t, hy, ht, rfl⟩
      rw [h.parted.accompanied.grown.data _ hvlive, h.parted.divided.form y t hy ht] at hn
      cases hn
      cases hnat
  rw [h.cleaned.sheetOf?_eq h.tidy_split hzlive] at hx
  have hunmoved : w.Unmoved settings d.pairs x := by
    refine (unmoved_or_carried w settings d.pairs x).resolve_right ?_
    rintro ⟨derived, hc⟩
    rw [h.parted.sheetOf?_carried h.analysed hwlive hc] at hx
    cases hx
    obtain ⟨donor, hp, -⟩ := hc.donor h.analysed.tidy
    exact absurd hid (Nat.not_lt.mpr (h.parted.divided.pair donor id hp).1)
  rw [h.parted.sheetOf?_unmoved h.analysed hwlive hunmoved] at hx
  rw [h.parted.data hwlive] at huname
  obtain ⟨top, htop, hwithin⟩ := exists_utility_above h.analysed.tidy hx huname
  refine ⟨List.ne_nil_of_mem htop, fun hs => ?_⟩
  obtain ⟨derived, hp⟩ := h.parted.exists_derived h.analysed hs
  have hmoved := hunmoved top hwithin
  rw [isMoved_iff.mpr ⟨id, derived, hp, htop⟩] at hmoved
  cases hmoved

/-- What was not split has only plain imports. -/
theorem plain_import {id : SheetId} {s : Sheet} {rule : NodeId} (hs : w.get? id = some s)
    (hlayers : s.meetsLayers settings.layers = true) (hutility : z.HoldsUtility settings id)
    (hr : rule ∈ s.inbound) :
    ∃ n params, w.doc.get? rule = some n ∧ n.params? = some params ∧ isPlainImport params = true := by
  obtain ⟨hne, hwhole⟩ := h.not_splits hat (lt_size hs) hutility
  have hcan : w.CanSplit settings id := by
    refine ⟨?_, hne⟩
    obtain ⟨hkept, hderived⟩ := h.analysed.plain id s hs
    have hfile := (h.analysed.rule id s rule hs hr).2
    rw [isEligible, hs, Option.any_some, hfile, hkept, hderived, hlayers]
    rfl
  have hself : w.IsSelfContained settings id := by
    by_contra hno
    exact hwhole (.mixed hcan hno)
  rw [IsSelfContained, Bool.and_eq_true] at hself
  have hplain := hself.2
  rw [isPlainlyImported, h.analysed.authoredImports_eq hs] at hplain
  obtain ⟨params, hparams, hplain⟩ := (Option.any_eq_true _ _).mp (List.all_eq_true.mp hplain rule hr)
  obtain ⟨n, hn, hparams⟩ := Option.bind_eq_some_iff.mp hparams
  exact ⟨n, params, hn, hparams, hplain⟩

omit hat in
/-- A companion that is left is an added import. -/
theorem isAdded_companion {rule : NodeId} (hnew : v.doc.contains rule = false)
    (hlive : u.doc.contains rule = true) {n : Node} (hn : z.doc.get? rule = some n) :
    n.isAdded = true := by
  obtain ⟨⟨m, hm, -, hadded⟩, -⟩ := h.parted.accompanied.added rule hlive hnew
  rcases h.cleaned.data rule (contains_iff_get?.mpr ⟨n, hn⟩) with heq | ⟨-, m', params, hm', hz⟩
  · rw [heq, hm] at hn
    cases hn
    exact hadded
  · rw [hm] at hm'
    cases hm'
    rw [hz] at hn
    cases hn
    rw [Node.isAdded_withParams]
    exact hadded

end Migrated

theorem Literal.of_sameButLinks (h : u.Literal) (hsame : SameButLinks u w) : w.Literal where
  file id t path ht hfile := by
    obtain ⟨s, hs, hst⟩ := hsame.sheet id t ht
    exact h.file id s path hs (hst.file ▸ hfile)
  specifier x n params specifier hx := h.specifier x n params specifier (hsame.doc ▸ hx)

/-- Trimmed parameters of a plain import are a specifier in quotes. -/
theorem quoted_of_isPlainImport {params : String} (h : isPlainImport params = true)
    (htrim : Text.trimmed params = params)
    (hliteral : ∀ s, Css.specifier? params = some s → Css.Literal s) : Css.Quoted params := by
  unfold isPlainImport at h
  split at h
  · cases h
  · next s hs =>
    rw [htrim, beq_iff_eq] at h
    exact ⟨s, _, hliteral s hs, Css.isQuote_importQuote params, h⟩

/-- **Behind a split and a cleanup, a stylesheet that is derived or in a layer that is split, and that
holds a utility, is only imported with a specifier in quotes.** -/
theorem quoted_after_migration (sources : List (Option FilePath × String)) (resolve : Resolution)
    (base : FilePath) (settings : Settings)
    (hat : Text.sameCaseless settings.atRule "import" = false)
    (hsuffix : Css.Literal settings.suffix) (hliteral : (filled sources).Literal)
    {table : List (List SheetId)}
    (hl : ((filled sources).connect resolve base).1.inheritLayers = .ok (table, w)) :
    ∃ u d, w.split settings = .ok (u, d) ∧
      ∀ id t, (u.cleanUp d).1.get? id = some t → t.discarded = false →
        t.derived = true ∨ t.meetsLayers settings.layers = true →
        (u.cleanUp d).1.HoldsUtility settings id →
        ∀ rule ∈ t.inbound, (u.cleanUp d).1.doc.contains rule = true →
          ∃ n params, (u.cleanUp d).1.doc.get? rule = some n ∧ n.params? = some params ∧
            Css.Quoted params := by
  have hfresh := fresh_filled sources
  have hsame := (linked_connect hfresh resolve base).same.trans (sameButLinks_inheritLayers hl)
  obtain ⟨v, u, d, hsplit, h⟩ := exists_migrated (analysed hfresh hl) settings
  refine ⟨u, d, hsplit, fun id t ht hkept hcondition hutility rule hr hlive => ?_⟩
  have hwliteral := hliteral.of_sameButLinks hsame
  obtain ⟨s, hs, hst⟩ := h.cleaned.sheet id t ht
  have hinbound := hst.inbound
  rw [hkept, if_neg Bool.false_ne_true] at hinbound
  rw [hinbound] at hr
  rcases h.parted.inbound_cases h.analysed hs hr with ⟨hget, -, hbefore⟩ | ⟨hnew, hadded, -⟩
  · have hlayers : s.meetsLayers settings.layers = true := by
      have hplain := (h.analysed.plain id s hget).2
      rw [← hst.derived] at hplain
      rw [hplain] at hcondition
      have hmeets := hcondition.resolve_left Bool.false_ne_true
      rwa [Sheet.meetsLayers, hst.layers] at hmeets
    obtain ⟨n, params, hn, hparams, hplain⟩ := h.plain_import hat hget hlayers hutility hr
    refine ⟨n, params, (h.data_eq hbefore hlive).trans hn, hparams, ?_⟩
    obtain ⟨m, _, _, hm, himport, -⟩ := (h.analysed.rule id s rule hget hr).1.readable
    rw [hn] at hm
    cases hm
    refine quoted_of_isPlainImport hplain ?_ fun specifier hspecifier =>
      hwliteral.specifier rule n params specifier hn himport hparams hspecifier
    rcases hfresh.read rule n (hsame.doc ▸ hn) with rfl | hwritten
    · cases hparams
    · exact hwritten.params params hparams
  · obtain ⟨n, hn⟩ := contains_iff_get?.mp hlive
    have hall := (h.parted.additions h.analysed hwliteral hsuffix).cleanUp
      (h.parted.standing h.analysed)
    obtain ⟨⟨params, hparams, hquoted⟩, -⟩ :=
      hall.added rule n hn (h.isAdded_companion hnew hadded hn)
    exact ⟨n, params, hn, hparams, hquoted⟩

instance (w : Workspace) : Decidable w.Literal :=
  decidable_of_iff ((∀ s ∈ w.sheets.toList, ∀ path ∈ s.file.toList, Css.Literal path.text) ∧
      ∀ n ∈ w.doc.stock, n.isImportRule = true →
        ∀ specifier ∈ (n.params?.bind Css.specifier?).toList, Css.Literal specifier) <| by
    constructor
    · intro hboth
      obtain ⟨hfile, hspecifier⟩ := hboth
      refine ⟨fun id s path hs hf => hfile s ?_ path (Option.mem_toList.mpr hf),
        fun x n params specifier hx hi hp hs => hspecifier n (mem_stock.mpr ⟨x, hx⟩) hi specifier ?_⟩
      · exact Array.mem_toList_iff.mpr (Array.mem_of_getElem? hs)
      · rw [Option.mem_toList, hp]
        exact hs
    · intro h
      refine ⟨fun s hs path hf => ?_, fun n hn hi specifier hs => ?_⟩
      · obtain ⟨id, hid⟩ := Array.mem_iff_getElem?.mp (Array.mem_toList_iff.mp hs)
        exact h.file id s path hid (Option.mem_toList.mp hf)
      · obtain ⟨x, hx⟩ := mem_stock.mp hn
        obtain ⟨params, hp, hs⟩ := Option.bind_eq_some_iff.mp (Option.mem_toList.mp hs)
        exact h.specifier x n params specifier hx hi hp hs

/-- A utility in a layer moves behind a plain import. -/
theorem quoted_moved_utility : ∃ table w u d,
    ((filled (entryAnd "@utility foo { color: red }\nh1 { color: red }")).connect entryFiles
      ⟨"/p"⟩).1.inheritLayers = .ok (table, w) ∧ w.split {} = .ok (u, d) ∧
    ∃ t rule n params, (u.cleanUp d).1.get? 2 = some t ∧ t.derived = true ∧ rule ∈ t.inbound ∧
      (u.cleanUp d).1.doc.get? rule = some n ∧ n.params? = some params ∧ Css.Quoted params := by
  have hliteral : (filled (entryAnd "@utility foo { color: red }\nh1 { color: red }")).Literal := by
    decide +kernel
  have hrun : splitsWith (entryAnd "@utility foo { color: red }\nh1 { color: red }") entryFiles
      ⟨"/p"⟩ {} (fun _ u d => ((u.cleanUp d).1.get? 2).any (fun t => !t.discarded && t.derived &&
          t.inbound.any (u.cleanUp d).1.doc.contains) &&
        (u.cleanUp d).1.sheetOf? ⟨3, 0⟩ == some 2 &&
        ((u.cleanUp d).1.doc.get? ⟨3, 0⟩).any (Node.isAt "utility")) = true := by decide +kernel
  obtain ⟨table, w, u, d, hl, hsplit, hcheck⟩ := exists_of_splitsWith hrun
  simp only [Bool.and_eq_true, beq_iff_eq] at hcheck
  obtain ⟨⟨hsheet, hx⟩, hname⟩ := hcheck
  obtain ⟨t, ht, hsheet⟩ := (Option.any_eq_true _ _).mp hsheet
  simp only [Bool.and_eq_true, Bool.not_eq_true', List.any_eq_true] at hsheet
  obtain ⟨⟨hkept, hderived⟩, rule, hr, hlive⟩ := hsheet
  obtain ⟨u', d', hsplit', hall⟩ := quoted_after_migration _ _ _ {} (by decide +kernel) (by decide +kernel) hliteral hl
  rw [hsplit] at hsplit'
  cases hsplit'
  obtain ⟨n, params, hn, hparams, hquoted⟩ :=
    hall 2 t ht hkept (Or.inl hderived) ⟨_, hx, hname⟩ rule hr hlive
  exact ⟨table, w, u, d, hl, hsplit, t, rule, n, params, ht, hderived, hr, hn, hparams, hquoted⟩

end Workspace

end Strata
