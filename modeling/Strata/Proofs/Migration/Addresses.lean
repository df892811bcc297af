import Strata.Proofs.Split.Places

/-! What imports say while paths are taken over.

Every import leads to the file of the stylesheet that it points at: what it says resolves to that
file, as it did before, or is the way to it (`Means`). When a derived stylesheet takes over a path,
its imports say what they remember of the donor, or the way to the path (`renamed`). No other import
changes, so this is kept (`Addressed.takeOver`). -/
namespace Strata

open FilePath

/-- A specifier that leads from a directory to a file: it resolves to it, or is the way to it. -/
def Resolution.Means (files : List FilePath) (specifier : String) (dir path : FilePath) : Prop :=
  known files specifier dir = some path ∨ specifier = specifierTo dir path

/-- What an import says once the stylesheet that it points at has taken over a path. -/
def Origin.renamed (origin : Origin) (donor : SheetId) (file dir : FilePath) : String :=
  if origin.sheet = donor then origin.specifier else specifierTo dir file

namespace Workspace

open Forest

variable {w v u r : Workspace} {settings : Settings} {d : Derivations} {files : List FilePath}
  {pairs : List (SheetId × SheetId)} {donor derived : SheetId} {file dir : FilePath}
  {rule x : NodeId} {origin : Origin}

/-! ### Imports that are readdressed -/

/-- Nodes with other data are where they were. -/
theorem dirOf?_update (h : v.Tidy) (params : String) :
    dirOf? { v with doc := v.doc.update rule (Node.withParams params) } x = v.dirOf? x := by
  have htidy : Tidy { v with doc := v.doc.update rule (Node.withParams params) } :=
    Document.Tidy.update h rule _ (Node.isRoot_withParams params)
  have hsheet : sheetOf? { v with doc := v.doc.update rule (Node.withParams params) } x =
      v.sheetOf? x := by
    refine Option.ext fun id => ?_
    rw [htidy.sheetOf?_eq_some, h.sheetOf?_eq_some]
    simp only [Within, contains_update, parent?_update]
    rfl
  rw [dirOf?, hsheet]
  rfl

/-- A plain import in a directory, which remembers another. -/
structure Recalls (v : Workspace) (rule : NodeId) (dir : FilePath) (origin : Origin) : Prop where
  node : ∃ n params current, v.doc.get? rule = some n ∧ n.params? = some params ∧
    Css.Quoted params ∧ Css.specifier? params = some current ∧ n.origin = some origin
  dir : v.dirOf? rule = some dir

section readdress

variable (hv : v.Tidy) (h : v.Recalls x dir origin)
  (hliteral : Css.Literal (origin.renamed donor file dir))
  (hproper : origin.renamed donor file dir ≠ "")

include hv in
theorem tidy_readdress (donor : SheetId) (file : FilePath) (rule : NodeId) :
    (readdress donor file v rule).Tidy := by
  rcases readdress_cases donor file v rule with heq | ⟨params, heq⟩
  · rw [heq]
    exact hv
  · rw [heq]
    exact Document.Tidy.update hv rule _ (Node.isRoot_withParams params)

/-- Other nodes stay as they are. -/
theorem get?_readdress (donor : SheetId) (file : FilePath) (hne : x ≠ rule) :
    (readdress donor file v rule).doc.get? x = v.doc.get? x := by
  rcases readdress_cases donor file v rule with heq | ⟨params, heq⟩
  · rw [heq]
  · rw [heq]
    exact (get?_update rule _ x).trans (if_neg hne)

include hv h hliteral hproper

/-- An import that is readdressed says its new specifier. -/
theorem Recalls.readdress : (readdress donor file v x).Recalls x dir origin ∧
    (readdress donor file v x).doc.Says x (origin.renamed donor file dir) := by
  obtain ⟨n, params, current, hn, hparams, ⟨s, q, hs, hq, rfl⟩, hcurrent, horigin⟩ := h.node
  have hreaddress : Workspace.readdress donor file v x =
      { v with doc := v.doc.update x (Node.withParams
        (Css.plainImport (origin.renamed donor file dir) q)) } := by
    have hdir : ((v.sheetOf? x).bind v.get?).bind Sheet.dir? = some dir := h.dir
    simp only [Workspace.readdress, hn, hparams, hcurrent, horigin, hdir, Option.bind_eq_bind,
      Option.bind_some, Css.replaceTarget?_plainImport hq hs]
    rfl
  have hchanged : ∀ params', (n.withParams params').origin = n.origin ∧
      (n.withParams params').params? = some params' := by
    intro params'
    rcases n with ⟨form, span, _⟩
    cases form with
    | atRule name old block => exact ⟨rfl, rfl⟩
    | _ => cases hparams
  obtain ⟨hsame, hnew⟩ := hchanged (Css.plainImport (origin.renamed donor file dir) q)
  have hget : (Workspace.readdress donor file v x).doc.get? x =
      some (n.withParams (Css.plainImport (origin.renamed donor file dir) q)) := by
    rw [hreaddress]
    exact (get?_update x _ x).trans (by rw [if_pos rfl, hn]; rfl)
  have hspecifier : Css.specifier? (Css.plainImport (origin.renamed donor file dir) q) =
      some (origin.renamed donor file dir) := by
    rw [Css.specifier?_plainImport hq hliteral, if_neg]
    rw [String.isEmpty_iff]
    exact hproper
  refine ⟨⟨⟨_, _, _, hget, hnew, ⟨_, q, hliteral, hq, rfl⟩, hspecifier, hsame.trans horigin⟩, ?_⟩,
    _, _, hget, hnew, hspecifier⟩
  rw [hreaddress, dirOf?_update hv]
  exact h.dir

/-- **All imports that are readdressed say their new specifiers.** -/
theorem Recalls.foldl_readdress (rules : List NodeId)
    (hx : x ∈ rules ∨ v.doc.Says x (origin.renamed donor file dir)) :
    (rules.foldl (Workspace.readdress donor file) v).doc.Says x (origin.renamed donor file dir) := by
  induction rules generalizing v with
  | nil => exact hx.resolve_left List.not_mem_nil
  | cons rule rules ih =>
    have htidy := tidy_readdress hv donor file rule
    rw [List.foldl_cons]
    by_cases hrule : x = rule
    · subst hrule
      obtain ⟨hrecalls, hsays⟩ := h.readdress hv hliteral hproper
      exact ih htidy hrecalls (Or.inr hsays)
    · have hget := get?_readdress (v := v) donor file hrule
      refine ih htidy ⟨?_, ?_⟩ (hx.imp (fun hm => (List.mem_cons.mp hm).resolve_left hrule) ?_)
      · rw [hget]
        exact h.node
      · rcases readdress_cases donor file v rule with heq | ⟨params, heq⟩
        · rw [heq]
          exact h.dir
        · rw [heq, dirOf?_update hv]
          exact h.dir
      · unfold Document.Says
        rw [hget]
        exact id

end readdress

theorem get?_foldl_readdress (donor : SheetId) (file : FilePath) (rules : List NodeId)
    (hx : x ∉ rules) (v : Workspace) :
    (rules.foldl (readdress donor file) v).doc.get? x = v.doc.get? x := by
  induction rules generalizing v with
  | nil => rfl
  | cons rule rules ih =>
    rw [List.mem_cons, not_or] at hx
    rw [List.foldl_cons, ih hx.2, get?_readdress donor file hx.1]

theorem contains_foldl_readdress (donor : SheetId) (file : FilePath) (rules : List NodeId)
    (v : Workspace) (x : NodeId) :
    (rules.foldl (readdress donor file) v).doc.contains x = v.doc.contains x := by
  induction rules generalizing v with
  | nil => rfl
  | cons rule rules ih =>
    rw [List.foldl_cons, ih]
    rcases readdress_cases donor file v rule with heq | ⟨params, heq⟩
    · rw [heq]
    · rw [heq]
      exact contains_update rule _ x

/-! ### Imports that lead to their stylesheets -/

/-- The imports that are left lead to the files of the stylesheets that they point at, from the
directories of `u`. These files were there in `w`, or they were made for derived stylesheets. -/
structure Addressed (w u : Workspace) (files : List FilePath) (v : Workspace) : Prop where
  dir : ∀ id, (v.get? id).bind Sheet.dir? = (u.get? id).bind Sheet.dir?
  original : ∀ id, id < w.sheets.size → (v.get? id).bind Sheet.file = (u.get? id).bind Sheet.file
  rooted : v.Rooted
  new : ∀ id t path, v.get? id = some t → t.file = some path →
    (∃ x s, w.get? x = some s ∧ s.file = some path) ∨ Resolution.MarkedPath path
  leads : ∀ id t rule, v.get? id = some t → rule ∈ t.inbound → v.doc.contains rule = true →
    ∃ dir specifier path, u.dirOf? rule = some dir ∧ v.doc.Says rule specifier ∧
      t.file = some path ∧ Resolution.Means files specifier dir path

/-- What is left is in the directories it was in. -/
theorem Addressed.dirOf?_eq (h : Addressed w u files v) (hc : Cleaned u pairs v) (hu : u.Tidy)
    (hx : v.doc.contains x = true) : v.dirOf? x = u.dirOf? x := by
  rw [dirOf?, dirOf?, hc.sheetOf?_eq hu hx]
  cases u.sheetOf? x with
  | none => rfl
  | some id => exact h.dir id

theorem Addressed.pruned (h : Addressed w u files u) (hp : Pruned u v) : Addressed w u files v := by
  have hfile : ∀ id t, v.get? id = some t → ∃ s, u.get? id = some s ∧ t.file = s.file ∧
      t.inbound ⊆ s.inbound := by
    intro id t ht
    obtain ⟨s, hs, rfl | rfl⟩ := hp.sheet id t ht
    · exact ⟨t, hs, rfl, fun _ hm => hm⟩
    · exact ⟨s, hs, rfl, List.nil_subset _⟩
  have hsame : ∀ {α : Type} (g : Sheet → Option α), (∀ s t : Sheet, t.file = s.file → g t = g s) →
      ∀ id, (v.get? id).bind g = (u.get? id).bind g := by
    intro α g hg id
    cases ht : v.get? id with
    | some t =>
      obtain ⟨s, hs, hst, -⟩ := hfile id t ht
      rw [hs]
      exact hg s t hst
    | none =>
      cases hs : u.get? id with
      | none => rfl
      | some s =>
        obtain ⟨t, ht'⟩ := get?_isSome.mpr (hp.size.symm ▸ lt_size hs)
        rw [ht] at ht'
        cases ht'
  refine ⟨hsame _ fun s t hst => Sheet.dir?_congr hst, fun id _ =>
    hsame _ (fun _ _ hst => hst) id, fun id t ht => ?_, fun id t path ht hpath => ?_,
    fun id t rule ht hr hlive => ?_⟩
  · obtain ⟨s, hs, hst, -⟩ := hfile id t ht
    rw [hst]
    exact h.rooted id s hs
  · obtain ⟨s, hs, hst, -⟩ := hfile id t ht
    exact h.new id s path hs (hst ▸ hpath)
  · obtain ⟨s, hs, hst, hsub⟩ := hfile id t ht
    obtain ⟨dir, specifier, path, hdir, hsays, hpath, hmeans⟩ :=
      h.leads id s rule hs (hsub hr) (hp.thinned.live_before hlive)
    refine ⟨dir, specifier, path, hdir, ?_, hst.trans hpath, hmeans⟩
    unfold Document.Says
    rw [hp.data rule hlive]
    exact hsays

section split

variable (h : Parted w settings d v u) (hw : w.Sited settings files)
include h hw

/-- **Behind a split all imports lead to their stylesheets.** -/
theorem addressed_split : Addressed w u files u where
  dir _ := rfl
  original _ _ := rfl
  rooted := h.rooted hw
  new id t path ht hfile := by
    by_cases hid : id < w.sheets.size
    · exact Or.inl ⟨id, t, h.original hid ▸ ht, hfile⟩
    · obtain ⟨donor, hp⟩ := h.beside.donor id (Nat.le_of_not_lt hid) (h.size ▸ lt_size ht)
      obtain ⟨s, hs⟩ := get?_isSome.mpr (h.lt_size hp)
      obtain ⟨names, name, own, hnames, -, hown, -, hmarked, hplace⟩ :=
        h.derivedBeside hw hp hs ht
      cases hfile.symm.trans hplace
      refine Or.inr ⟨names, own, FilePath.named_append (fun x hx => ?_) hown, rfl, hmarked⟩
      exact (hnames x (List.mem_append_left _ hx)).1
  leads id t rule ht hr hlive := by
    by_cases hid : id < w.sheets.size
    · obtain ⟨path, hfile, dir, specifier, hdir, hsays, hknown⟩ :=
        hw.traced id t rule (h.original hid ▸ ht) hr
      have hbefore : w.doc.contains rule = true := by
        obtain ⟨n, params, hn, -⟩ := hsays
        exact contains_iff_get?.mpr ⟨n, hn⟩
      refine ⟨dir, specifier, path, ?_, ?_, hfile, Or.inl hknown⟩
      · rw [h.dirOf?_eq hw hbefore, hdir]
      · unfold Document.Says
        rw [h.data hbefore]
        exact hsays
    · obtain ⟨dir, path, hdir, hfile, hsays⟩ := h.companion_says hw (Nat.le_of_not_lt hid) ht hr
      exact ⟨dir, _, path, hdir, hsays, hfile, Or.inr rfl⟩

/-! ### Paths that are taken over -/

section takeOver

variable {state next : Workspace × Cleanup} {o t : Sheet} (hb : Branched w d.pairs u)
  (ha : Addressed w u files state.1) (hc : Cleaned u d.pairs state.1)
  (hplain : Additions d.pairs state.1) (hp : (donor, derived) ∈ d.pairs)
  (hnext : TakesOver state donor derived o t file next)
include ha hc hplain hp hnext

omit hw hc hplain in
/-- The path is that of a donor. -/
theorem exists_donor : ∃ s, w.get? donor = some s ∧ s.file = some file := by
  have hlt := h.lt_size hp
  obtain ⟨s, hs⟩ := get?_isSome.mpr hlt
  have hsame := ha.original donor hlt
  rw [hnext.giver, h.original hlt, hs, Option.bind_some, Option.bind_some] at hsame
  exact ⟨s, hs, hsame.symm.trans hnext.vacant⟩

/-- The import of a stylesheet that takes over a path leads there. -/
theorem says_taken (hr : rule ∈ t.inbound) (hlive : state.1.doc.contains rule = true) :
    ∃ dir specifier, u.dirOf? rule = some dir ∧ next.1.doc.Says rule specifier ∧
      Resolution.Means files specifier dir file := by
  obtain ⟨s, hs, hsfile⟩ := exists_donor h ha hp hnext
  obtain ⟨names, name, hnames, hroot⟩ := hw.rooted donor s hs
  obtain ⟨q, hq, hqt⟩ := hc.sheet derived t hnext.taker
  have hinbound := hqt.inbound
  rw [hnext.kept, if_neg Bool.false_ne_true] at hinbound
  obtain ⟨hnew, -⟩ := h.companion_cases (h.divided.pair donor derived hp).1 hq (hinbound ▸ hr)
  obtain ⟨⟨m, hm, -, hadded⟩, -⟩ :=
    h.accompanied.added rule (hc.thinned.live_before hlive) hnew
  obtain ⟨origin, horigin⟩ := Option.isSome_iff_exists.mp hadded
  obtain ⟨dir, current, path, hdir, ⟨n, params, hn, hparams, hcurrent⟩, -⟩ :=
    ha.leads derived t rule hnext.taker hr hlive
  have hremembers : n.origin = some origin := by
    rcases hc.data rule hlive with heq | ⟨-, m', params', hm', hn'⟩
    · cases hn.symm.trans (heq.trans hm)
      exact horigin
    · cases hm.symm.trans hm'
      cases hn.symm.trans hn'
      rcases m with ⟨form, span, _⟩
      cases form <;> exact horigin
  obtain ⟨⟨params', hparams', hquoted⟩, origin', horigin', hspecifier⟩ :=
    hplain.added rule n hn (by rw [Node.isAdded, hremembers]; rfl)
  cases hparams.symm.trans hparams'
  cases hremembers.symm.trans horigin'
  obtain ⟨dir', s', path', hdir', hs', hpath', hknown⟩ :=
    h.remembers hw hm horigin
  cases hdir.symm.trans hdir'
  have hrecalls : state.1.Recalls rule dir origin :=
    ⟨⟨n, params, current, hn, hparams, hquoted, hcurrent, hremembers⟩,
      (ha.dirOf?_eq hc h.accompanied.tidy hlive).trans hdir⟩
  obtain ⟨home, b, -, hb, hbdir⟩ := dirOf?_eq_some.mp hdir
  obtain ⟨start, hstart, hstartdir⟩ := (h.rooted hw).dir hb
  cases hbdir.symm.trans hstartdir
  -- The new specifier can be put in quotes, is not empty, and means the path.
  have hnew : Css.Literal (origin.renamed donor file (ofNames start)) ∧
      origin.renamed donor file (ofNames start) ≠ "" ∧
      Resolution.Means files (origin.renamed donor file (ofNames start)) (ofNames start) file := by
    unfold Origin.renamed
    split
    · next hsheet =>
      rw [hsheet, hs] at hs'
      cases hs'
      cases hsfile.symm.trans hpath'
      refine ⟨hspecifier, ?_, Or.inl hknown⟩
      intro hempty
      rw [hempty] at hknown
      cases hknown
    · refine ⟨FilePath.uses_specifierTo Css.joining_isLiteral (hw.literal.file donor s file hs hsfile),
        ?_, Or.inr rfl⟩
      cases hsfile.symm.trans hroot
      rw [specifierTo_ofNames hstart fun x hx => (hnames x hx).1]
      exact written_ne_empty _
  refine ⟨_, _, hdir, ?_, hnew.2.2⟩
  rw [(assignFile_ok hnext.assigned).1]
  exact hrecalls.foldl_readdress hc.tidy hnew.1 hnew.2.1 t.inbound (Or.inl hr)

include hb

theorem Addressed.takeOver : Addressed w u files next.1 := by
  have hle := (h.divided.pair donor derived hp).1
  obtain ⟨s, hs, hsfile⟩ := exists_donor h ha hp hnext
  obtain ⟨names, name, hnames, hroot⟩ := hw.rooted donor s hs
  have hnormal : file.normalize = file := by
    cases hsfile.symm.trans hroot
    exact normalize_ofNames fun x hx => (hnames x hx).1
  have hget := hnext.get? hnormal
  -- A stylesheet that does not take over the path has the file it had.
  have hcases : ∀ id q, next.1.get? id = some q → ∃ q₀, state.1.get? id = some q₀ ∧
      q.inbound = q₀.inbound ∧
      (id = derived ∧ q.file = some file ∨ id ≠ derived ∧ q.file = q₀.file) := by
    intro id q hq
    rw [hget] at hq
    obtain ⟨q₀, hq₀, rfl⟩ := Option.map_eq_some_iff.mp hq
    refine ⟨q₀, hq₀, ?_⟩
    split
    · next heq => exact ⟨rfl, Or.inl ⟨heq, rfl⟩⟩
    · next hne => split <;> exact ⟨rfl, Or.inr ⟨hne, rfl⟩⟩
  refine ⟨fun id => ?_, fun id hid => ?_, fun id q hq => ?_, fun id q path hq hpath => ?_,
    fun id q rule hq hr hlive => ?_⟩
  · rw [← ha.dir id, hget]
    cases hq₀ : state.1.get? id with
    | none => rfl
    | some q₀ =>
      simp only [Option.map_some, Option.bind_some]
      split
      · next heq =>
        subst heq
        obtain ⟨q, hq⟩ := get?_isSome.mpr (h.size ▸ (h.divided.pair donor id hp).2)
        have hdir := ha.dir id
        rw [hq₀, hq, Option.bind_some, Option.bind_some,
          (h.derivedBeside hw hp hs hq).dir] at hdir
        rw [hdir, Sheet.dir?, Sheet.dir?, hsfile]
      · split <;> rfl
  · rw [← ha.original id hid, hget]
    cases hq₀ : state.1.get? id with
    | none => rfl
    | some q₀ =>
      simp only [Option.map_some, Option.bind_some]
      split
      · next heq => exact absurd hid (heq ▸ Nat.not_lt.mpr hle)
      · split <;> rfl
  · obtain ⟨q₀, hq₀, -, ⟨-, hfile⟩ | ⟨-, hfile⟩⟩ := hcases id q hq
    · exact ⟨names, name, hnames, by rw [hfile, ← hsfile, hroot]⟩
    · rw [hfile]
      exact ha.rooted id q₀ hq₀
  · obtain ⟨q₀, hq₀, -, ⟨-, hfile⟩ | ⟨-, hfile⟩⟩ := hcases id q hq
    · exact Or.inl ⟨donor, s, hs, by rw [hsfile, ← hfile, hpath]⟩
    · exact ha.new id q₀ path hq₀ (hfile ▸ hpath)
  · obtain ⟨q₀, hq₀, hinbound, hfile⟩ := hcases id q hq
    rw [hinbound] at hr
    have hbefore : state.1.doc.contains rule = true := by
      rwa [(assignFile_ok hnext.assigned).1, contains_foldl_readdress] at hlive
    rcases hfile with ⟨rfl, hfile⟩ | ⟨hne, hfile⟩
    · cases hnext.taker.symm.trans hq₀
      obtain ⟨dir, specifier, hdir, hsays, hmeans⟩ := says_taken h hw ha hc hplain hp hnext hr hbefore
      exact ⟨dir, specifier, file, hdir, hsays, hfile, hmeans⟩
    · obtain ⟨dir, specifier, path, hdir, hsays, hpath, hmeans⟩ :=
        ha.leads id q₀ rule hq₀ hr hbefore
      refine ⟨dir, specifier, path, hdir, ?_, hfile.trans hpath, hmeans⟩
      have hother : rule ∉ t.inbound := by
        intro hm
        obtain ⟨a, ha', haq⟩ := hc.sheet id q₀ hq₀
        obtain ⟨b, hb', hbt⟩ := hc.sheet derived t hnext.taker
        refine hne (h.inbound_unique hw hb hle hb' ha'
          (hbt.subset hm) (haq.subset hr)).symm
      unfold Document.Says
      rw [(assignFile_ok hnext.assigned).1, get?_foldl_readdress donor file _ hother]
      exact hsays

end takeOver

/-- **Behind a cleanup all imports that are left lead to their stylesheets.** -/
theorem addressed_cleanUp (hb : Branched w d.pairs u) : Addressed w u files (u.cleanUp d).1 := by
  have hu := h.standing hw.analysed
  have hpruned := pruned_discardEmptied hu (u.sheets.size + 1) {} (pruned_refl hu)
  have hrun : ∀ (todo : List (SheetId × SheetId)) (state : Workspace × Cleanup), todo ⊆ d.pairs →
      Readdressed (discardEmptied (u.sheets.size + 1) u {}).1 d.pairs state.1 →
      Additions d.pairs state.1 → Addressed w u files state.1 →
      Addressed w u files (todo.foldl Workspace.takeOver state).1 := by
    intro todo
    induction todo with
    | nil => exact fun _ _ _ _ ha => ha
    | cons pair todo ih =>
      intro state hsub hr hplain ha
      have hp := hsub (List.mem_cons_self ..)
      refine ih _ (fun _ hm => hsub (List.mem_cons_of_mem _ hm)) (hr.takeOver state.2 hp)
        (hplain.takeOver hp) ?_
      obtain ⟨donor, derived⟩ := pair
      rcases takeOver_cases state donor derived with heq | ⟨o, t, file, next, hnext, heq⟩
      · rw [heq]
        exact ha
      · rw [heq]
        exact ha.takeOver h hw hb (cleaned_of hu hpruned hr) hplain hp hnext
  exact hrun d.pairs _ (fun _ hm => hm) (readdressed_refl (hpruned.tidy hu))
    ((h.additions hw.analysed hw.literal hw.suffix).pruned hpruned)
    ((addressed_split h hw).pruned hpruned)

end split

end Workspace

end Strata
