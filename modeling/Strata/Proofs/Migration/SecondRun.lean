import Strata.Proofs.Migration.Addresses
import Strata.Proofs.Migration.Reread

/-! Second migrations.

A workspace that was read from what a migration left is at rest (`atRest_reread`), but for two things
that a second run still finds to do (`Rests`): it splits a derived stylesheet in a split layer that
has an import at its top, and it removes an empty block of a split layer. -/
namespace Strata

/-- Parameters in quotes are plain when they have a specifier. -/
theorem Css.Quoted.isPlainImport {params s : String} (h : Css.Quoted params)
    (hs : Css.specifier? params = some s) : Workspace.isPlainImport params = true := by
  obtain ⟨s', q, hs', hq, rfl⟩ := h
  have hquote : Css.importQuote (Css.plainImport s' q) = q := by
    rw [Css.importQuote, Css.importTarget?_plainImport hq hs']
    rfl
  have hspecifier : s' = s := by
    rw [Css.specifier?_plainImport hq hs'] at hs
    split at hs
    · cases hs
    · exact Option.some.inj hs
  have htrimmed : Text.trimmed (Css.plainImport s' q) = Css.plainImport s' q := by
    rw [Text.trimmed, Css.toList_plainImport, Css.trim_quoted hq, ← Css.toList_plainImport,
      String.ofList_toList]
  subst hspecifier
  unfold Workspace.isPlainImport
  rw [hs]
  simp only [hquote, htrimmed, beq_self_eq_true]

namespace Transform

open Forest Document

variable {doc g : Document} {x y c : NodeId} {settings : Settings} {context : SheetFacts}

theorem isClassRule_of_alike (h : Alike doc g x y) : isClassRule g y = isClassRule doc x := by
  rw [isClassRule, isClassRule, h.bind fun n m hform => by rw [ruleClass?, ruleClass?, hform]]

section wellFormed

variable (hf : doc.WellFormed) (hg : g.WellFormed) (h : Alike doc g x y)
include hf hg h

theorem exists_layerBlock_of_alike (hc : c ∈ layerBlocksOf settings y g) :
    ∃ block ∈ layerBlocksOf settings x doc, Alike doc g block c := by
  obtain ⟨hin, hlayer⟩ := List.mem_filter.mp hc
  obtain ⟨block, hblock, hlike⟩ := exists_of_forall₂ (h.children hf hg).flip hin
  refine ⟨block, List.mem_filter.mpr ⟨hblock, ?_⟩, hlike⟩
  rw [← hlayer]
  exact (hlike.any fun n m hform => by rw [isLayerBlock, isLayerBlock, hform]).symm

/-- Where trees are alike, there is something to convert in both or in neither. -/
theorem exists_converts_of_alike (hc : Converts context y g c) : ∃ c, Converts context x doc c := by
  obtain ⟨hclass, ⟨block, hblock, hin⟩ | ⟨hmember, hin⟩⟩ := hc
  · obtain ⟨block', hblock', hlike⟩ := exists_layerBlock_of_alike hf hg h hblock
    obtain ⟨c', hc', hlike⟩ := exists_of_forall₂ (hlike.children hf hg).flip hin
    exact ⟨c', isClassRule_of_alike hlike ▸ hclass, Or.inl ⟨block', hblock', hc'⟩⟩
  · obtain ⟨c', hc', hlike⟩ := exists_of_forall₂ (h.children hf hg).flip hin
    exact ⟨c', isClassRule_of_alike hlike ▸ hclass, Or.inr ⟨hmember, hc'⟩⟩

end wellFormed

end Transform

namespace Workspace

open Forest Document Transform Relation

variable {w v u z : Workspace} {d : Derivations} {settings : Settings} {ts : List Transform}
  {r q : Workspace} {files : FileSet} {base : FilePath} {table : List (List SheetId)}
  {x y : SheetId} {s t : Sheet}

namespace Migrated

variable (h : Migrated w settings d v u z)
include h

/-- The imports of a derived stylesheet, and those of one in a split layer that holds a utility, are
plain. -/
theorem isPlainImport_inbound (hat : Text.sameCaseless settings.atRule "import" = false)
    (hadditions : Additions d.pairs z) (hutility : z.HoldsUtility settings x)
    (hlayers : ∀ s, w.get? x = some s → s.meetsLayers settings.layers = true)
    (ht : z.get? x = some t) {rule : NodeId} (hr : rule ∈ t.inbound) {n : Node}
    (hn : z.doc.get? rule = some n) {params specifier : String} (hparams : n.params? = some params)
    (hspecifier : Css.specifier? params = some specifier) : isPlainImport params = true := by
  have hlive := contains_iff_get?.mpr ⟨n, hn⟩
  obtain ⟨s, hs, hleaves⟩ := h.cleaned.sheet x t ht
  rcases h.parted.inbound_cases h.analysed hs (hleaves.subset hr) with
    ⟨hget, -, hbefore⟩ | ⟨hnew, hadded, -⟩
  · obtain ⟨m, written, hm, hwritten, hplain⟩ :=
      h.plain_import hat hget (hlayers s hget) hutility (hleaves.subset hr)
    rw [h.data_eq hbefore hlive, hm] at hn
    cases hn
    cases hparams.symm.trans hwritten
    exact hplain
  · obtain ⟨⟨written, hwritten, hquoted⟩, -⟩ :=
      hadditions.added rule n hn (h.isAdded_companion hnew hadded hn)
    cases hparams.symm.trans hwritten
    exact hquoted.isPlainImport hspecifier

end Migrated

/-- A second run finds nothing to split and nothing to convert. -/
structure Rests (z : Workspace) (settings : Settings) (ts : List Transform) : Prop where
  /-- A derived stylesheet in a split layer has no import at its top. -/
  bare : ∀ id t, z.get? id = some t → t.derived = true → z.InLayer settings id →
    ∀ c ∈ z.doc.children t.root, (z.doc.get? c).any Node.isImportRule = false
  /-- No block of a split layer is empty. -/
  blocks : ts ≠ [] → ∀ id t, z.get? id = some t → t.discarded = false →
    ∀ block ∈ layerBlocksOf settings t.root z.doc, z.doc.children block ≠ []

section secondRun

variable (h : Migrated w settings d v u z) (hz : z.Rests settings ts)
  (hat : Text.sameCaseless settings.atRule "import" = false)
  (hr : Reread z files base r)
  (hl : (r.connect (.known files.paths) base).1.inheritLayers = .ok (table, q))

theorem holdsUtility_of_outermost (hz : z.Tidy) (hs : z.get? x = some s) {c : NodeId}
    (hc : c ∈ z.doc.outermost s.root (Node.isAt settings.atRule)) : z.HoldsUtility settings x := by
  obtain ⟨hbelow, hname, -⟩ := hz.wellFormed.mem_outermost.mp hc
  obtain ⟨n, hn, -⟩ := (Option.any_eq_true _ _).mp hname
  exact ⟨c, hz.sheetOf?_eq_some.mpr ⟨contains_iff_get?.mpr ⟨n, hn⟩, s, hs, hbelow.within⟩, hname⟩

include h hz hat in
/-- A stylesheet in a split layer that holds a utility holds nothing else. -/
theorem isAt_of_child (hlabels : w.Labelled) (hs : z.get? x = some s)
    (hlayer : z.InLayer settings x) (hutility : z.HoldsUtility settings x) {c : NodeId}
    (hc : c ∈ z.doc.children s.root) : (z.doc.get? c).any (Node.isAt settings.atRule) = true := by
  have hparent := (h.cleaned.tidy.wellFormed.listed c s.root).mp hc
  obtain ⟨s', hs', hleaves⟩ := h.cleaned.sheet x s hs
  by_cases hid : x < w.sheets.size
  · have hw := hs'
    rw [h.parted.original hid] at hw
    have hinbound : ∃ rule, rule ∈ s'.inbound := by
      obtain ⟨top, ⟨a, rule, -, -, -, ha, hr, -⟩, hreach⟩ := hlayer
      rcases ReflTransGen.cases_tail hreach with rfl | ⟨mid, -, a', rule', ha', hr', -⟩
      · cases hs.symm.trans ha
        exact ⟨rule, hleaves.subset hr⟩
      · cases hs.symm.trans ha'
        exact ⟨rule', hleaves.subset hr'⟩
    obtain ⟨rule, hr⟩ := hinbound
    refine h.consistsOf_utilities hat hw (h.analysed.rule x s' rule hw hr).2
      (h.inLayer_before hlabels hw hlayer) hutility c ?_
    rw [← hleaves.root]
    exact hparent
  · have hle := Nat.le_of_not_lt hid
    have hderived : s.derived = true := by
      rw [hleaves.derived, (h.parted.made hle hs').1]
    have hno := hz.bare x s hs hderived hlayer c hc
    refine (h.derived_child_cases hat hle hs hparent).resolve_left fun himport => ?_
    rw [hno] at himport
    cases himport

include h hz hat hr hl

/-- Nothing is to be split. -/
theorem isSelfContained_reread (hlabels : w.Labelled) (hadditions : Additions d.pairs z)
    (hcan : q.CanSplit settings y) : q.IsSelfContained settings y := by
  have hfresh := hr.reads.fresh
  have hlinked := linked_connect hfresh (.known files.paths) base
  have hsame := hlinked.same.trans (sameButLinks_inheritLayers hl)
  have hq := analysed hfresh hl
  obtain ⟨t, ht⟩ := hcan.get?
  obtain ⟨t', ht', hlinks⟩ := hsame.sheet y t ht
  obtain ⟨x, hx⟩ := hr.left y (lt_size ht')
  obtain ⟨s, -, -, hs, hkept, -⟩ := id hx
  have halike : Alike z.doc q.doc s.root t.root := by
    rw [hsame.doc, hlinks.root]
    exact hr.alike x y s t' hx hs ht'
  have hlayer : z.InLayer settings x := by
    refine hr.inLayer hl hx ((meetsLayers_iff_inLayer hfresh hl ht).mp ?_)
    have heligible := hcan.eligible
    rw [isEligible, ht, Option.any_some] at heligible
    exact (Bool.and_eq_true _ _ ▸ heligible).2
  have hwalk := halike.outermost h.cleaned.tidy.wellFormed hq.tidy.wellFormed
    (Node.formal_isAt settings.atRule)
  have hchildren := halike.children h.cleaned.tidy.wellFormed hq.tidy.wellFormed
  obtain ⟨c, hc⟩ := List.exists_mem_of_ne_nil _ hcan.utilities
  have hcq : c ∈ q.doc.outermost t.root (Node.isAt settings.atRule) := by
    unfold utilities at hc
    rwa [ht] at hc
  obtain ⟨c', hc', -⟩ := exists_of_forall₂ hwalk.flip hcq
  have hutility := holdsUtility_of_outermost h.cleaned.tidy hs hc'
  rw [IsSelfContained, Bool.and_eq_true, consistsOf_iff ht, isPlainlyImported_iff ht]
  refine ⟨⟨fun hnone => ?_, fun child hchild => ?_⟩, fun rule hrule n hn _ => ?_⟩
  · obtain ⟨child, hchild⟩ := (hq.tidy.wellFormed.mem_outermost.mp hcq).1.exists_child
    have hmem := (hq.tidy.wellFormed.listed child t.root).mpr hchild
    rw [hnone] at hmem
    cases hmem
  · obtain ⟨child', hchild', hlike⟩ := exists_of_forall₂ hchildren.flip hchild
    have hname := isAt_of_child h hz hat hlabels hs hlayer hutility hchild'
    unfold utilities
    rw [ht]
    refine (hq.tidy.wellFormed.mem_outermost_child hchild).mpr ?_
    rw [← hname]
    exact hlike.any (Node.formal_isAt settings.atRule)
  · obtain ⟨source, layers, he⟩ := (mem_inbound_inherited hlinked hl ht rule).mp hrule
    obtain ⟨b, hb, -, hdestination⟩ := id he
    obtain ⟨home, hhome⟩ := hr.left source (lt_size hb)
    obtain ⟨x', rule', hx', ⟨s', hs', hmem, -⟩, hwritten⟩ := hr.exists_importsBy hhome he
    cases hr.left_unique hx hx'
    cases hs.symm.trans hs'
    obtain ⟨params, specifier, -, hparams, hspecifier, -⟩ := destination_eq_sheet.mp hdestination
    obtain ⟨n', hn', hparams'⟩ := Option.bind_eq_some_iff.mp (hwritten.trans hparams)
    refine ⟨params, ?_, h.isPlainImport_inbound hat hadditions hutility
      (fun s hs => h.inLayer_before hlabels hs hlayer) hs hmem hn' hparams' hspecifier⟩
    rw [hsame.doc] at hn
    rwa [hn, Option.bind_some] at hparams

/-- Nothing is to be converted. -/
theorem hoistLayers_reread (hts : ts ≠ []) (hlayer : Text.sameCaseless settings.atRule "layer" = false)
    (hlabels : w.Labelled) (hexhausted : ∀ id, w.Exhausted settings id) (ht : q.get? y = some t) :
    hoistLayers { file := t.file, layers := t.layers, settings } t.root q.doc = q.doc := by
  have hfresh := hr.reads.fresh
  have hsame := (linked_connect hfresh (.known files.paths) base).same.trans
    (sameButLinks_inheritLayers hl)
  obtain ⟨t', ht', hlinks⟩ := hsame.sheet y t ht
  obtain ⟨x, hx⟩ := hr.left y (lt_size ht')
  obtain ⟨s, -, -, hs, hkept, -⟩ := id hx
  have hzwf := h.cleaned.tidy.wellFormed
  have hqwf := (analysed hfresh hl).tidy.wellFormed
  have halike : Alike z.doc q.doc s.root t.root := by
    rw [hsame.doc, hlinks.root]
    exact hr.alike x y s t' hx hs ht'
  have hrules : ∀ c, ¬ Converts { file := t.file, layers := t.layers, settings } t.root q.doc c := by
    intro c hc
    obtain ⟨c', hc'⟩ := exists_converts_of_alike hzwf hqwf halike hc
    obtain ⟨s', hs', hleaves⟩ := h.cleaned.sheet x s hs
    by_cases hid : x < w.sheets.size
    · have hw := hs'
      rw [h.parted.original hid] at hw
      rw [hleaves.root] at hc'
      obtain ⟨hclass, hplace⟩ := h.converts_before (h.analysed.tidy.live hw) rfl hc'
      refine hexhausted x s' hw c' ⟨hclass, hplace.imp_right fun hin => ⟨?_, hin.2⟩⟩
      -- The layers are not those from before, but a split one among them was there.
      have hmeets : t.meetsLayers settings.layers = true := by
        obtain ⟨l, hl, hm⟩ := List.any_eq_true.mp hin.1
        exact meetsLayers_iff.mpr ⟨l, List.contains_iff_mem.mp hm, hl⟩
      have hbefore := h.inLayer_before hlabels hw
        (hr.inLayer hl hx ((meetsLayers_iff_inLayer hfresh hl ht).mp hmeets))
      obtain ⟨l, hsplit, hown⟩ := meetsLayers_iff.mp hbefore
      exact List.any_eq_true.mpr ⟨l, hown, List.contains_iff_mem.mpr hsplit⟩
    · exact h.not_converts_of_derived hat hlayer (Nat.le_of_not_lt hid) hs rfl hc'
  refine hoistLayers_eq_self hrules (List.filter_eq_nil_iff.mpr fun block hblock hall => ?_)
  obtain ⟨block', hblock', hlike⟩ := exists_layerBlock_of_alike hzwf hqwf halike hblock
  obtain ⟨c, hc⟩ := List.exists_mem_of_ne_nil _ (hz.blocks hts x s hs hkept block' hblock')
  obtain ⟨c', hc', -⟩ := exists_of_forall₂ (hlike.children hzwf hqwf) hc
  exact hrules c' ⟨List.all_eq_true.mp hall c' hc', Or.inl ⟨block, hblock, hc'⟩⟩

/-- **What was read from what a migration left is at rest.** -/
theorem atRest_reread (hlayer : Text.sameCaseless settings.atRule "layer" = false)
    (hlabels : w.Labelled) (hadditions : Additions d.pairs z)
    (hts : ts = [] ∨ ts = standard ∧ ∀ id, w.Exhausted settings id)
    (hfilled : ∀ x y s t, z.Stands r x y → z.get? x = some s → r.get? y = some t →
      isBlankText t.content = false → z.doc.children s.root ≠ []) : q.AtRest settings ts where
  transformed id t ht transform hmem := by
    rcases hts with rfl | ⟨rfl, hexhausted⟩
    · cases hmem
    · cases List.mem_singleton.mp hmem
      exact congrArg Except.ok (hoistLayers_reread h hz hat hr hl (List.cons_ne_nil _ _) hlayer hlabels
        hexhausted ht)
  whole _ hcan := isSelfContained_reread h hz hat hr hl hlabels hadditions hcan
  filled y := by
    by_contra hemptied
    rw [Bool.not_eq_false] at hemptied
    have hfresh := hr.reads.fresh
    have hsame := (linked_connect hfresh (.known files.paths) base).same.trans
      (sameButLinks_inheritLayers hl)
    have hq := (analysed hfresh hl).tidy
    obtain ⟨t, ht, -⟩ := (Option.any_eq_true _ _).mp hemptied
    obtain ⟨-, hcontent, hnone⟩ := (isEmptied_iff hq ht).mp hemptied
    obtain ⟨t', ht', hlinks⟩ := hsame.sheet y t ht
    obtain ⟨x, hx⟩ := hr.left y (lt_size ht')
    obtain ⟨s, -, -, hs, -⟩ := id hx
    have halike : Alike z.doc q.doc s.root t.root := by
      rw [hsame.doc, hlinks.root]
      exact hr.alike x y s t' hx hs ht'
    have hchildren := halike.children h.cleaned.tidy.wellFormed hq.wellFormed
    rw [hnone, List.forall₂_nil_right_iff] at hchildren
    rw [hlinks] at hcontent
    exact hfilled x y s t' hx hs ht' hcontent hchildren

end secondRun

end Workspace

end Strata
