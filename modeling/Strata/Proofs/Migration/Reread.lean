import Strata.Proofs.Document.Likeness
import Strata.Proofs.Migration.Cycles
import Strata.Proofs.Migration.LayersLeft
import Strata.Proofs.Migration.Remains
import Strata.Proofs.Migration.Rest
import Strata.Proofs.Migration.Traces
import Strata.Proofs.Registration

/-! Workspaces that are read from what a migration left.

A workspace is `Reread` when each of its stylesheets was read from the file of one that was kept, and
the trees are alike. Then an import leads from one to another only where it did before
(`Reread.exists_importsBy`), so the imports are without cycles exactly when they were
(`Reread.acyclic_iff`), and a stylesheet is in a layer only when the kept one is. -/
namespace Strata.Workspace

open Forest Document Relation

variable {z w v : Workspace} {files : FileSet} {base : FilePath} {settings : Settings}
  {x y x' y' : SheetId} {s t : Sheet}

/-- A stylesheet that is kept, and one of another workspace with its path. -/
def Stands (z w : Workspace) (x y : SheetId) : Prop :=
  ∃ s t path, z.get? x = some s ∧ s.discarded = false ∧ s.file = some path ∧
    w.get? y = some t ∧ t.file = some path

structure Reread (z : Workspace) (files : FileSet) (base : FilePath) (w : Workspace) : Prop where
  reads : Reads files w
  catalogued : w.Catalogued
  tidy : z.Tidy
  distinct : ∀ i j s t path, z.get? i = some s → z.get? j = some t → s.discarded = false →
    t.discarded = false → s.file = some path → t.file = some path → i = j
  left : ∀ y, y < w.sheets.size → ∃ x, z.Stands w x y
  right : ∀ x s path, z.get? x = some s → s.discarded = false → s.file = some path →
    ∃ y, z.Stands w x y
  alike : ∀ x y s t, z.Stands w x y → z.get? x = some s → w.get? y = some t →
    Alike z.doc w.doc s.root t.root
  /-- Every import that is kept is one of a stylesheet that is kept. -/
  kept : ∀ id t rule, z.get? id = some t → rule ∈ t.inbound → z.doc.contains rule = true →
    ∃ x s, z.sheetOf? rule = some x ∧ z.get? x = some s ∧ s.discarded = false ∧
      rule ∈ z.doc.imports s.root
  /-- It leads to its stylesheet. -/
  leads : ∀ id t rule, z.get? id = some t → rule ∈ t.inbound → z.doc.contains rule = true →
    t.discarded = false ∧ ∃ path, t.file = some path ∧ z.Resolves (.known files.paths) rule path
  /-- Every other one leads nowhere. -/
  nowhere : ∀ id s rule specifier, z.get? id = some s → s.discarded = false →
    rule ∈ z.doc.imports s.root → (∀ y t, z.get? y = some t → rule ∉ t.inbound) →
    z.doc.Says rule specifier →
    Resolution.known files.paths specifier (s.dir?.getD base) = none

namespace Reread

variable (h : Reread z files base w)
include h

theorem left_unique (hx : z.Stands w x y) (hx' : z.Stands w x' y) : x = x' := by
  obtain ⟨s, t, path, hs, hkept, hfile, ht, htfile⟩ := hx
  obtain ⟨s', t', path', hs', hkept', hfile', ht', htfile'⟩ := hx'
  cases ht.symm.trans ht'
  cases htfile.symm.trans htfile'
  exact h.distinct x x' s s' path hs hs' hkept hkept' hfile hfile'

theorem right_unique (hy : z.Stands w x y) (hy' : z.Stands w x y') : y = y' := by
  obtain ⟨s, t, path, hs, -, hfile, ht, htfile⟩ := hy
  obtain ⟨s', t', path', hs', -, hfile', ht', htfile'⟩ := hy'
  cases hs.symm.trans hs'
  cases hfile.symm.trans hfile'
  exact h.catalogued.file?_inj (file?_eq_some.mpr ⟨t, ht, htfile⟩)
    (file?_eq_some.mpr ⟨t', ht', htfile'⟩)

/-- An import leads where one with the same parameters did. -/
theorem exists_importsBy {rule' : NodeId} {layers : List String} (hx : z.Stands w x y)
    (he : w.Edge (.known files.paths) base y y' rule' layers) :
    ∃ x' rule, z.Stands w x' y' ∧ z.ImportsBy rule x x' ∧
      (z.doc.get? rule).bind Node.params? = (w.doc.get? rule').bind Node.params? := by
  obtain ⟨s, t, path, hs, hkept, hfile, ht, htfile⟩ := id hx
  obtain ⟨t', ht', hrule', hdestination⟩ := he
  cases ht.symm.trans ht'
  obtain ⟨params, specifier, target, hparams', hspecifier, hresolve, hholder, -⟩ :=
    destination_eq_sheet.mp hdestination
  have hwalk := (h.alike x y s t hx hs ht).outermost h.tidy.wellFormed h.reads.fresh.tidy.wellFormed
    (Node.formal_isAt "import")
  obtain ⟨rule, hrule, hlike⟩ := exists_of_forall₂ hwalk.flip hrule'
  have hsame : (z.doc.get? rule).bind Node.params? = (w.doc.get? rule').bind Node.params? :=
    (hlike.bind fun n m hform => by rw [Node.params?, Node.params?, hform]).symm
  obtain ⟨n, hn, hparams⟩ := Option.bind_eq_some_iff.mp (hsame.trans hparams')
  have hsays : z.doc.Says rule specifier := ⟨n, params, hn, hparams, hspecifier⟩
  have hdir : t.dir? = s.dir? := Sheet.dir?_congr (htfile.trans hfile.symm)
  have howner : z.sheetOf? rule = some x := by
    have hbelow := ((h.tidy.wellFormed.mem_outermost).mp hrule).1
    exact h.tidy.sheetOf?_eq_some.mpr ⟨contains_iff_get?.mpr ⟨n, hn⟩, s, hs, hbelow.within⟩
  by_cases hinbound : ∃ id r, z.get? id = some r ∧ rule ∈ r.inbound
  · obtain ⟨x', r, hr, hmem⟩ := hinbound
    obtain ⟨hrkept, target', hrfile, dir, specifier', hdirOf, ⟨n', params', hn', hp', hs'⟩, hknown⟩ :=
      h.leads x' r rule hr hmem (contains_iff_get?.mpr ⟨n, hn⟩)
    cases hn.symm.trans hn'
    cases hparams.symm.trans hp'
    cases hspecifier.symm.trans hs'
    obtain ⟨owner, s', howner', hs', hsdir⟩ := dirOf?_eq_some.mp hdirOf
    cases howner.symm.trans howner'
    cases hs.symm.trans hs'
    rw [hdir, hsdir, Option.getD_some, hknown] at hresolve
    cases hresolve
    obtain ⟨r', hr', hrfile'⟩ := normalize_of_holderOf? hholder
    rw [Resolution.normalize_of_known hknown] at hrfile'
    exact ⟨x', rule, ⟨r, r', target, hr, hrkept, hrfile, hr', hrfile'⟩, ⟨r, hr, hmem, howner⟩, hsame⟩
  · push Not at hinbound
    have hnone := h.nowhere x s rule specifier hs hkept hrule hinbound hsays
    rw [hdir, hnone] at hresolve
    cases hresolve

theorem transGen_imports (hx : z.Stands w x y)
    (hy : TransGen (w.LeadsTo (.known files.paths) base) y y') :
    ∃ x', z.Stands w x' y' ∧ TransGen z.Imports x x' := by
  induction hy with
  | single he =>
    obtain ⟨rule, layers, he⟩ := he
    obtain ⟨x', rule', hx', hi, -⟩ := h.exists_importsBy hx he
    exact ⟨x', hx', .single hi.imports⟩
  | tail _ he ih =>
    obtain ⟨x', hx', hreach⟩ := ih
    obtain ⟨rule, layers, he⟩ := he
    obtain ⟨x'', rule', hx'', hi, -⟩ := h.exists_importsBy hx' he
    exact ⟨x'', hx'', hreach.tail hi.imports⟩

/-- An import leads still where it did. -/
theorem exists_leadsTo (hi : z.Imports x x') :
    ∃ y y', z.Stands w x y ∧ z.Stands w x' y' ∧ w.LeadsTo (.known files.paths) base y y' := by
  obtain ⟨r, rule, hr, hmem, howner⟩ := hi
  obtain ⟨hlive, -⟩ := h.tidy.sheetOf?_eq_some.mp howner
  obtain ⟨a, s, ha, hs, hkept, himport⟩ := h.kept x' r rule hr hmem hlive
  cases howner.symm.trans ha
  obtain ⟨hrkept, target, hrfile, dir, specifier, hdirOf, ⟨n, params, hn, hparams, hspecifier⟩,
    hknown⟩ := h.leads x' r rule hr hmem hlive
  obtain ⟨b, s', hb, hs', hdir⟩ := dirOf?_eq_some.mp hdirOf
  cases howner.symm.trans hb
  cases hs.symm.trans hs'
  obtain ⟨path, hfile⟩ : ∃ path, s.file = some path := by
    cases hfile : s.file with
    | none => rw [Sheet.dir?, hfile] at hdir; cases hdir
    | some path => exact ⟨path, rfl⟩
  obtain ⟨y, hy⟩ := h.right x s path hs hkept hfile
  obtain ⟨y', hy'⟩ := h.right x' r target hr hrkept hrfile
  refine ⟨y, y', hy, hy', ?_⟩
  obtain ⟨s', t, path', hs', -, hfile', ht, htfile⟩ := id hy
  cases hs.symm.trans hs'
  cases hfile.symm.trans hfile'
  obtain ⟨r', t', target', hr', -, hrfile', ht', htfile'⟩ := id hy'
  cases hr.symm.trans hr'
  cases hrfile.symm.trans hrfile'
  have hwalk := (h.alike x y s t hy hs ht).outermost h.tidy.wellFormed h.reads.fresh.tidy.wellFormed
    (Node.formal_isAt "import")
  obtain ⟨rule', hrule', hlike⟩ := exists_of_forall₂ hwalk himport
  have hsame : (w.doc.get? rule').bind Node.params? = (z.doc.get? rule).bind Node.params? :=
    hlike.bind fun n m hform => by rw [Node.params?, Node.params?, hform]
  rw [hn, Option.bind_some, hparams] at hsame
  refine ⟨rule', Css.layerNames params, t, ht, hrule', destination_eq_sheet.mpr
    ⟨params, specifier, target, hsame, hspecifier, ?_, ?_, rfl⟩⟩
  · rw [Sheet.dir?_congr (htfile.trans hfile.symm), hdir, Option.getD_some, hknown]
  · rw [h.catalogued.holderOf?_eq_some, Resolution.normalize_of_known hknown]
    exact file?_eq_some.mpr ⟨t', ht', htfile'⟩

/-- **Imports are without cycles exactly when they were.** -/
theorem acyclic_iff : (∀ y, ¬ TransGen (w.LeadsTo (.known files.paths) base) y y) ↔
    ∀ id, ¬ TransGen z.Imports id id := by
  constructor
  · intro hw x hcycle
    have hrun : ∀ x', TransGen z.Imports x x' → ∃ y y', z.Stands w x y ∧ z.Stands w x' y' ∧
        TransGen (w.LeadsTo (.known files.paths) base) y y' := by
      intro x' hx'
      induction hx' with
      | single hi =>
        obtain ⟨y, y', hy, hy', hleads⟩ := h.exists_leadsTo hi
        exact ⟨y, y', hy, hy', .single hleads⟩
      | tail _ hi ih =>
        obtain ⟨y, y', hy, hy', hleads⟩ := ih
        obtain ⟨b, b', hb, hb', hnext⟩ := h.exists_leadsTo hi
        cases h.right_unique hy' hb
        exact ⟨y, b', hy, hb', hleads.tail hnext⟩
    obtain ⟨y, y', hy, hy', hleads⟩ := hrun x hcycle
    cases h.right_unique hy hy'
    exact hw y hleads
  · intro hz y hcycle
    obtain ⟨t, ht⟩ : ∃ t, w.get? y = some t := by
      obtain ⟨y', ⟨rule, layers, t, ht, -⟩, -⟩ := TransGen.head'_iff.mp hcycle
      exact ⟨t, ht⟩
    obtain ⟨x, hx⟩ := h.left y (lt_size ht)
    obtain ⟨x', hx', hreach⟩ := h.transGen_imports hx hcycle
    exact hz x (h.left_unique hx' hx ▸ hreach)

section inherited

variable {table : List (List SheetId)}
  (hl : (w.connect (.known files.paths) base).1.inheritLayers = .ok (table, v))
include hl

/-- What is in a layer was in one. -/
theorem inLayer (hx : z.Stands w x y) (hy : v.InLayer settings y) : z.InLayer settings x := by
  have hlinked := linked_connect h.reads.fresh (.known files.paths) base
  have hsame := hlinked.same.trans (sameButLinks_inheritLayers hl)
  obtain ⟨top, ⟨a, rule, n, params, l, ha, hr, hn, hparams, hlayer, hsplit⟩, hreach⟩ := hy
  obtain ⟨source, layers, he⟩ := (mem_inbound_inherited hlinked hl ha rule).mp hr
  obtain ⟨b, hb, -⟩ := id he
  obtain ⟨home, hhome⟩ := h.left source (lt_size hb)
  obtain ⟨above, rule', habove, hi, hwritten⟩ := h.exists_importsBy hhome he
  have hnamed : z.NamedSplit settings above := by
    obtain ⟨r, hr, hmem, -⟩ := hi
    rw [hsame.doc] at hn
    rw [hn, Option.bind_some, hparams] at hwritten
    obtain ⟨n', hn', hparams'⟩ := Option.bind_eq_some_iff.mp hwritten
    exact ⟨r, rule', n', params, l, hr, hmem, hn', hparams', hlayer, hsplit⟩
  have hpath : ∃ x', z.Stands w x' y ∧ z.Reaches above x' := by
    clear hx
    induction hreach with
    | refl => exact ⟨above, habove, .refl⟩
    | tail _ hi ih =>
      obtain ⟨x', hx', hreach⟩ := ih
      obtain ⟨rule, layers, he⟩ := (imports_iff_edge h.reads.fresh hlinked hl _ _).mp hi
      obtain ⟨x'', rule', hx'', hi, -⟩ := h.exists_importsBy hx' he
      exact ⟨x'', hx'', hreach.tail hi.imports⟩
  obtain ⟨x', hx', hreach⟩ := hpath
  cases h.left_unique hx hx'
  exact ⟨above, hnamed, hreach⟩

end inherited

end Reread

end Strata.Workspace
