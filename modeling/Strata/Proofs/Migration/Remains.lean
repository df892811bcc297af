import Strata.Proofs.Migration.Content
import Strata.Proofs.Migration.PlainImports
import Strata.Proofs.Split.Layout
import Strata.Proofs.Transform.Exhaustion

/-! What a migration leaves below the roots of stylesheets.

Below a node that was there stands what stood there, and a companion only beside an import
(`Migrated.child_cases`). Below the root of a derived stylesheet stand companions and utilities
(`Migrated.derived_child_cases`). So a stylesheet that stayed whole still holds nothing but utilities,
and no stylesheet has got anything to convert. -/
namespace Strata

namespace Transform

variable {settings : Settings} {n : Node} {name : String}

theorem ruleClass?_of_isAt (h : n.isAt name = true) : ruleClass? n = none := by
  rcases n with ⟨form, span, origin⟩
  cases form <;> first | rfl | cases h

theorem isLayerBlock_of_isAt (hname : Text.sameCaseless name "layer" = false)
    (h : n.isAt name = true) : isLayerBlock settings n = false := by
  rcases n with ⟨form, span, origin⟩
  cases form with
  | atRule own params block =>
    cases block with
    | false => rfl
    | true =>
      have hown : own.toLower = name.toLower := beq_iff_eq.mp h
      have hlayer : Text.sameCaseless own "layer" = false := by
        rw [Text.sameCaseless, hown]
        exact hname
      simp only [isLayerBlock, hlayer, Bool.false_and]
  | _ => rfl

end Transform

namespace Workspace

open Forest Document Transform

variable {w v u z : Workspace} {settings : Settings} {d : Derivations} {c p : NodeId} {id : SheetId}
  {t : Sheet}

namespace Migrated

variable (h : Migrated w settings d v u z)
include h

/-- The roots of derived stylesheets are new. -/
theorem new_root_of_derived (hid : w.sheets.size ≤ id) {r : Sheet} (hr : v.get? id = some r) :
    w.doc.contains r.root = false := (h.parted.divided.bare id r hid hr).2

/-- What stands below a node that was there stood there, or it is a companion and stands beside
an import that stood there. -/
theorem child_cases (hc : z.doc.parent? c = some p) (hp : w.doc.contains p = true) :
    w.doc.parent? c = some p ∧ z.doc.get? c = w.doc.get? c ∨
      (z.doc.get? c).any Node.isImportRule = true ∧
        ∃ rule, w.doc.parent? rule = some p ∧ (w.doc.get? rule).any Node.isImportRule = true := by
  have hz := contains_of_parent? hc
  have hstays : ∀ x, w.doc.contains x = true → v.doc.parent? x = some p → w.doc.parent? x = some p := by
    intro x hx hparent
    cases hm : w.isMoved settings d.pairs x with
    | false => rwa [h.parted.divided.stayed x hx hm] at hparent
    | true =>
      obtain ⟨donor, derived, hpair, hutility⟩ := isMoved_iff.mp hm
      obtain ⟨hle, hlt⟩ := h.parted.divided.pair donor derived hpair
      obtain ⟨r, hr⟩ := get?_isSome.mpr hlt
      rw [h.parted.divided.moved donor derived r x hpair hr hutility] at hparent
      cases hparent
      rw [h.new_root_of_derived hle hr] at hp
      cases hp
  cases hw : w.doc.contains c with
  | true =>
    rw [h.parent_eq hw hz] at hc
    exact Or.inl ⟨hstays c hw hc, h.data_eq hw hz⟩
  | false =>
    rcases h.created hz hw with ⟨n, hn, himport, -⟩ | ⟨id, t, -, ht, -, rfl⟩
    · refine Or.inr ⟨by rw [hn, Option.any_some, himport], ?_⟩
      rw [h.cleaned.thinned.parent c hz] at hc
      have hu := contains_of_parent? hc
      cases hv : v.doc.contains c with
      | true =>
        rcases (h.parted.divided.live c).mp hv with hold | ⟨id, r, -, hr, rfl⟩
        · rw [hold] at hw
          cases hw
        · rw [h.parted.accompanied.grown.parent _ hv, h.parted.divided.tidy.parent?_root hr] at hc
          cases hc
      | false =>
        obtain ⟨e, he, home, container, hsite, hparent, -⟩ :=
          (h.parted.attended h.analysed).created c hu hv
        cases hc.symm.trans hparent
        cases hsite with
        | front _ hof _ hr =>
          have hle := (h.parted.divided.pair _ _ ((of?_eq_some h.parted.donors).mp hof)).1
          rw [h.new_root_of_derived hle hr] at hp
          cases hp
        | beside _ _ hrule =>
          obtain ⟨hpair, hauthored⟩ := mem_errands.mp he
          obtain ⟨s, hs, -, -, hinbound, -⟩ := h.parted.authoredImports_eq h.analysed hpair
          rw [hinbound] at hauthored
          obtain ⟨⟨n, -, -, hn, himport, -⟩, -⟩ := (h.analysed.rule _ s e.rule hs hauthored).1
          exact ⟨e.rule, hstays e.rule (contains_iff_get?.mpr ⟨n, hn⟩) hrule,
            by rw [hn, Option.any_some, himport]⟩
    · rw [h.cleaned.tidy.parent?_root ht] at hc
      cases hc

/-- What is an import now was one after the split. -/
theorem any_isImportRule_eq {x : NodeId} (hx : z.doc.contains x = true) :
    (z.doc.get? x).any Node.isImportRule = (u.doc.get? x).any Node.isImportRule := by
  rcases h.cleaned.data x hx with heq | ⟨-, m, params, hm, heq⟩
  · rw [heq]
  · rw [heq, hm, Option.any_some, Option.any_some]
    exact Node.isImportRule_withParams params m

/-- No import is above one of a stylesheet's own. -/
theorem clear_above_inbound {s : Sheet} {rule a : NodeId} (hs : u.get? id = some s)
    (hr : rule ∈ s.inbound) (ha : u.doc.Below a rule) :
    (u.doc.get? a).any Node.isImportRule = false := by
  have habove := ha
  obtain ⟨parent, hparent, hwithin⟩ := habove
  rcases h.parted.inbound_cases h.analysed hs hr with ⟨-, hat, hlive⟩ | ⟨hnew, hlive, -⟩
  · by_contra himport
    rw [Bool.not_eq_false] at himport
    obtain ⟨hold, hbefore⟩ := h.parted.import_above h.analysed hlive ha.within himport
    have hne := (h.tidy_split.wellFormed.below_iff.mp ha).2
    rw [h.parted.data hold, hat.outermost a
      (h.analysed.tidy.wellFormed.below_iff.mpr ⟨hbefore, hne⟩)] at himport
    cases himport
  · obtain ⟨-, p, hp, hold, hclear⟩ := h.parted.accompanied.added rule hlive hnew
    cases hparent.symm.trans hp
    have hbefore := (h.parted.accompanied.grown.within_iff h.parted.divided.tidy.wellFormed hold).mp
      hwithin
    rw [h.parted.accompanied.grown.data a
      (h.parted.divided.tidy.wellFormed.contains_above hbefore hold)]
    exact hclear a hbefore

/-- An import that is left is one of a stylesheet that is kept. -/
theorem mem_imports_of_inbound (ht : z.get? id = some t) {rule : NodeId} (hr : rule ∈ t.inbound)
    (hlive : z.doc.contains rule = true) : ∃ x s, z.sheetOf? rule = some x ∧ z.get? x = some s ∧
      s.discarded = false ∧ rule ∈ z.doc.imports s.root := by
  obtain ⟨r, hr', hleaves⟩ := h.cleaned.sheet id t ht
  have himport := h.parted.isImportRule_inbound h.analysed hr' (hleaves.subset hr)
  rw [← h.any_isImportRule_eq hlive] at himport
  obtain ⟨x, s, hx, hs, hwithin⟩ := h.cleaned.tidy.exists_sheetOf? hlive
  have hne : rule ≠ s.root := by
    rintro rfl
    obtain ⟨n, hn, hname⟩ := (Option.any_eq_true _ _).mp himport
    rw [isImportRule_of_isRoot ((Document.Tidy.form h.cleaned.tidy _ n hn).mpr
      (root_mem_roots hs))] at hname
    cases hname
  refine ⟨x, s, hx, hs, h.cleaned.not_discarded hx hs hne, ?_⟩
  refine h.cleaned.tidy.wellFormed.mem_outermost.mpr
    ⟨h.cleaned.tidy.wellFormed.below_iff.mpr ⟨hwithin, hne⟩, himport, fun a _ ha => ?_⟩
  obtain ⟨hwithin, hne⟩ := h.cleaned.tidy.wellFormed.below_iff.mp ha
  rw [h.any_isImportRule_eq (h.cleaned.tidy.wellFormed.contains_above hwithin hlive)]
  exact h.clear_above_inbound hr' (hleaves.subset hr) (h.tidy_split.wellFormed.below_iff.mpr
    ⟨h.cleaned.thinned.within_before hwithin, hne⟩)

section utilities

variable (hat : Text.sameCaseless settings.atRule "import" = false)
include hat

/-- Below the root of a derived stylesheet stand imports and utilities. -/
theorem derived_child_cases (hid : w.sheets.size ≤ id) (ht : z.get? id = some t)
    (hc : z.doc.parent? c = some t.root) :
    (z.doc.get? c).any Node.isImportRule = true ∨ (z.doc.get? c).any (Node.isAt settings.atRule) = true := by
  have hz := contains_of_parent? hc
  obtain ⟨s, hs, hst⟩ := h.cleaned.sheet id t ht
  rw [h.cleaned.thinned.parent c hz, hst.root] at hc
  obtain ⟨imports, hchildren, himports⟩ := (h.parted.laidOut h.analysed hat).top id s hid hs
  have hmem := (h.parted.accompanied.tidy.wellFormed.listed c s.root).mpr hc
  rw [hchildren, List.mem_append] at hmem
  rcases hmem with hcompanion | hutility
  · obtain ⟨n, hn, himport, -⟩ := himports c hcompanion
    left
    rcases h.cleaned.data c hz with heq | ⟨-, m, params, hm, heq⟩
    · rw [heq, hn, Option.any_some, himport]
    · rw [hn] at hm
      cases hm
      rw [heq, Option.any_some, Node.isImportRule_withParams, himport]
  · obtain ⟨donor, -, hutility⟩ := List.mem_flatMap.mp hutility
    obtain ⟨o, ho, -⟩ := exists_sheet_of_utility h.analysed.tidy hutility
    right
    rw [h.data_eq (Workspace.live_utility h.analysed.tidy hutility) hz]
    exact ((mem_utilities h.analysed.tidy ho).mp hutility).2.1

/-- A derived stylesheet holds a utility. -/
theorem exists_utility_of_derived (hid : w.sheets.size ≤ id) (ht : z.get? id = some t) :
    ∃ x, z.doc.parent? x = some t.root ∧ (z.doc.get? x).any (Node.isAt settings.atRule) = true := by
  obtain ⟨s, hs, -⟩ := h.cleaned.sheet id t ht
  have hdonors := ((h.parted.laidOut h.analysed hat).made id).mpr ⟨hid, lt_size hs⟩
  obtain ⟨donor, hdonor⟩ := List.exists_mem_of_ne_nil _ hdonors
  have hp := Derivations.mem_donorsOf.mp hdonor
  obtain ⟨x, hx⟩ := List.exists_mem_of_ne_nil _ (h.parted.splits h.analysed hp).canSplit.utilities
  obtain ⟨o, ho, -⟩ := exists_sheet_of_utility h.analysed.tidy hx
  obtain ⟨t', ht', hparent⟩ := h.moved hat hp hx
  cases ht.symm.trans ht'
  refine ⟨x, hparent, ?_⟩
  rw [h.data_eq (Workspace.live_utility h.analysed.tidy hx) (contains_of_parent? hparent)]
  exact ((mem_utilities h.analysed.tidy ho).mp hx).2.1

/-- **A stylesheet in a split layer that was not split, and that holds a utility, holds nothing
else.** -/
theorem consistsOf_utilities (hs : w.get? id = some t) (hfile : t.file.isSome = true)
    (hlayers : t.meetsLayers settings.layers = true) (hutility : z.HoldsUtility settings id) :
    ∀ c, z.doc.parent? c = some t.root → (z.doc.get? c).any (Node.isAt settings.atRule) = true := by
  obtain ⟨hne, hwhole⟩ := h.not_splits hat (lt_size hs) hutility
  obtain ⟨hkept, hderived⟩ := h.analysed.plain id t hs
  have hcan : w.CanSplit settings id := by
    refine ⟨?_, hne⟩
    rw [isEligible, hs, Option.any_some, hfile, hkept, hderived, hlayers]
    rfl
  have hself : w.IsSelfContained settings id := by
    by_contra hno
    exact hwhole (.mixed hcan hno)
  rw [IsSelfContained, Bool.and_eq_true, consistsOf_iff hs] at hself
  have hall : ∀ c, w.doc.parent? c = some t.root →
      (w.doc.get? c).any (Node.isAt settings.atRule) = true := by
    intro c hc
    have hchild := (h.analysed.tidy.wellFormed.listed c t.root).mpr hc
    exact ((mem_utilities h.analysed.tidy hs).mp (hself.1.2 c hchild)).2.1
  intro c hc
  rcases h.child_cases hc (h.analysed.tidy.live hs) with ⟨hbefore, heq⟩ | ⟨-, rule, hrule, himport⟩
  · rw [heq]
    exact hall c hbefore
  · obtain ⟨n, hn, hname⟩ := (Option.any_eq_true _ _).mp (hall rule hrule)
    rw [hn, Option.any_some, isImportRule_of_isAt hat hname] at himport
    cases himport

end utilities

end Migrated

/-! ### Conversions -/

theorem isClassRule_of_isAt {doc : Document} {name : String} (h : (doc.get? c).any (Node.isAt name) = true) :
    isClassRule doc c = false := by
  obtain ⟨n, hn, hname⟩ := (Option.any_eq_true _ _).mp h
  rw [isClassRule, hn, Option.bind_some, ruleClass?_of_isAt hname]
  rfl

theorem any_isLayerBlock_of_isAt {doc : Document} {name : String}
    (hlayer : Text.sameCaseless name "layer" = false)
    (h : (doc.get? c).any (Node.isAt name) = true) :
    (doc.get? c).any (isLayerBlock settings) = false := by
  obtain ⟨n, hn, hname⟩ := (Option.any_eq_true _ _).mp h
  rw [hn, Option.any_some, isLayerBlock_of_isAt hlayer hname]

theorem any_isLayerBlock_of_import {doc : Document}
    (h : (doc.get? c).any Node.isImportRule = true) :
    (doc.get? c).any (isLayerBlock settings) = false :=
  any_isLayerBlock_of_isAt (by decide +kernel) h

namespace Migrated

variable (h : Migrated w settings d v u z)
include h

theorem layerBlock_before (hp : w.doc.contains p = true) {block : NodeId}
    (hm : block ∈ layerBlocksOf settings p z.doc) : block ∈ layerBlocksOf settings p w.doc := by
  obtain ⟨hin, hlayer⟩ := List.mem_filter.mp hm
  rcases h.child_cases ((h.cleaned.tidy.wellFormed.listed block p).mp hin) hp with
    ⟨hbefore, heq⟩ | ⟨himport, -⟩
  · rw [heq] at hlayer
    exact List.mem_filter.mpr ⟨(h.analysed.tidy.wellFormed.listed block p).mpr hbefore, hlayer⟩
  · rw [any_isLayerBlock_of_import himport] at hlayer
    cases hlayer

theorem classRule_before (hp : w.doc.contains p = true) (hc : c ∈ z.doc.children p)
    (hclass : isClassRule z.doc c = true) : c ∈ w.doc.children p ∧ isClassRule w.doc c = true := by
  rcases h.child_cases ((h.cleaned.tidy.wellFormed.listed c p).mp hc) hp with
    ⟨hbefore, heq⟩ | ⟨himport, -⟩
  · rw [isClassRule, heq] at hclass
    exact ⟨(h.analysed.tidy.wellFormed.listed c p).mpr hbefore, hclass⟩
  · rw [isClassRule_of_isAt himport] at hclass
    cases hclass

/-- What is to be converted was to be converted. -/
theorem converts_before {context : SheetFacts} (hp : w.doc.contains p = true)
    (hsettings : context.settings = settings) (hc : Converts context p z.doc c) :
    Converts context p w.doc c := by
  subst hsettings
  obtain ⟨hclass, ⟨block, hblock, hin⟩ | ⟨hmember, hin⟩⟩ := hc
  · have hbefore := h.layerBlock_before hp hblock
    have hlive := h.analysed.tidy.wellFormed.contains_child (List.mem_of_mem_filter hbefore)
    obtain ⟨hin, hclass⟩ := h.classRule_before hlive hin hclass
    exact ⟨hclass, Or.inl ⟨block, hbefore, hin⟩⟩
  · obtain ⟨hin, hclass⟩ := h.classRule_before hp hin hclass
    exact ⟨hclass, Or.inr ⟨hmember, hin⟩⟩

/-- In a derived stylesheet there is nothing to convert. -/
theorem not_converts_of_derived (hat : Text.sameCaseless settings.atRule "import" = false)
    (hlayer : Text.sameCaseless settings.atRule "layer" = false) (hid : w.sheets.size ≤ id)
    (ht : z.get? id = some t) {context : SheetFacts} (hsettings : context.settings = settings) :
    ¬ Converts context t.root z.doc c := by
  subst hsettings
  have hwf := h.cleaned.tidy.wellFormed
  have htop : ∀ x ∈ z.doc.children t.root, isClassRule z.doc x = false ∧
      (z.doc.get? x).any (isLayerBlock context.settings) = false := by
    intro x hx
    rcases h.derived_child_cases hat hid ht ((hwf.listed x t.root).mp hx) with himport | hname
    · exact ⟨isClassRule_of_isAt himport, any_isLayerBlock_of_import himport⟩
    · exact ⟨isClassRule_of_isAt hname, any_isLayerBlock_of_isAt hlayer hname⟩
  rintro ⟨hclass, ⟨block, hblock, -⟩ | ⟨-, hin⟩⟩
  · obtain ⟨hin, hmatch⟩ := List.mem_filter.mp hblock
    rw [(htop block hin).2] at hmatch
    cases hmatch
  · rw [(htop c hin).1] at hclass
    cases hclass

end Migrated

end Workspace

end Strata
