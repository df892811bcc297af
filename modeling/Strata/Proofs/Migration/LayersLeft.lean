import Strata.Proofs.Connection
import Strata.Proofs.Inheritance
import Strata.Proofs.Migration.Survival
import Strata.Proofs.Transform

/-! Layers that imports give.

A stylesheet is `InLayer` when an import names a split layer for it, or for one that it is reached
from. Once layers are inherited these are the stylesheets that have such a layer
(`meetsLayers_iff_inLayer`), and a migration leaves none in a layer that was not in one
(`Migrated.inLayer_before`). -/
namespace Strata.Workspace

open Relation

variable {w v u z : Workspace} {settings : Settings} {d : Derivations} {resolve : Resolution}
  {base : FilePath} {table : List (List SheetId)} {id : SheetId} {s t : Sheet}

/-- A stylesheet has the layers that its imports name. -/
def Labelled (w : Workspace) : Prop :=
  ∀ id s rule n params, w.get? id = some s → rule ∈ s.inbound → w.doc.get? rule = some n →
    n.params? = some params → ∀ l ∈ Css.layerNames params, l ∈ s.layers

/-- An import of the stylesheet names a layer that is split. -/
def NamedSplit (w : Workspace) (settings : Settings) (id : SheetId) : Prop :=
  ∃ s rule n params l, w.get? id = some s ∧ rule ∈ s.inbound ∧ w.doc.get? rule = some n ∧
    n.params? = some params ∧ l ∈ Css.layerNames params ∧ l ∈ settings.layers

/-- An import names a layer that is split for the stylesheet, or for one that it is reached from. -/
def InLayer (w : Workspace) (settings : Settings) (id : SheetId) : Prop :=
  ∃ top, w.NamedSplit settings top ∧ w.Reaches top id

theorem meetsLayers_iff {layers : List String} :
    s.meetsLayers layers = true ↔ ∃ l ∈ layers, l ∈ s.layers := by
  simp only [Sheet.meetsLayers, List.any_eq_true, List.contains_iff_mem]

section inherited

variable (h : w.Fresh) (hl : (w.connect resolve base).1.inheritLayers = .ok (table, v))
include h hl

theorem labelled_of_inherited : v.Labelled := by
  have hc := connected_connect h resolve base
  intro id t rule n params ht hr hn hparams l hlayer
  rw [get?_inheritLayers hl] at ht
  obtain ⟨s, hs, rfl⟩ := Option.map_eq_some_iff.mp ht
  obtain ⟨x, written, hpoints⟩ := (hc.inbound id s hs rule).mp hr
  rw [(sameButLinks_inheritLayers hl).doc, hc.same.doc] at hn
  have hwritten : written = params := by
    obtain ⟨-, -, -, -, -, heq, -⟩ := hpoints
    rw [hn, Option.bind_some, hparams] at heq
    exact (Option.some.inj heq).symm
  subst hwritten
  refine (Ordered.mem_insertAll _ _ _ _).mpr (Or.inr ?_)
  rw [hc.layers id s hs]
  exact (hc.namedLayers id s hs l).mpr ⟨x, rule, written, hpoints, hlayer⟩

theorem reaches_of_above {top : SheetId} (ha : (w.connect resolve base).1.Above id top) :
    v.Reaches top id := by
  have hv := analysed h hl
  have hstep : (w.connect resolve base).1.ParentOf = Function.swap v.Imports := by
    funext y x
    exact propext ((parentOf_inheritLayers hl y x).symm.trans (hv.parents y x))
  rw [Above, hstep] at ha
  exact (transGen_swap.mp ha).to_reflTransGen

/-- **Once layers are inherited, a stylesheet has a split layer exactly when imports give it one.** -/
theorem meetsLayers_iff_inLayer (ht : v.get? id = some t) :
    t.meetsLayers settings.layers = true ↔ v.InLayer settings id := by
  have hc := connected_connect h resolve base
  have hv := analysed h hl
  rw [meetsLayers_iff]
  constructor
  · rintro ⟨l, hsplit, hlayer⟩
    have hs := ht
    rw [get?_inheritLayers hl] at hs
    obtain ⟨s, hs, -⟩ := Option.map_eq_some_iff.mp hs
    have hsource : ∃ top a, (w.connect resolve base).1.get? top = some a ∧ l ∈ a.namedLayers ∧
        v.Reaches top id := by
      rcases (mem_layers_inheritLayers hl hs ht l).mp hlayer with hown | ⟨top, a, habove, ha, hnamed⟩
      · exact ⟨id, s, hs, hc.layers id s hs ▸ hown, .refl⟩
      · exact ⟨top, a, ha, hnamed, reaches_of_above h hl habove⟩
    obtain ⟨top, a, ha, hnamed, hreach⟩ := hsource
    obtain ⟨x, rule, params, hpoints, hlayer⟩ := (hc.namedLayers top a ha l).mp hnamed
    have hrule := (hc.inbound top a ha rule).mpr ⟨x, params, hpoints⟩
    obtain ⟨-, -, -, -, -, hparams, -⟩ := hpoints
    obtain ⟨n, hn, hparams⟩ := Option.bind_eq_some_iff.mp hparams
    have hget := get?_inheritLayers hl top
    rw [ha, Option.map_some] at hget
    refine ⟨top, ⟨_, rule, n, params, l, hget, hrule, ?_, hparams, hlayer, hsplit⟩, hreach⟩
    · rw [(sameButLinks_inheritLayers hl).doc, hc.same.doc, hn]
  · rintro ⟨top, ⟨a, rule, n, params, l, ha, hr, hn, hparams, hlayer, hsplit⟩, hreach⟩
    have hnamed := labelled_of_inherited h hl top a rule n params ha hr hn hparams l hlayer
    refine ⟨l, hsplit, ?_⟩
    have hall : ∀ y, v.Reaches top y → ∀ t, v.get? y = some t → l ∈ t.layers := by
      intro y hy
      induction hy with
      | refl =>
        intro t ht
        cases ha.symm.trans ht
        exact hnamed
      | @tail x y _ hi ih =>
        intro t ht
        obtain ⟨s, hs⟩ := get?_isSome.mpr (lt_size_of_imports hi hv.tidy)
        exact hv.layered x y s t hs ht hi l (ih s hs)
    exact hall id hreach t ht

end inherited

theorem Labelled.reshaped {atRule : String} {g : Document} (hlabels : w.Labelled) (h : w.Analysed)
    (hg : Document.Reshaped atRule w.roots w.doc g) : Labelled { w with doc := g } := by
  intro id s rule n params hs hr hn hparams
  obtain ⟨m, _, _, hm, himport, -⟩ := (h.rule id s rule hs hr).1.readable
  have hkept := hg.kept rule m (Node.isFixed_of_isImportRule himport) hm
  have hsame : m = n := Option.some.inj (hkept.symm.trans hn)
  exact hlabels id s rule n params hs hr (hsame ▸ hm) hparams

namespace Migrated

variable (h : Migrated w settings d v u z)
include h

/-- An import of a stylesheet that was there is an import that it had. -/
theorem inbound_before {t : Sheet} (hs : w.get? id = some s) (ht : z.get? id = some t) :
    t.inbound ⊆ s.inbound := by
  obtain ⟨s', hs', hleaves⟩ := h.cleaned.sheet id t ht
  rw [h.parted.original (lt_size hs), hs] at hs'
  cases hs'
  exact hleaves.subset

theorem live_inbound {rule : NodeId} (hs : w.get? id = some s) (hr : rule ∈ s.inbound) :
    w.doc.contains rule = true := by
  obtain ⟨n, -, -, hn, -⟩ := (h.analysed.rule id s rule hs hr).1.readable
  exact Forest.contains_iff_get?.mpr ⟨n, hn⟩

/-- **What is in a layer behind a migration was in a layer.** -/
theorem inLayer_before (hlabels : w.Labelled)
    (hs : w.get? id = some s) (hz : z.InLayer settings id) : s.meetsLayers settings.layers = true := by
  obtain ⟨top, hnamed, hreach⟩ := hz
  induction hreach generalizing s with
  | refl =>
    obtain ⟨t, rule, n, params, l, ht, hr, hn, hparams, hlayer, hsplit⟩ := hnamed
    have hr := h.inbound_before hs ht hr
    rw [h.data_eq (h.live_inbound hs hr) (Forest.contains_iff_get?.mpr ⟨n, hn⟩)] at hn
    exact meetsLayers_iff.mpr ⟨l, hsplit, hlabels _ s rule n params hs hr hn hparams l hlayer⟩
  | @tail x y _ hi ih =>
    obtain ⟨t, rule, ht, hr, hx⟩ := hi
    have hr := h.inbound_before hs ht hr
    have hwlive := h.live_inbound hs hr
    obtain ⟨owner, r, howner, hget, -⟩ := h.analysed.tidy.exists_sheetOf? hwlive
    have hhanded : r.meetsLayers settings.layers = true → s.meetsLayers settings.layers = true := by
      simp only [meetsLayers_iff]
      rintro ⟨l, hsplit, hlayer⟩
      exact ⟨l, hsplit, h.analysed.layered owner y r s hget hs ⟨s, rule, hs, hr, howner⟩ l hlayer⟩
    obtain ⟨hzlive, -⟩ := h.cleaned.tidy.sheetOf?_eq_some.mp hx
    rw [h.cleaned.sheetOf?_eq h.tidy_split hzlive] at hx
    refine hhanded ?_
    rcases unmoved_or_carried w settings d.pairs rule with hstays | ⟨derived, hcarried⟩
    · rw [h.parted.sheetOf?_unmoved h.analysed hwlive hstays, howner] at hx
      cases hx
      exact ih hget
    · -- The import is within a utility that has moved, so its stylesheet was split.
      obtain ⟨donor, hp, hdonor⟩ := hcarried.donor h.analysed.tidy
      cases howner.symm.trans hdonor
      have heligible := (h.parted.splits h.analysed hp).canSplit.eligible
      rw [isEligible, hget, Option.any_some] at heligible
      exact (Bool.and_eq_true _ _ ▸ heligible).2

end Migrated

end Strata.Workspace
