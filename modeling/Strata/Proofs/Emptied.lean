import Mathlib.Order.Bounds.Basic
import Strata.Proofs.Split.Standing

/-! The stylesheets that a cleanup discards.

A stylesheet goes when all below its root are imports of stylesheets that go, as when there is nothing
below it. `Drained` says of some stylesheets that they are closed under this. What the passes discard
is drained in the end, and a pass discards nothing that is not in all that is drained (`Sweeping`);
so the discarded stylesheets are the least that are (`swept_cleanUp`). -/
namespace Strata.Workspace

open Forest

variable {u v w z : Workspace} {id : SheetId}

/-- The stylesheets that are not discarded and have content. -/
def emptiable (u : Workspace) : Set SheetId :=
  {id | ∃ s, u.get? id = some s ∧ s.discarded = false ∧ isBlankText s.content = false}

/-- Some stylesheets, among them each that has nothing below its root but imports of others of them. -/
structure Drained (u : Workspace) (gone : Set SheetId) : Prop where
  subset : gone ⊆ u.emptiable
  closed : ∀ id s, id ∈ u.emptiable → u.get? id = some s →
    (∀ c ∈ u.doc.children s.root, ∃ other ∈ gone, ∃ t, u.get? other = some t ∧ c ∈ t.inbound) →
    id ∈ gone

/-- `z` is `u` with the least drained stylesheets discarded, in some passes. -/
structure Swept (u z : Workspace) (done : Cleanup) : Prop where
  least : IsLeast {gone | u.Drained gone} {id | id ∈ done.discarded}
  once : done.discarded.Nodup
  size : z.sheets.size = u.sheets.size
  sheet : ∀ id s, u.get? id = some s → ∃ t, z.get? id = some t ∧ t.root = s.root ∧
    (t.discarded = true ↔ id ∈ done.discarded) ∧
    t.inbound = if id ∈ done.discarded then [] else s.inbound
  live : ∀ x, z.doc.contains x = true ↔ u.doc.contains x = true ∧
    ∀ id ∈ done.discarded, ∀ s rule, u.get? id = some s → rule ∈ s.inbound → ¬ u.doc.Within rule x
  printed : ∀ id ∈ u.emptiable, id ∉ done.discarded → isBlankText (z.css id) = false
  passes : done.passes ≤ done.discarded.length + 1

/-! ### Emptied stylesheets -/

theorem Pruned.content (h : Pruned u w) {s t : Sheet} (hs : u.get? id = some s)
    (ht : w.get? id = some t) : t.content = s.content := by
  obtain ⟨s', hs', rfl | rfl⟩ := h.sheet id t ht
  · cases hs.symm.trans hs'
    rfl
  · cases hs.symm.trans hs'
    rfl

/-- Nothing is left below a root when all that was there are imports of discarded stylesheets. -/
theorem Pruned.children_root_eq_nil_iff (h : Pruned u w) (hu : u.Standing) {s : Sheet}
    (hs : u.get? id = some s) :
    w.doc.children s.root = [] ↔ ∀ c ∈ u.doc.children s.root, Unlinked u w c := by
  have hlive : w.doc.contains s.root = true := by
    obtain ⟨t, ht, hroot⟩ := h.get?_of_left hs
    exact hroot ▸ (h.tidy hu).live ht
  rw [h.thinned.children s.root hlive, List.filter_eq_nil_iff]
  refine forall₂_congr fun c hc => ?_
  have hparent := (hu.tidy.wellFormed.listed c s.root).mp hc
  constructor
  · intro hgone
    by_contra hno
    refine hgone ((h.thinned.live c).mpr ⟨contains_of_parent? hparent, fun rule hrule hw => ?_⟩)
    rcases hw.cases_parent with rfl | ⟨p, hp, hw⟩
    · exact hno hrule
    · cases hparent.symm.trans hp
      obtain rfl := hw.eq_of_parent?_eq_none (hu.tidy.parent?_root hs)
      obtain ⟨other, t, -, ht, -, -, hr⟩ := hrule
      exact hu.rules other t _ ht hr (root_mem_roots hs)
  · intro hrule hleft
    exact ((h.thinned.live c).mp hleft).2 c hrule (Within.refl c)

/-! ### Passes -/

theorem get?_foldl_discard (w : Workspace) (ids : List SheetId) (x : SheetId) :
    (ids.foldl discard w).get? x =
      if x ∈ ids then (w.get? x).map fun s => { s with discarded := true, inbound := [] }
      else w.get? x := by
  induction ids generalizing w with
  | nil => simp
  | cons id ids ih =>
    rw [List.foldl_cons, ih, get?_discard]
    by_cases hx : x = id
    · by_cases hmem : x ∈ ids
      · simp [hx, hx ▸ hmem, Option.map_map, Function.comp_def]
      · simp [hx, hx ▸ hmem]
    · simp [hx]

/-- What the passes so far have done: they have discarded stylesheets that are in all that is
drained, at least one in every pass. -/
structure Sweeping (u w : Workspace) (done : Cleanup) : Prop where
  pruned : Pruned u w
  marked : ∀ id t, w.get? id = some t → (t.discarded = true ↔ id ∈ done.discarded)
  emptiable : ∀ id ∈ done.discarded, id ∈ u.emptiable
  once : done.discarded.Nodup
  forced : ∀ gone, u.Drained gone → ∀ id ∈ done.discarded, id ∈ gone
  passes : done.passes ≤ done.discarded.length

theorem sweeping_refl (hu : u.Standing) : Sweeping u u {} where
  pruned := pruned_refl hu
  marked id t ht := by simp [hu.kept id t ht]
  emptiable _ hid := absurd hid List.not_mem_nil
  once := List.nodup_nil
  forced _ _ _ hid := absurd hid List.not_mem_nil
  passes := Nat.le_refl 0

namespace Sweeping

variable {done : Cleanup} (h : Sweeping u w done) (hu : u.Standing)
include h

theorem unlinked_iff (rule : NodeId) : Unlinked u w rule ↔
    ∃ id ∈ done.discarded, ∃ s, u.get? id = some s ∧ rule ∈ s.inbound := by
  constructor
  · rintro ⟨id, s, t, hs, ht, hd, hr⟩
    exact ⟨id, (h.marked id t ht).mp hd, s, hs, hr⟩
  · rintro ⟨id, hid, s, hs, hr⟩
    obtain ⟨t, ht, -⟩ := h.pruned.get?_of_left hs
    exact ⟨id, s, t, hs, ht, (h.marked id t ht).mpr hid, hr⟩

theorem length_le : done.discarded.length ≤ u.sheets.size := by
  have hsub : done.discarded ⊆ List.range u.sheets.size := by
    intro id hid
    obtain ⟨s, hs, -⟩ := h.emptiable id hid
    exact List.mem_range.mpr (lt_size hs)
  simpa using (h.once.subperm hsub).length_le

include hu

/-- A stylesheet is emptied when it is not discarded yet and all below its root is. -/
theorem isEmptied_iff : w.isEmptied id = true ↔ id ∉ done.discarded ∧ id ∈ u.emptiable ∧
    ∀ s, u.get? id = some s → ∀ c ∈ u.doc.children s.root, Unlinked u w c := by
  cases hs : u.get? id with
  | none =>
    have ht : w.get? id = none := by
      cases ht : w.get? id with
      | none => rfl
      | some t =>
        obtain ⟨s, hs', -⟩ := h.pruned.root ht
        cases hs.symm.trans hs'
    simp [isEmptied, ht, Workspace.emptiable, hs]
  | some s =>
    obtain ⟨t, ht, hroot⟩ := h.pruned.get?_of_left hs
    rw [Workspace.isEmptied_iff (h.pruned.tidy hu) ht, h.pruned.content hs ht, hroot,
      h.pruned.children_root_eq_nil_iff hu hs, ← h.marked id t ht]
    simp [Workspace.emptiable, hs, hu.kept id s hs]

/-- One more pass that finds emptied stylesheets. -/
theorem pass (hsome : w.ids.filter w.isEmptied ≠ []) :
    Sweeping u ((w.ids.filter w.isEmptied).foldl discard w)
      { done with
        passes := done.passes + 1
        discarded := done.discarded ++ w.ids.filter w.isEmptied } where
  pruned := pruned_foldl hu _ h.pruned fun _ hid =>
    h.pruned.children_of_isEmptied hu (List.mem_filter.mp hid).2
  marked id t ht := by
    rw [get?_foldl_discard] at ht
    rw [List.mem_append]
    split at ht
    · next hid =>
      obtain ⟨s, -, rfl⟩ := Option.map_eq_some_iff.mp ht
      exact iff_of_true rfl (Or.inr hid)
    · next hid =>
      rw [h.marked id t ht]
      exact (or_iff_left hid).symm
  emptiable id hid := (List.mem_append.mp hid).elim (h.emptiable id) fun hid =>
    ((h.isEmptied_iff hu).mp (List.mem_filter.mp hid).2).2.1
  once := List.nodup_append'.mpr ⟨h.once, List.nodup_range.filter _, fun id hid hid' =>
    ((h.isEmptied_iff hu).mp (List.mem_filter.mp hid').2).1 hid⟩
  forced gone hgone id hid := by
    rcases List.mem_append.mp hid with hid | hid
    · exact h.forced gone hgone id hid
    · obtain ⟨-, hemptiable, hchildren⟩ := (h.isEmptied_iff hu).mp (List.mem_filter.mp hid).2
      have ⟨s, hs, _⟩ := hemptiable
      refine hgone.closed id s hemptiable hs fun c hc => ?_
      obtain ⟨other, hother, t, ht, hr⟩ := (h.unlinked_iff c).mp (hchildren s hs c hc)
      exact ⟨other, h.forced gone hgone other hother, t, ht, hr⟩
  passes := by
    have hpos := List.length_pos_of_ne_nil hsome
    have hpasses := h.passes
    show done.passes + 1 ≤ (done.discarded ++ w.ids.filter w.isEmptied).length
    rw [List.length_append]
    omega

/-- The passes come to an end by themselves: there are more than there are stylesheets. -/
theorem discardEmptied (fuel : Nat) (hfuel : u.sheets.size < fuel + done.discarded.length) :
    ∃ rounds, Sweeping u (discardEmptied fuel w done).1
        { (discardEmptied fuel w done).2 with passes := rounds } ∧
      (discardEmptied fuel w done).2.passes = rounds + 1 ∧
      ∀ id, (discardEmptied fuel w done).1.isEmptied id = false := by
  induction fuel generalizing w done with
  | zero => exact absurd h.length_le (by omega)
  | succ fuel ih =>
    unfold Workspace.discardEmptied
    simp only
    split
    · next hnone =>
      refine ⟨done.passes, h, rfl, fun id => ?_⟩
      by_contra hemptied
      rw [Bool.not_eq_false] at hemptied
      obtain ⟨s, hs, -⟩ := (Option.any_eq_true _ _).mp hemptied
      have hid : id ∈ w.ids.filter w.isEmptied :=
        List.mem_filter.mpr ⟨List.mem_range.mpr (lt_size hs), hemptied⟩
      rw [hnone] at hid
      cases hid
    · next hsome =>
      refine ih (h.pass hu hsome) ?_
      have hpos := List.length_pos_of_ne_nil hsome
      rw [List.length_append]
      omega

/-- What is discarded in the end is drained, and so the least that is. -/
theorem least (hstop : ∀ id, w.isEmptied id = false) :
    IsLeast {gone | u.Drained gone} {id | id ∈ done.discarded} := by
  refine ⟨⟨h.emptiable, fun id s hemptiable hs hchildren => ?_⟩, fun gone hgone => h.forced gone hgone⟩
  by_contra hid
  have hemptied : w.isEmptied id = true := by
    refine (h.isEmptied_iff hu).mpr ⟨hid, hemptiable, fun s' hs' c hc => ?_⟩
    cases hs.symm.trans hs'
    exact (h.unlinked_iff c).mpr (hchildren c hc)
  rw [hstop id] at hemptied
  cases hemptied

end Sweeping

/-! ### The whole cleanup -/

/-- Taking over paths neither discards stylesheets nor counts as a pass. -/
theorem foldl_takeOver_report (pairs : List (SheetId × SheetId)) (state : Workspace × Cleanup) :
    (pairs.foldl takeOver state).2.discarded = state.2.discarded ∧
      (pairs.foldl takeOver state).2.passes = state.2.passes := by
  induction pairs generalizing state with
  | nil => exact ⟨rfl, rfl⟩
  | cons pair pairs ih =>
    have hone : (takeOver state pair).2.discarded = state.2.discarded ∧
        (takeOver state pair).2.passes = state.2.passes := by
      unfold takeOver
      simp only
      repeat' split
      all_goals exact ⟨rfl, rfl⟩
    rw [List.foldl_cons, (ih _).1, (ih _).2]
    exact hone

/-- **A cleanup discards the least drained stylesheets, and removes their imports and nothing else.** -/
theorem swept_cleanUp (hu : u.Standing) (d : Derivations) :
    Swept u (u.cleanUp d).1 (u.cleanUp d).2 := by
  obtain ⟨rounds, hsweep, hpasses, hstop⟩ :=
    (sweeping_refl hu).discardEmptied hu (u.sheets.size + 1) (by simp)
  obtain ⟨hdiscarded, hcount⟩ :=
    foldl_takeOver_report d.pairs (u.discardEmptied (u.sheets.size + 1) {})
  have htaken : Readdressed (u.discardEmptied (u.sheets.size + 1) {}).1 d.pairs (u.cleanUp d).1 :=
    (readdressed_refl (hsweep.pruned.tidy hu)).foldl_takeOver _ d.pairs fun _ hm => hm
  change (u.cleanUp d).2.discarded = _ at hdiscarded
  change (u.cleanUp d).2.passes = _ at hcount
  generalize u.cleanUp d = cleaned at *
  generalize u.discardEmptied (u.sheets.size + 1) {} = swept at *
  obtain ⟨z, report⟩ := cleaned
  obtain ⟨w, done⟩ := swept
  obtain ⟨found, promoted, passes⟩ := report
  simp only at hdiscarded hcount hpasses htaken
  subst hdiscarded hcount
  have hclean := cleaned_of hu hsweep.pruned htaken
  have hsheet : ∀ id s, u.get? id = some s → ∃ r t, w.get? id = some r ∧ z.get? id = some t ∧
      r.Refiled t ∧ r.root = s.root := by
    intro id s hs
    obtain ⟨r, hr, hroot⟩ := hsweep.pruned.get?_of_left hs
    obtain ⟨t, ht⟩ := get?_isSome.mpr (htaken.size.symm ▸ lt_size hr)
    obtain ⟨r', hr', hrt⟩ := htaken.sheet id t ht
    cases hr.symm.trans hr'
    exact ⟨r, t, hr, ht, hrt, hroot⟩
  have hmarked : ∀ id t, z.get? id = some t → (t.discarded = true ↔ id ∈ done.discarded) := by
    intro id t ht
    obtain ⟨r, hr, hrt⟩ := htaken.sheet id t ht
    rw [hrt.discarded, hsweep.marked id r hr]
  refine ⟨hsweep.least hu hstop, hsweep.once, hclean.size, fun id s hs => ?_, fun x => ?_,
    fun id hemptiable hid => ?_, ?_⟩
  · obtain ⟨r, t, -, ht, hrt, hroot⟩ := hsheet id s hs
    refine ⟨t, ht, hrt.root.trans hroot, hmarked id t ht, ?_⟩
    obtain ⟨s', hs', hleaves⟩ := hclean.sheet id t ht
    cases hs.symm.trans hs'
    rw [hleaves.inbound]
    exact if_congr (hmarked id t ht) rfl rfl
  · rw [hclean.thinned.live]
    refine and_congr_right fun _ => ⟨fun hno id hid s rule hs hr => ?_, ?_⟩
    · obtain ⟨_, t, -, ht, -, -⟩ := hsheet id s hs
      exact hno rule ⟨id, s, t, hs, ht, (hmarked id t ht).mpr hid, hr⟩
    · rintro hno rule ⟨id, s, t, hs, ht, hd, hr⟩
      exact hno id ((hmarked id t ht).mp hd) s rule hs hr
  · obtain ⟨s, hs, hkept, hcontent⟩ := hemptiable
    obtain ⟨r, t, hr, ht, hrt, hroot⟩ := hsheet id s hs
    by_contra hblank
    rw [Bool.not_eq_false, isBlankText_css_iff hclean.tidy ht, htaken.children, hrt.root] at hblank
    have hemptied : w.isEmptied id = true := by
      refine (isEmptied_iff (hsweep.pruned.tidy hu) hr).mpr ⟨?_, ?_, hblank⟩
      · rw [← Bool.not_eq_true, hsweep.marked id r hr]
        exact hid
      · rw [hsweep.pruned.content hs hr, hcontent]
    rw [hstop id] at hemptied
    cases hemptied
  · have hrounds := hsweep.passes
    show done.passes ≤ done.discarded.length + 1
    rw [hpasses]
    exact Nat.succ_le_succ hrounds

/-- **After the passes of a migration, whatever the utilities are called, a cleanup discards the least
drained stylesheets.** -/
theorem swept_after_split (sources : List (Option FilePath × String)) (resolve : Resolution)
    (base : FilePath) (settings splitting : Settings) (ids : List SheetId)
    {table : List (List SheetId)}
    (hl : ((filled sources).connect resolve base).1.inheritLayers = .ok (table, w)) :
    ∃ u d, (w.transformAll settings Transform.standard ids).1.split splitting = .ok (u, d) ∧
      u.Swept (u.cleanUp d).1 (u.cleanUp d).2 := by
  have hw : w.Analysed := analysed (fresh_filled sources) hl
  have hwhole : (w.transformAll settings Transform.standard ids).1.Whole := by
    have hreshaped : Document.Reshaped settings.atRule w.roots w.doc
        (w.transformAll settings Transform.standard ids).1.doc :=
      transformAll_keeps Transform.keepsImports_of_standard ids hw.tidy
    have hsheets : (w.transformAll settings Transform.standard ids).1.sheets = w.sheets :=
      sheets_transformAll ids w
    rcases hrun : (w.transformAll settings Transform.standard ids).1 with ⟨doc, sheets⟩
    rw [hrun] at hreshaped hsheets
    obtain rfl : sheets = w.sheets := hsheets
    exact hw.whole_reshaped hreshaped
  obtain ⟨u, d, hsplit⟩ := exists_parting (w.transformAll settings Transform.standard ids).1 splitting
  exact ⟨u, d, hsplit, swept_cleanUp (hwhole.split hsplit).standing d⟩

/-- A chain of three, whose last two are made of utilities and imports. -/
def chain : List (Option FilePath × String) :=
  [(some ⟨"/p/a.css"⟩, "@import './b.css' layer(utilities);\nh1 { margin: 0 }"),
    (some ⟨"/p/b.css"⟩, "@import './c.css';\n@utility b { x: 1 }"),
    (some ⟨"/p/c.css"⟩, "@utility c { x: 2 }")]

/-- The last goes first, and then the one that imports it. -/
theorem swept_chain : ∃ table w u d,
    ((filled chain).connect (.known (chain.filterMap Prod.fst)) ⟨"/p"⟩).1.inheritLayers =
      .ok (table, w) ∧
    (w.transformAll {} Transform.standard w.ids).1.split {} = .ok (u, d) ∧
    (u.cleanUp d).2.discarded = [2, 1] ∧ (u.cleanUp d).2.passes = 3 ∧
    u.Swept (u.cleanUp d).1 (u.cleanUp d).2 := by
  have hrun : (((filled chain).connect (.known (chain.filterMap Prod.fst))
      ⟨"/p"⟩).1.inheritLayers.toOption.any fun found =>
        ((found.2.transformAll {} Transform.standard found.2.ids).1.split {}).toOption.any
          fun made => (made.1.cleanUp made.2).2.discarded == [2, 1] &&
            (made.1.cleanUp made.2).2.passes == 3) = true := by
    decide +kernel
  cases hl : ((filled chain).connect (.known (chain.filterMap Prod.fst)) ⟨"/p"⟩).1.inheritLayers with
  | error e =>
    rw [hl] at hrun
    cases hrun
  | ok found =>
    obtain ⟨table, w⟩ := found
    obtain ⟨u, d, hsplit, hswept⟩ := swept_after_split chain _ _ {} {} w.ids hl
    rw [hl] at hrun
    simp only [Except.toOption, Option.any_some, hsplit, Bool.and_eq_true, beq_iff_eq] at hrun
    exact ⟨table, w, u, d, rfl, hsplit, hrun.1, hrun.2, hswept⟩

end Strata.Workspace
