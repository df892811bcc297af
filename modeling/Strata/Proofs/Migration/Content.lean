import Strata.Proofs.Migration.Survival
import Strata.Proofs.Workspace.Load

/-! What becomes of the nodes of a workspace in a migration.

`Conserved` compares the nodes before a split with those that are left after the
cleanup. Content stays, with its data and its place, but for utilities, which move
below the root of a derived stylesheet; siblings keep their order; what is new is
an added import or such a root; what is gone is an import of a discarded
stylesheet, or was within one; and every node that is left belongs to one
stylesheet. -/
namespace Strata.Workspace

open Forest Document

variable {w v u z : Workspace} {settings : Settings} {d : Derivations}

structure Conserved (w : Workspace) (settings : Settings) (d : Derivations) (z : Workspace) :
    Prop where
  content : ∀ x, w.doc.contains x = true → w.doc.OutsideImports x →
    z.doc.contains x = true ∧ z.doc.get? x = w.doc.get? x
  moved : ∀ donor derived x, (donor, derived) ∈ d.pairs → x ∈ w.utilities settings donor →
    ∃ t, z.get? derived = some t ∧ z.doc.parent? x = some t.root
  stayed : ∀ x, w.doc.contains x = true → z.doc.contains x = true →
    w.isMoved settings d.pairs x = false → z.doc.parent? x = w.doc.parent? x
  order : ∀ a b p q, [a, b].Sublist (w.doc.children p) → z.doc.parent? a = some q →
    z.doc.parent? b = some q → [a, b].Sublist (z.doc.children q)
  created : ∀ x, z.doc.contains x = true → w.doc.contains x = false → z.doc.IsCompanion x ∨
    ∃ id t, w.sheets.size ≤ id ∧ z.get? id = some t ∧ t.derived = true ∧ t.root = x
  removed : ∀ x, w.doc.contains x = true → z.doc.contains x = false →
    ∃ id s t rule, w.get? id = some s ∧ rule ∈ s.inbound ∧ z.get? id = some t ∧
      t.discarded = true ∧ w.doc.Within rule x
  owned : ∀ x, z.doc.contains x = true →
    ∃! id, ∃ t, z.get? id = some t ∧ z.doc.Within t.root x

/-! ### Order of siblings -/

/-- Siblings that move go to one root. -/
theorem Divided.parent_of_moved_sibling {pairs : List (SheetId × SheetId)}
    (h : Divided w settings pairs v) {donor derived : SheetId} {x : NodeId} {t : Sheet}
    (hp : (donor, derived) ∈ pairs) (ht : v.get? derived = some t)
    (hx : x ∈ w.utilities settings donor) {y p : NodeId} (hy : w.doc.parent? y = some p)
    (hq : v.doc.parent? y = some t.root) (hw : w.Tidy) (hpx : w.doc.parent? x = some p) :
    y ∈ w.utilities settings donor := by
  have hylive := contains_of_parent? hy
  have hm : w.isMoved settings pairs y = true := by
    by_contra hm
    rw [Bool.not_eq_true] at hm
    rw [h.stayed y hylive hm] at hq
    have hroot := hw.wellFormed.contains_parent hq
    rw [(h.bare derived t (h.pair donor derived hp).1 ht).2] at hroot
    cases hroot
  obtain ⟨other, derived', hp', hu⟩ := isMoved_iff.mp hm
  have hsheet : some donor = some other := by
    rw [← sheetOf?_utility hw hx, ← sheetOf?_utility hw hu,
      ← hw.sheetOf?_within (live_utility hw hx) (Within.of_parent hpx),
      ← hw.sheetOf?_within hylive (Within.of_parent hy)]
  cases hsheet
  exact hu

/-- Siblings that are siblings again are in the order they had. -/
theorem Divided.order {pairs : List (SheetId × SheetId)} (h : Divided w settings pairs v)
    (hw : w.Tidy) {a b p q : NodeId} (hab : [a, b].Sublist (w.doc.children p))
    (ha : v.doc.parent? a = some q) (hb : v.doc.parent? b = some q) :
    [a, b].Sublist (v.doc.children q) := by
  have hpa := (hw.wellFormed.listed a p).mp (hab.subset (List.mem_cons_self ..))
  have hpb := (hw.wellFormed.listed b p).mp (hab.subset (by simp))
  have hmoved : ∀ x donor derived, w.doc.parent? x = some p → v.doc.parent? x = some q →
      (donor, derived) ∈ pairs → x ∈ w.utilities settings donor →
      [a, b].Sublist (v.doc.children q) := by
    intro x donor derived hpx hqx hp hx
    obtain ⟨t, ht⟩ := get?_isSome.mpr (h.pair donor derived hp).2
    have hroot : q = t.root := by
      rw [h.moved donor derived t x hp ht hx] at hqx
      exact (Option.some.inj hqx).symm
    subst hroot
    have hua := h.parent_of_moved_sibling hp ht hx hpa ha hw hpx
    have hub := h.parent_of_moved_sibling hp ht hx hpb hb hw hpx
    refine List.Sublist.trans ?_ (h.lined donor derived t hp ht)
    obtain ⟨s, hs, -⟩ := exists_sheet_of_utility hw hua
    unfold utilities at hua hub ⊢
    rw [hs] at hua hub ⊢
    exact hw.wellFormed.pair_outermost hua hub hab
  cases hma : w.isMoved settings pairs a with
  | true =>
    obtain ⟨donor, derived, hp, hx⟩ := isMoved_iff.mp hma
    exact hmoved a donor derived hpa ha hp hx
  | false =>
    cases hmb : w.isMoved settings pairs b with
    | true =>
      obtain ⟨donor, derived, hp, hx⟩ := isMoved_iff.mp hmb
      exact hmoved b donor derived hpb hb hp hx
    | false =>
      have hq : q = p := by
        rw [h.stayed a (contains_of_parent? hpa) hma, hpa] at ha
        exact (Option.some.inj ha).symm
      subst hq
      have hfilter := hab.filter fun c => !w.isMoved settings pairs c
      rw [← h.children q (hw.wellFormed.contains_parent hpa)] at hfilter
      simpa [hma, hmb] using hfilter

/-! ### After the cleanup -/

namespace Migrated

variable (h : Migrated w settings d v u z)
include h

/-- Nodes have the parents that they got in the split. -/
theorem parent_eq {x : NodeId} (hx : w.doc.contains x = true) (hz : z.doc.contains x = true) :
    z.doc.parent? x = v.doc.parent? x := by
  rw [h.cleaned.thinned.parent x hz,
    h.parted.accompanied.grown.parent x ((h.parted.divided.live x).mpr (Or.inl hx))]

theorem order {a b p q : NodeId} (hab : [a, b].Sublist (w.doc.children p))
    (ha : z.doc.parent? a = some q) (hb : z.doc.parent? b = some q) :
    [a, b].Sublist (z.doc.children q) := by
  have hza := contains_of_parent? ha
  have hzb := contains_of_parent? hb
  have hwf := h.analysed.tidy.wellFormed
  rw [h.parent_eq (hwf.contains_child (hab.subset (List.mem_cons_self ..))) hza] at ha
  rw [h.parent_eq (hwf.contains_child (hab.subset (by simp))) hzb] at hb
  have hsplit := h.parted.divided.order h.analysed.tidy hab ha hb
  have hq : z.doc.contains q = true := by
    refine h.cleaned.thinned.live_above h.tidy_split.wellFormed hza (Within.of_parent ?_)
    exact h.parted.accompanied.grown.parent?_eq_some ha
  have hfilter := (hsplit.trans (h.parted.accompanied.grown.order q)).filter z.doc.contains
  rw [← h.cleaned.thinned.children q hq] at hfilter
  simpa [hza, hzb] using hfilter

theorem created {x : NodeId} (hz : z.doc.contains x = true) (hx : w.doc.contains x = false) :
    z.doc.IsCompanion x ∨
      ∃ id t, w.sheets.size ≤ id ∧ z.get? id = some t ∧ t.derived = true ∧ t.root = x := by
  have hu := h.cleaned.thinned.live_before hz
  cases hv : v.doc.contains x with
  | false =>
    left
    obtain ⟨⟨n, hn, himport, hadded⟩, -⟩ := h.parted.accompanied.added x hu hv
    rcases h.cleaned.data x hz with heq | ⟨-, m, params, hm, heq⟩
    · exact ⟨n, heq.trans hn, himport, hadded⟩
    · rw [hn] at hm
      cases hm
      exact ⟨n.withParams params, heq, (Node.isImportRule_withParams params n).trans himport,
        (Node.isAdded_withParams params n).trans hadded⟩
  | true =>
    right
    rcases (h.parted.divided.live x).mp hv with hold | ⟨id, r, hid, hr, rfl⟩
    · rw [hold] at hx
      cases hx
    · obtain ⟨s, hs, hrs⟩ := h.parted.accompanied.get?_of_left hr
      obtain ⟨t, ht, hst⟩ := h.cleaned.get?_of_left hs
      refine ⟨id, t, hid, ht, ?_, by rw [hst.root, hrs.root]⟩
      rw [hst.derived, hrs.derived, (h.parted.divided.bare id r hid hr).1.derived]

section utilities

variable (hat : Text.sameCaseless settings.atRule "import" = false)
include hat

theorem moved {donor derived : SheetId} {x : NodeId} (hp : (donor, derived) ∈ d.pairs)
    (hx : x ∈ w.utilities settings donor) :
    ∃ t, z.get? derived = some t ∧ z.doc.parent? x = some t.root := by
  obtain ⟨r, hr⟩ := get?_isSome.mpr (h.parted.divided.pair donor derived hp).2
  obtain ⟨s, hs, hrs⟩ := h.parted.accompanied.get?_of_left hr
  obtain ⟨t, ht, hst⟩ := h.cleaned.get?_of_left hs
  refine ⟨t, ht, ?_⟩
  rw [h.parent_eq (Workspace.live_utility h.analysed.tidy hx) (h.live_utility hat hp hx),
    h.parted.divided.moved donor derived r x hp hr hx, hst.root, hrs.root]

theorem removed {x : NodeId} (hx : w.doc.contains x = true) (hz : z.doc.contains x = false) :
    ∃ id s t rule, w.get? id = some s ∧ rule ∈ s.inbound ∧ z.get? id = some t ∧
      t.discarded = true ∧ w.doc.Within rule x := by
  have hgone : ∃ rule, u.Unlinked z rule ∧ u.doc.Within rule x := by
    by_contra hno
    push Not at hno
    rw [(h.cleaned.thinned.live x).mpr ⟨h.parted.live hx, hno⟩] at hz
    cases hz
  obtain ⟨rule, ⟨id, s, t, hs, ht, hd, hr⟩, hwithin⟩ := hgone
  have himport := h.parted.isImportRule_inbound h.analysed hs hr
  rcases h.parted.inbound_cases h.analysed hs hr with ⟨hget, -⟩ | ⟨-, -, donor, hp⟩
  · exact ⟨id, s, t, rule, hget, hr, ht, hd,
      (h.parted.import_above h.analysed hx hwithin himport).2⟩
  · rw [h.derived_kept hat hp ht] at hd
    cases hd

theorem conserved : Conserved w settings d z where
  content x hx hclear := by
    have hz := h.live_of_clear (h.parted.live hx) (h.parted.outsideImports h.analysed hx hclear)
    exact ⟨hz, h.data_eq hx hz⟩
  moved _ _ _ hp hx := h.moved hat hp hx
  stayed x hx hz hm := (h.parent_eq hx hz).trans (h.parted.divided.stayed x hx hm)
  order _ _ _ _ := h.order
  created _ := h.created
  removed _ := h.removed hat
  owned x hz := by
    obtain ⟨id, t, -, ht, hw⟩ := h.cleaned.tidy.exists_sheetOf? hz
    refine ⟨id, ⟨t, ht, hw⟩, ?_⟩
    rintro other ⟨t', ht', hw'⟩
    have hroot := Document.Tidy.root_unique h.cleaned.tidy (root_mem_roots ht')
      (root_mem_roots ht) hw' hw
    exact h.cleaned.tidy.id_unique ht' ht hroot

end utilities

end Migrated

/-- **A migration neither loses nor doubles content.** -/
theorem conserved_by_migration (sources : List (Option FilePath × String)) (resolve : Resolution)
    (base : FilePath) (settings : Settings)
    (hat : Text.sameCaseless settings.atRule "import" = false) {table : List (List SheetId)}
    (hl : ((filled sources).connect resolve base).1.inheritLayers = .ok (table, w)) :
    ∃ u d, w.split settings = .ok (u, d) ∧ Conserved w settings d (u.cleanUp d).1 := by
  obtain ⟨v, u, d, hsplit, h⟩ := exists_migrated (analysed (fresh_filled sources) hl) settings
  exact ⟨u, d, hsplit, h.conserved hat⟩

theorem conserved_beside_rule : ∃ table w u d,
    ((filled (entryAnd "@utility foo { color: red }\nh1 { color: red }")).connect entryFiles
      ⟨"/p"⟩).1.inheritLayers = .ok (table, w) ∧
    w.split {} = .ok (u, d) ∧ d.pairs = [(1, 2)] ∧ Conserved w {} d (u.cleanUp d).1 := by
  have hrun : splitsWith (entryAnd "@utility foo { color: red }\nh1 { color: red }") entryFiles
      ⟨"/p"⟩ {} (fun _ _ d => d.pairs == [(1, 2)]) = true := by decide +kernel
  obtain ⟨table, w, u, d, hl, hsplit, hcheck⟩ := exists_of_splitsWith hrun
  obtain ⟨u', d', hsplit', h⟩ := conserved_by_migration _ entryFiles ⟨"/p"⟩ {} (by decide +kernel) hl
  rw [hsplit] at hsplit'
  cases hsplit'
  exact ⟨table, w, u, d, hl, hsplit, beq_iff_eq.mp hcheck, h⟩

/-- A derived stylesheet has a root, which is new and no import. -/
theorem not_all_created_added : ¬ ∀ (sources : List (Option FilePath × String))
    (resolve : Resolution) (base : FilePath) (settings : Settings) (table : List (List SheetId))
    (w u : Workspace) (d : Derivations),
    Text.sameCaseless settings.atRule "import" = false →
    ((filled sources).connect resolve base).1.inheritLayers = .ok (table, w) →
    w.split settings = .ok (u, d) →
    ∀ x, (u.cleanUp d).1.doc.contains x = true → w.doc.contains x = false →
      (u.cleanUp d).1.doc.IsCompanion x := by
  intro hall
  have hrun : splitsWith (entryAnd "@utility foo { color: red }") entryFiles ⟨"/p"⟩ {}
      (fun w u d => (u.cleanUp d).1.doc.get? ⟨5, 0⟩ == some .root && !w.doc.contains ⟨5, 0⟩) = true := by
    decide +kernel
  obtain ⟨table, w, u, d, hl, hsplit, hcheck⟩ := exists_of_splitsWith hrun
  rw [Bool.and_eq_true, beq_iff_eq, Bool.not_eq_true'] at hcheck
  obtain ⟨hroot, hnew⟩ := hcheck
  obtain ⟨n, hn, himport, -⟩ := hall _ entryFiles ⟨"/p"⟩ {} table w u d (by decide +kernel) hl
    hsplit ⟨5, 0⟩ (contains_iff_get?.mpr ⟨.root, hroot⟩) hnew
  rw [hroot] at hn
  cases hn
  cases himport

end Strata.Workspace
