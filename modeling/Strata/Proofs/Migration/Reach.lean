import Strata.Proofs.Migration.Survival
import Strata.Proofs.Workspace.Load

/-! What can be reached before a migration can be reached after it.

The content of a stylesheet ends up in two places: in the stylesheet itself, which
may be discarded if nothing stays, and in the stylesheet derived from it, if there
is one. `Served` says that the imports left lead to both. It goes from an importer
to what it imports: wherever the import went, and wherever its companion was put,
that is a place of the importer's content. -/
namespace Strata.Workspace

open Forest Document

variable {w v u z : Workspace} {settings : Settings} {d : Derivations}

/-- Not discarded. -/
def Kept (z : Workspace) (id : SheetId) : Prop :=
  ∀ t, z.get? id = some t → t.discarded = false

/-- `reached` holds of each place that content of `x` is in. -/
structure Served (z : Workspace) (d : Derivations) (reached : SheetId → Prop) (x : SheetId) :
    Prop where
  own : z.Kept x → reached x
  derived : ∀ id, (x, id) ∈ d.pairs → reached id

namespace Migrated

variable (h : Migrated w settings d v u z)
include h

/-- A stylesheet that holds an import is kept. -/
theorem kept_of_rule {x y : SheetId} {s : Sheet} {rule : NodeId} (hs : u.get? y = some s)
    (hr : rule ∈ s.inbound) (hx : u.sheetOf? rule = some x)
    (hlive : z.doc.contains rule = true) : z.Kept x := by
  intro t ht
  have hsheet : z.sheetOf? rule = some x := (h.cleaned.sheetOf?_eq h.tidy_split hlive).trans hx
  refine h.cleaned.not_discarded hsheet ht ?_
  rintro rfl
  obtain ⟨r, hget, hrt⟩ := h.cleaned.sheet x t ht
  refine (h.parted.standing h.analysed).rules y s t.root hs hr ?_
  rw [hrt.root]
  exact root_mem_roots hget

section utilities

variable (hat : Text.sameCaseless settings.atRule "import" = false)
include hat

/-- What an importer's content is in leads to what the content of its import is in. -/
theorem served_step {reached : SheetId → Prop}
    (hclosed : ∀ a b, reached a → z.Imports a b → reached b) {x y : SheetId}
    (hx : Served z d reached x) (hi : w.Imports x y) : Served z d reached y := by
  obtain ⟨s, rule, hs, hr, hsheet⟩ := hi
  obtain ⟨hlive, -⟩ := h.analysed.tidy.sheetOf?_eq_some.mp hsheet
  have hsu : u.get? y = some s := by rw [h.parted.original (lt_size hs), hs]
  refine ⟨fun hkept => ?_, fun derived hp => ?_⟩
  · have hrule := h.live_rule hs hr hkept
    rcases unmoved_or_carried w settings d.pairs rule with hu | ⟨host, hc⟩
    · have hhome : u.sheetOf? rule = some x := by
        rw [h.parted.sheetOf?_unmoved h.analysed hlive hu, hsheet]
      refine hclosed x y (hx.own ?_) ?_
      · exact h.kept_of_rule hsu hr hhome hrule
      · exact h.cleaned.imports_of_imports h.tidy_split hsu hr hhome hrule hkept
    · have hhome := h.parted.sheetOf?_carried h.analysed hlive hc
      obtain ⟨donor, hp, hdonor⟩ := hc.donor h.analysed.tidy
      rw [hsheet] at hdonor
      cases hdonor
      refine hclosed host y (hx.derived host hp) ?_
      exact h.cleaned.imports_of_imports h.tidy_split hsu hr hhome hrule hkept
  · obtain ⟨t, c, home, ht, hc, hhome, hch, -⟩ := h.parted.exists_companion hp hs hr
    have hclive := h.live_companion hat hp ht hc
    have hedge : z.Imports home derived :=
      h.cleaned.imports_of_imports h.tidy_split ht hc hch hclive fun _ => h.derived_kept hat hp
    rcases h.parted.companionHome_cases h.analysed hsheet hhome with
      hcarried | ⟨-, ⟨hpx, -⟩ | ⟨rfl, hall⟩⟩
    · obtain ⟨donor, hpx, hdonor⟩ := hcarried.donor h.analysed.tidy
      rw [hsheet] at hdonor
      cases hdonor
      exact hclosed home derived (hx.derived home hpx) hedge
    · exact hclosed home derived (hx.derived home hpx) hedge
    · by_cases hsplit : ∃ host, (home, host) ∈ d.pairs
      -- Importer and import share one derived stylesheet, which is served already.
      · obtain ⟨host, hpx⟩ := hsplit
        rw [← hall host hpx]
        exact hx.derived host hpx
      · exact hclosed home derived (hx.own (h.kept_of_rule ht hc hch hclive)) hedge

theorem served_of_reaches {reached : SheetId → Prop}
    (hclosed : ∀ a b, reached a → z.Imports a b → reached b) {r x : SheetId}
    (hr : Served z d reached r) (hx : w.Reaches r x) : Served z d reached x := by
  induction hx with
  | refl => exact hr
  | tail _ hi ih => exact h.served_step hat hclosed ih hi

omit hat in
/-- An entry, which nothing imports, has no layers, and so is not split. -/
theorem served_entry {r : SheetId} {s : Sheet} (hs : w.get? r = some s) (hentry : s.inbound = []) :
    Served z d (z.Reaches r) r where
  own _ := .refl
  derived id hp := by
    have heligible := (h.parted.splits h.analysed hp).canSplit.eligible
    unfold isEligible at heligible
    rw [hs, Option.any_some, Sheet.meetsLayers, h.analysed.unlayered r s hs hentry] at heligible
    simp at heligible

omit hat in
/-- Where a node that no import is above is in the end. -/
theorem home_of_clear {x : SheetId} {n : NodeId} (hn : w.sheetOf? n = some x)
    (hclear : w.doc.OutsideImports n) : z.doc.contains n = true ∧
      ((∃ derived, (x, derived) ∈ d.pairs ∧ z.sheetOf? n = some derived) ∨
        z.sheetOf? n = some x) := by
  obtain ⟨hlive, -⟩ := h.analysed.tidy.sheetOf?_eq_some.mp hn
  have hz := h.live_of_clear (h.parted.live hlive) (h.parted.outsideImports h.analysed hlive hclear)
  have hsheet := h.cleaned.sheetOf?_eq h.tidy_split hz
  refine ⟨hz, ?_⟩
  rcases unmoved_or_carried w settings d.pairs n with hu | ⟨derived, hc⟩
  · rw [hsheet, h.parted.sheetOf?_unmoved h.analysed hlive hu]
    exact Or.inr hn
  · obtain ⟨donor, hp, hdonor⟩ := hc.donor h.analysed.tidy
    rw [hn] at hdonor
    cases hdonor
    exact Or.inl ⟨derived, hp, hsheet.trans (h.parted.sheetOf?_carried h.analysed hlive hc)⟩

theorem reaches_home {r x : SheetId} {s : Sheet} {n : NodeId} (hs : w.get? r = some s)
    (hentry : s.inbound = []) (hx : w.Reaches r x) (hn : w.sheetOf? n = some x)
    (hclear : w.doc.OutsideImports n) :
    ∃ home t, z.sheetOf? n = some home ∧ z.get? home = some t ∧
      (t.discarded = false ∧ z.Reaches r home ∨
        t.discarded = true ∧ n = t.root ∧ z.doc.children n = []) := by
  have hserved := h.served_of_reaches hat (fun _ _ hr hi => hr.tail hi)
    (h.served_entry hs hentry) hx
  obtain ⟨hz, ⟨derived, hp, hhome⟩ | hhome⟩ := h.home_of_clear hn hclear
  · obtain ⟨-, t, ht, -⟩ := h.cleaned.tidy.sheetOf?_eq_some.mp hhome
    exact ⟨derived, t, hhome, ht, Or.inl ⟨h.derived_kept hat hp ht, hserved.derived derived hp⟩⟩
  · obtain ⟨-, t, ht, -⟩ := h.cleaned.tidy.sheetOf?_eq_some.mp hhome
    have hown : t.discarded = false → z.Reaches r x := by
      refine fun hd => hserved.own fun t' ht' => ?_
      rw [ht] at ht'
      cases ht'
      exact hd
    refine ⟨x, t, hhome, ht, ?_⟩
    cases hd : t.discarded with
    | false => exact Or.inl ⟨rfl, hown hd⟩
    | true =>
      have hroot : n = t.root := by
        by_contra hne
        rw [h.cleaned.not_discarded hhome ht hne] at hd
        cases hd
      exact Or.inr ⟨rfl, hroot, hroot ▸ h.cleaned.emptied x t ht hd⟩

end utilities

end Migrated

/-- **Nothing becomes unreachable.** A node that no import is above, of a stylesheet that can be
reached from an entry, lives on in a stylesheet that is kept and can be reached from that entry, or it
is the root of a discarded stylesheet that has nothing else left. -/
theorem reaches_after_migration (sources : List (Option FilePath × String)) (resolve : Resolution)
    (base : FilePath) (settings : Settings)
    (hat : Text.sameCaseless settings.atRule "import" = false) {table : List (List SheetId)}
    (hl : ((filled sources).connect resolve base).1.inheritLayers = .ok (table, w)) :
    ∃ u d, w.split settings = .ok (u, d) ∧
      ∀ r s x n, w.get? r = some s → s.inbound = [] → w.Reaches r x → w.sheetOf? n = some x →
        w.doc.OutsideImports n →
        (u.cleanUp d).1.doc.contains n = true ∧
        ∃ home t, (u.cleanUp d).1.sheetOf? n = some home ∧ (u.cleanUp d).1.get? home = some t ∧
          (t.discarded = false ∧ (u.cleanUp d).1.Reaches r home ∨
            t.discarded = true ∧ n = t.root ∧ (u.cleanUp d).1.doc.children n = []) := by
  obtain ⟨v, u, d, hsplit, h⟩ := exists_migrated (analysed (fresh_filled sources) hl) settings
  refine ⟨u, d, hsplit, fun r s x n hs hentry hx hn hclear => ?_⟩
  exact ⟨(h.home_of_clear hn hclear).1, h.reaches_home hat hs hentry hx hn hclear⟩

/-- `x` can be reached from the entry and holds a node that no import is above. -/
def holdsContent (w : Workspace) (x : SheetId) (n : NodeId) : Bool :=
  (w.get? 0).any (·.inbound.isEmpty) && w.Imports 0 x && w.sheetOf? n == some x &&
    (w.doc.lineage n).all fun a => !(w.doc.get? a).any Node.isImportRule

theorem of_holdsContent (h : w.Tidy) {x : SheetId} {n : NodeId} (hc : w.holdsContent x n = true) :
    ∃ s, w.get? 0 = some s ∧ s.inbound = [] ∧ w.Reaches 0 x ∧ w.sheetOf? n = some x ∧
      w.doc.OutsideImports n := by
  unfold holdsContent at hc
  simp only [Bool.and_eq_true, decide_eq_true_eq, beq_iff_eq] at hc
  obtain ⟨⟨⟨hentry, hi⟩, hn⟩, hclear⟩ := hc
  obtain ⟨s, hs, hempty⟩ := (Option.any_eq_true _ _).mp hentry
  exact ⟨s, hs, List.isEmpty_iff.mp hempty, .single hi, hn, outsideImports_of_lineage h hclear⟩

/-- A utility that moves can be reached where it is. -/
theorem reaches_moved_utility : ∃ table w u d,
    ((filled (entryAnd "@utility foo { color: red }\nh1 { color: red }")).connect entryFiles
      ⟨"/p"⟩).1.inheritLayers = .ok (table, w) ∧
    w.split {} = .ok (u, d) ∧ w.sheetOf? ⟨3, 0⟩ = some 1 ∧
    ∃ home t, (u.cleanUp d).1.sheetOf? ⟨3, 0⟩ = some home ∧ (u.cleanUp d).1.get? home = some t ∧
      t.discarded = false ∧ (u.cleanUp d).1.Reaches 0 home := by
  have hrun : splitsWith (entryAnd "@utility foo { color: red }\nh1 { color: red }") entryFiles
      ⟨"/p"⟩ {} (fun w u d => w.holdsContent 1 ⟨3, 0⟩ &&
        ((u.cleanUp d).1.get? 2).any (!·.discarded) &&
        (u.cleanUp d).1.sheetOf? ⟨3, 0⟩ == some 2) = true := by decide +kernel
  obtain ⟨table, w, u, d, hl, hsplit, hcheck⟩ := exists_of_splitsWith hrun
  simp only [Bool.and_eq_true, beq_iff_eq] at hcheck
  obtain ⟨⟨hcontent, hkept⟩, hhome⟩ := hcheck
  obtain ⟨s, hs, hentry, hx, hn, hclear⟩ :=
    of_holdsContent (analysed (fresh_filled _) hl).tidy hcontent
  obtain ⟨u', d', hsplit', hall⟩ := reaches_after_migration _ entryFiles ⟨"/p"⟩ {} (by decide +kernel) hl
  rw [hsplit] at hsplit'
  cases hsplit'
  obtain ⟨-, home, t, hhome', ht, hcase⟩ := hall 0 s 1 ⟨3, 0⟩ hs hentry hx hn hclear
  refine ⟨table, w, u, d, hl, hsplit, hn, home, t, hhome', ht, hcase.resolve_right ?_⟩
  rw [hhome] at hhome'
  cases hhome'
  rw [ht, Option.any_some] at hkept
  intro hboth
  obtain ⟨hd, -⟩ := hboth
  rw [hd] at hkept
  cases hkept

/-- The root of an emptied stylesheet stays where it is, and that is discarded. -/
theorem not_all_content_reached : ¬ ∀ (sources : List (Option FilePath × String))
    (resolve : Resolution) (base : FilePath) (settings : Settings) (table : List (List SheetId))
    (w u : Workspace) (d : Derivations),
    Text.sameCaseless settings.atRule "import" = false →
    ((filled sources).connect resolve base).1.inheritLayers = .ok (table, w) →
    w.split settings = .ok (u, d) →
    ∀ r s x n, w.get? r = some s → s.inbound = [] → w.Reaches r x → w.sheetOf? n = some x →
      w.doc.OutsideImports n →
      (u.cleanUp d).1.doc.contains n = true ∧
      ∃ home t, (u.cleanUp d).1.sheetOf? n = some home ∧ (u.cleanUp d).1.get? home = some t ∧
        t.discarded = false ∧ (u.cleanUp d).1.Reaches r home := by
  intro hall
  have hrun : splitsWith (entryAnd "@utility foo { color: red }") entryFiles ⟨"/p"⟩ {}
      (fun w u d => w.holdsContent 1 ⟨2, 0⟩ && ((u.cleanUp d).1.get? 1).any (·.discarded) &&
        (u.cleanUp d).1.sheetOf? ⟨2, 0⟩ == some 1) = true := by decide +kernel
  obtain ⟨table, w, u, d, hl, hsplit, hcheck⟩ := exists_of_splitsWith hrun
  simp only [Bool.and_eq_true, beq_iff_eq] at hcheck
  obtain ⟨⟨hcontent, hdiscarded⟩, hhome⟩ := hcheck
  obtain ⟨s, hs, hentry, hx, hn, hclear⟩ :=
    of_holdsContent (analysed (fresh_filled _) hl).tidy hcontent
  obtain ⟨-, home, t, hhome', ht, hd, -⟩ := hall _ entryFiles ⟨"/p"⟩ {} table w u d
    (by decide +kernel) hl hsplit 0 s 1 ⟨2, 0⟩ hs hentry hx hn hclear
  rw [hhome] at hhome'
  cases hhome'
  rw [ht, Option.any_some, hd] at hdiscarded
  cases hdiscarded

end Strata.Workspace
