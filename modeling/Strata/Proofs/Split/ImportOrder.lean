import Strata.Proofs.Registration
import Strata.Proofs.Split.Layout

/-! In which order companions line up.

The companions at the top of a derived stylesheet come in the order in which errands are run: donor by
donor, in the order of registration. The imports they are added for stand in a document that need not
name the donors in that order. So the companions stand as these imports do exactly when each two of
the imports stand in the order in which their errands are run. -/
namespace Strata

/-! ### Lists in two orders -/

theorem firstsBy_congr {α κ : Type} [DecidableEq κ] {key key' : α → κ} {as : List α}
    (h : ∀ a ∈ as, key a = key' a) : firstsBy key as = firstsBy key' as := by
  induction as using List.reverseRecOn with
  | nil => rfl
  | append_singleton as a ih =>
    have ih := ih fun b hb => h b (List.mem_append_left _ hb)
    have hkeys : (firstsBy key' as).map key = (firstsBy key' as).map key' :=
      List.map_congr_left fun b hb =>
        h b (List.mem_append_left _ ((firstsBy_sublist as).subset hb))
    rw [firstsBy_concat, firstsBy_concat, ih, hkeys, h a (by simp)]

/-- A list in one order is in another just when this never turns the first round. -/
theorem pairwise_iff_of_pairwise {α : Type} {R S : α → α → Prop} {as : List α}
    (h : as.Pairwise R) (hR : ∀ {a b}, R a b → R b a → False) (hS : ∀ {a b}, S a b → S b a → False)
    (htotal : ∀ a ∈ as, ∀ b ∈ as, a ≠ b → S a b ∨ S b a) :
    as.Pairwise S ↔ ∀ a ∈ as, ∀ b ∈ as, S a b → R a b := by
  constructor
  · intro hs a ha b hb
    have hkept : as.Pairwise fun a b => S a b → R a b := h.imp fun {a b} (hab : R a b) (_ : S a b) => hab
    have hturned : as.Pairwise (flip fun a b => S a b → R a b) :=
      hs.imp fun {a b} (hab : S a b) (hba : S b a) => (hS hab hba).elim
    exact hkept.forall_of_forall_of_flip (fun x _ hx => (hS hx hx).elim) hturned ha hb
  · intro hall
    refine h.imp_of_mem fun {a b} ha hb hab => ?_
    have hne : a ≠ b := by
      rintro rfl
      exact hR hab hab
    exact (htotal a ha b hb hne).resolve_right fun hba => hR hab (hall b hb a ha hba)

namespace Workspace

open Forest

variable {w v u : Workspace} {settings : Settings} {d : Derivations} {e e' : Errand}
  {importer home : SheetId}

/-! ### Two orders of imports -/

/-- `a` stands before `b` in the document below `top`. -/
def StandsBefore (doc : Document) (top a b : NodeId) : Prop :=
  (doc.below top).idxOf a < (doc.below top).idxOf b

instance (doc : Document) (top a b : NodeId) : Decidable (StandsBefore doc top a b) :=
  inferInstanceAs (Decidable (_ < _))

theorem standsBefore_total {doc : Document} (h : doc.WellFormed) {top a b : NodeId}
    (ha : doc.Below top a) (hne : a ≠ b) :
    StandsBefore doc top a b ∨ StandsBefore doc top b a := by
  have hmem : a ∈ doc.below top := h.mem_walk.mpr ⟨ha, fun _ _ _ => by simp⟩
  exact Nat.lt_or_gt_of_ne fun heq => hne ((List.idxOf_inj hmem).mp heq)

/-- The imports of some errands stand in the order of these. -/
def InStep (doc : Document) (top : NodeId) (es : List Errand) : Prop :=
  es.Pairwise fun e e' => StandsBefore doc top e.rule e'.rule

instance (doc : Document) (top : NodeId) (es : List Errand) : Decidable (InStep doc top es) :=
  inferInstanceAs (Decidable (es.Pairwise _))

/-- Donors are linked in the order of registration, and the imports of one donor in the order of their
identifiers. -/
def RunsBefore (e e' : Errand) : Prop :=
  e.donor < e'.donor ∨ e.donor = e'.donor ∧ e.rule.before e'.rule = true

instance (e e' : Errand) : Decidable (RunsBefore e e') := inferInstanceAs (Decidable (_ ∨ _))

theorem RunsBefore.asymm (h : RunsBefore e e') (h' : RunsBefore e' e) : False := by
  rcases h with hlt | ⟨heq, hbefore⟩
  · rcases h' with hlt' | ⟨heq', -⟩
    · exact Nat.lt_asymm hlt hlt'
    · exact Nat.lt_irrefl _ (heq' ▸ hlt)
  · rcases h' with hlt' | ⟨-, hbefore'⟩
    · exact Nat.lt_irrefl _ (heq ▸ hlt')
    · exact NodeId.total_before.asymm hbefore hbefore'

namespace Parted

variable (h : Parted w settings d v u) (hw : w.Analysed)
include h hw

/-- Errands are run in their order. -/
theorem pairwise_errands (ho : ∀ id s, w.get? id = some s → s.InOrder) :
    (u.errands d.pairs).Pairwise RunsBefore := by
  rw [(h.errands_eq hw).2, errands, List.pairwise_flatMap]
  constructor
  · rintro ⟨donor, derived⟩ hp
    obtain ⟨s, hs, -, hrules, -⟩ := h.authoredImports_eq hw hp
    simp only [hrules, List.pairwise_map]
    exact (ho donor s hs).inbound.imp fun hbefore => Or.inr ⟨rfl, hbefore⟩
  · have hdonors : d.pairs.Pairwise fun p q => p.1 < q.1 := by
      rw [← List.pairwise_map, h.donors]
      exact List.pairwise_lt_range.sublist (donors_go_sublist _ _)
    refine hdonors.imp fun {p q} hlt x hx y hy => Or.inl ?_
    obtain ⟨_, -, rfl⟩ := List.mem_map.mp hx
    obtain ⟨_, -, rfl⟩ := List.mem_map.mp hy
    exact hlt

/-- An import has one errand. -/
theorem errand_unique (he : e ∈ u.errands d.pairs) (he' : e' ∈ u.errands d.pairs)
    (hrule : e.rule = e'.rule) : e = e' := by
  rw [(h.errands_eq hw).2] at he he'
  obtain ⟨hp, hr⟩ := mem_errands.mp he
  obtain ⟨hp', hr'⟩ := mem_errands.mp he'
  obtain ⟨s, hs, -, hrules, -⟩ := h.authoredImports_eq hw hp
  obtain ⟨s', hs', -, hrules', -⟩ := h.authoredImports_eq hw hp'
  rw [hrules] at hr
  rw [hrules', ← hrule] at hr'
  have hdonor := hw.target e.donor e'.donor s s' e.rule hs hs' hr hr'
  have hderived := h.derived_unique hp (hdonor ▸ hp')
  cases e
  cases e'
  simp only at hdonor hderived hrule
  rw [hdonor, hderived, hrule]

/-- Companions are made for the same errands, as seen before and after. -/
theorem madeAt_eq (home : SheetId) :
    u.madeAt d home (u.errands d.pairs) = v.madeAt d home (v.errands d.pairs) := by
  rw [(h.errands_eq hw).2, ← (h.errands_eq hw).1, madeAt, madeAt]
  have hfilter : (v.errands d.pairs).filter (u.fronts d home) =
      (v.errands d.pairs).filter (v.fronts d home) :=
    List.filter_congr fun e he => by
      rw [fronts, fronts, h.accompanied.sheetOf?_base h.divided.tidy (h.live_rule hw he)]
  rw [hfilter]
  refine firstsBy_congr fun e he => ?_
  rw [wording, wording,
    h.accompanied.companionOf?_eq (h.live_rule hw (List.mem_filter.mp he).1) home]

omit hw in
/-- At the top of a derived stylesheet companions are made for imports of the donors. -/
theorem owner_of_mem_madeAt {es : List Errand} (he : e ∈ u.madeAt d home es) :
    e ∈ es ∧ ∃ importer, (importer, home) ∈ d.pairs ∧ u.sheetOf? e.rule = some importer := by
  obtain ⟨hm, hfronts⟩ := List.mem_filter.mp ((firstsBy_sublist _).subset he)
  obtain ⟨importer, himporter, hfronts⟩ := (Option.any_eq_true _ _).mp hfronts
  rw [Bool.and_eq_true, beq_iff_eq] at hfronts
  exact ⟨hm, importer, (of?_eq_some h.donors).mp hfronts.1, himporter⟩

/-- Where utilities are imports no import is left in a donor. -/
theorem madeAt_eq_nil (hat : Text.sameCaseless settings.atRule "import" = true) :
    u.madeAt d home (u.errands d.pairs) = [] := by
  refine List.eq_nil_iff_forall_not_mem.mpr fun e he => ?_
  obtain ⟨he, importer, hp, hsheet⟩ := h.owner_of_mem_madeAt he
  rw [(h.errands_eq hw).2] at he
  obtain ⟨hpe, hr⟩ := mem_errands.mp he
  obtain ⟨s, hs, -, hrules, -⟩ := h.authoredImports_eq hw hpe
  rw [hrules] at hr
  obtain ⟨n, -, -, hn, -⟩ := (hw.rule e.donor s e.rule hs hr).1.readable
  have hlive : w.doc.contains e.rule = true := contains_iff_get?.mpr ⟨n, hn⟩
  obtain ⟨x, -, hx, -⟩ := hw.tidy.exists_sheetOf? hlive
  have hutility := hw.mem_utilities_of_import hat hs hr hx
  rcases unmoved_or_carried w settings d.pairs e.rule with hu | ⟨derived, hc⟩
  · rw [h.sheetOf?_unmoved hw hlive hu] at hsheet
    cases hx.symm.trans hsheet
    have hno := hu e.rule (Within.refl _)
    rw [isMoved_iff.mpr ⟨importer, home, hp, hutility⟩] at hno
    cases hno
  · rw [h.sheetOf?_carried hw hlive hc] at hsheet
    cases hsheet
    obtain ⟨donor, hpd, -⟩ := hc.donor hw.tidy
    exact absurd (h.lt_size hp) (Nat.not_lt.mpr (h.divided.pair donor _ hpd).1)

end Parted

/-- `line` are the companions at the top of a derived stylesheet, and `es` the errands that they were
made for, one each. -/
structure Lineup (u : Workspace) (home : SheetId) (top : NodeId) (es : List Errand)
    (line : List NodeId) : Prop where
  sublist : line.Sublist (u.doc.children top)
  reads : line.map u.doc.get? = es.map (u.companionOf? home)
  all : ∀ c, c ∈ line ↔ c ∈ u.doc.children top ∧ ∃ e ∈ es, u.doc.get? c = u.companionOf? home e

namespace Parted

variable (h : Parted w settings d v u) (hw : w.Analysed)
include h hw

theorem exists_lineup {donor : SheetId} {t : Sheet} (hp : (donor, home) ∈ d.pairs)
    (ht : u.get? home = some t) :
    ∃ line, u.Lineup home t.root (u.madeAt d home (u.errands d.pairs)) line := by
  cases hat : Text.sameCaseless settings.atRule "import" with
  | true => exact ⟨[], List.nil_sublist _, by simp [h.madeAt_eq_nil hw hat],
      by simp [h.madeAt_eq_nil hw hat]⟩
  | false =>
    obtain ⟨line, hline, hchildren⟩ := h.exists_line hw hat (h.divided.pair donor home hp).1 ht
    have hreads : line.map u.doc.get? =
        (u.madeAt d home (u.errands d.pairs)).map (u.companionOf? home) := by
      rw [hline.reads, ← h.madeAt_eq hw]
      refine List.map_congr_left fun e he => ?_
      have he := (h.owner_of_mem_madeAt he).1
      rw [(h.errands_eq hw).2, ← (h.errands_eq hw).1] at he
      exact (h.accompanied.companionOf?_eq (h.live_rule hw he) home).symm
    refine ⟨line, hchildren ▸ List.sublist_append_left .., hreads, fun c => ⟨fun hc => ?_, ?_⟩⟩
    · have hm : u.doc.get? c ∈ line.map u.doc.get? := List.mem_map_of_mem hc
      rw [hreads] at hm
      obtain ⟨e, he, heq⟩ := List.mem_map.mp hm
      exact ⟨hchildren ▸ List.mem_append_left _ hc, e, he, heq.symm⟩
    · rintro ⟨hc, e, he, heq⟩
      rw [hchildren] at hc
      refine (List.mem_append.mp hc).resolve_right fun hold => ?_
      obtain ⟨other, -, hutility⟩ := mem_utilitiesFor.mp hold
      obtain ⟨n, hn⟩ := contains_iff_get?.mp (live_utility hw.tidy hutility)
      have hadded := (isAdded_companionOf? (heq.symm.trans ((h.data (contains_iff_get?.mpr
        ⟨n, hn⟩)).trans hn))).1
      rw [Node.isAdded, hw.origin c n hn] at hadded
      cases hadded

/-- An import in the tree of a donor stands below its root. -/
theorem below_of_owner {s : Sheet} (hs : u.get? importer = some s) (he : e ∈ u.errands d.pairs)
    (hsheet : u.sheetOf? e.rule = some importer) : u.doc.Below s.root e.rule := by
  obtain ⟨-, s', hs', hwithin⟩ := h.accompanied.tidy.sheetOf?_eq_some.mp hsheet
  cases hs.symm.trans hs'
  refine (within_iff.mp hwithin).resolve_left fun hroot => ?_
  rw [(h.errands_eq hw).2, ← (h.errands_eq hw).1] at he
  obtain ⟨target, hawaits⟩ := h.exists_awaits hw he
  obtain ⟨p, hp⟩ := exists_parent_of_import h.divided.tidy hawaits.readable
  have hparent := h.accompanied.grown.parent?_eq_some hp
  rw [hroot, h.accompanied.tidy.parent?_root hs] at hparent
  cases hparent

/-- The errands at the top of `home` come in the order of their imports just when each two of these
imports stand in the order in which their errands are run. -/
theorem inStep_iff (ho : ∀ id s, w.get? id = some s → s.InOrder) {s : Sheet}
    (hs : u.get? importer = some s)
    (hown : ∀ e ∈ u.madeAt d home (u.errands d.pairs), u.sheetOf? e.rule = some importer) :
    InStep u.doc s.root (u.madeAt d home (u.errands d.pairs)) ↔
      ∀ e ∈ u.madeAt d home (u.errands d.pairs), ∀ e' ∈ u.madeAt d home (u.errands d.pairs),
        StandsBefore u.doc s.root e.rule e'.rule → RunsBefore e e' := by
  have hsub : (u.madeAt d home (u.errands d.pairs)).Sublist (u.errands d.pairs) :=
    (firstsBy_sublist _).trans List.filter_sublist
  refine pairwise_iff_of_pairwise ((h.pairwise_errands hw ho).sublist hsub)
    (fun hr hr' => hr.asymm hr') (fun hs hs' => Nat.lt_asymm hs hs') fun e he e' he' hne => ?_
  exact standsBefore_total h.accompanied.tidy.wellFormed
    (h.below_of_owner hw hs (hsub.subset he) (hown e he))
    fun hrule => hne (h.errand_unique hw (hsub.subset he) (hsub.subset he') hrule)

end Parted

/-- **Companions at the top of a derived stylesheet stand as the imports that they were made for just
when these imports stand in the order in which companions are added**: donors in the order of
registration, and the imports of one donor in the order of their identifiers. -/
theorem companions_in_step_iff (sources : List (Option FilePath × String)) (resolve : Resolution)
    (base : FilePath) (settings : Settings) {table : List (List SheetId)} {w : Workspace}
    (hl : ((filled sources).connect resolve base).1.inheritLayers = .ok (table, w)) :
    ∃ u d, w.split settings = .ok (u, d) ∧ ∀ importer home, (importer, home) ∈ d.pairs →
      (∀ other, (other, home) ∈ d.pairs → other = importer) →
      ∃ s t es line, u.get? importer = some s ∧ u.get? home = some t ∧
        es = u.madeAt d home (u.errands d.pairs) ∧
        (∀ e ∈ es, u.sheetOf? e.rule = some importer) ∧ u.Lineup home t.root es line ∧
        (InStep u.doc s.root es ↔
          ∀ e ∈ es, ∀ e' ∈ es, StandsBefore u.doc s.root e.rule e'.rule → RunsBefore e e') := by
  have hw := analysed (fresh_filled sources) hl
  have ho : ∀ id s, w.get? id = some s → s.InOrder := fun id s hs =>
    inOrder_inheritLayers (fresh_filled sources) hl hs
  obtain ⟨v, u, d, hsplit, h⟩ := exists_split hw settings
  refine ⟨u, d, hsplit, fun importer home hp hunshared => ?_⟩
  obtain ⟨s, hs⟩ := get?_isSome.mpr (Nat.lt_of_lt_of_le (h.lt_size hp) h.size_le)
  obtain ⟨t, ht⟩ := get?_isSome.mpr (h.size ▸ (h.divided.pair importer home hp).2)
  obtain ⟨line, hline⟩ := h.exists_lineup hw hp ht
  have hown : ∀ e ∈ u.madeAt d home (u.errands d.pairs), u.sheetOf? e.rule = some importer := by
    intro e he
    obtain ⟨-, other, hother, hsheet⟩ := h.owner_of_mem_madeAt he
    rwa [hunshared other hother] at hsheet
  exact ⟨s, t, _, line, hs, ht, rfl, hown, hline, h.inStep_iff hw ho hs hown⟩

/-- Three stylesheets that are split, one of which imports the others, `a` before `b`. -/
def importedPair (first second : Option FilePath × String) : List (Option FilePath × String) :=
  [(some ⟨"/p/root.css"⟩, "@import './i.css' layer(utilities);"), first, second,
    (some ⟨"/p/i.css"⟩, "@import './a.css';\n@import './b.css';\nh1 {}\n@utility i { c: d }")]

def sourceA : Option FilePath × String := (some ⟨"/p/a.css"⟩, "h1 {}\n@utility a { c: d }")

def sourceB : Option FilePath × String := (some ⟨"/p/b.css"⟩, "h1 {}\n@utility b { c: d }")

/-- Registered in the order in which they are imported, they are imported so again. -/
theorem in_step_when_registered_in_turn : ∃ table w u d s,
    ((filled (importedPair sourceA sourceB)).connect
      (.known ((importedPair sourceA sourceB).filterMap Prod.fst)) ⟨"/p"⟩).1.inheritLayers =
        .ok (table, w) ∧
    w.split {} = .ok (u, d) ∧ d.pairs = [(1, 4), (2, 5), (3, 6)] ∧ u.get? 3 = some s ∧
    (u.madeAt d 6 (u.errands d.pairs)).map Errand.donor = [1, 2] ∧
    InStep u.doc s.root (u.madeAt d 6 (u.errands d.pairs)) := by
  have hrun : splitsWith (importedPair sourceA sourceB)
      (.known ((importedPair sourceA sourceB).filterMap Prod.fst)) ⟨"/p"⟩ {} (fun _ u d =>
        d.pairs == [(1, 4), (2, 5), (3, 6)] &&
        ((u.madeAt d 6 (u.errands d.pairs)).map Errand.donor == [1, 2] &&
        (u.get? 3).all fun s => decide (∀ e ∈ u.madeAt d 6 (u.errands d.pairs),
          ∀ e' ∈ u.madeAt d 6 (u.errands d.pairs),
            StandsBefore u.doc s.root e.rule e'.rule → RunsBefore e e'))) = true := by
    decide +kernel
  obtain ⟨table, w, u, d, hl, hsplit, hcheck⟩ := exists_of_splitsWith hrun
  rw [Bool.and_eq_true, Bool.and_eq_true, beq_iff_eq, beq_iff_eq] at hcheck
  obtain ⟨hpairs, hmade, hbefore⟩ := hcheck
  obtain ⟨u', d', hsplit', h⟩ := companions_in_step_iff _ _ ⟨"/p"⟩ {} hl
  cases hsplit.symm.trans hsplit'
  obtain ⟨s, t, es, line, hs, -, rfl, -, -, hiff⟩ := h 3 6 (by simp [hpairs]) (by simp [hpairs])
  rw [hs, Option.all_some, decide_eq_true_eq] at hbefore
  exact ⟨table, w, u, d, s, hl, hsplit, hpairs, hs, hmade, hiff.mpr hbefore⟩

/-- Registered the other way round, they are imported the other way round. -/
theorem not_always_in_step : ¬ ∀ (sources : List (Option FilePath × String)) (resolve : Resolution)
    (base : FilePath) (settings : Settings) (table : List (List SheetId)) (w u : Workspace)
    (d : Derivations), ((filled sources).connect resolve base).1.inheritLayers = .ok (table, w) →
    w.split settings = .ok (u, d) → ∀ importer home s, (importer, home) ∈ d.pairs →
    (∀ other, (other, home) ∈ d.pairs → other = importer) → u.get? importer = some s →
    InStep u.doc s.root (u.madeAt d home (u.errands d.pairs)) := by
  intro hall
  have hrun : splitsWith (importedPair sourceB sourceA)
      (.known ((importedPair sourceB sourceA).filterMap Prod.fst)) ⟨"/p"⟩ {} (fun _ u d =>
        d.pairs == [(1, 4), (2, 5), (3, 6)] && (u.get? 3).any fun s =>
          !decide (InStep u.doc s.root (u.madeAt d 6 (u.errands d.pairs)))) = true := by
    decide +kernel
  obtain ⟨table, w, u, d, hl, hsplit, hcheck⟩ := exists_of_splitsWith hrun
  rw [Bool.and_eq_true, beq_iff_eq] at hcheck
  obtain ⟨s, hs, hno⟩ := (Option.any_eq_true _ _).mp hcheck.2
  rw [Bool.not_eq_true', decide_eq_false_iff_not] at hno
  exact hno (hall _ _ ⟨"/p"⟩ {} table w u d hl hsplit 3 6 s (by simp [hcheck.1])
    (by simp [hcheck.1]) hs)

end Workspace

end Strata
