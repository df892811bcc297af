import Strata.Proofs.Cleanup
import Strata.Proofs.Split.Success
import Strata.Proofs.Transform

/-! Splits leave stylesheets standing.

A workspace is whole when nothing is discarded and every import stands below a node. The passes before
a split leave it so, and a split does, also where utilities go by the name of imports and move with
them. That is all that a cleanup asks (`Whole.standing`). -/
namespace Strata.Workspace

open Forest

variable {w u v : Workspace} {settings : Settings} {d : Derivations}

structure Whole (w : Workspace) : Prop where
  tidy : w.Tidy
  kept : ∀ id s, w.get? id = some s → s.discarded = false
  below : ∀ id s rule, w.get? id = some s → rule ∈ s.inbound → ∃ p, w.doc.parent? rule = some p

theorem Whole.standing (h : w.Whole) : w.Standing where
  tidy := h.tidy
  kept := h.kept
  rules id s rule hs hr := by
    obtain ⟨p, hp⟩ := h.below id s rule hs hr
    exact Document.Tidy.not_root_of_parent? h.tidy hp

theorem Analysed.whole (h : w.Analysed) : w.Whole where
  tidy := h.tidy
  kept id s hs := (h.plain id s hs).1
  below id s rule hs hr := exists_parent_of_import h.tidy (h.rule id s rule hs hr).1

/-- Transforms leave every import below a node. -/
theorem Analysed.whole_reshaped (h : w.Analysed) {g : Document}
    (hg : Document.Reshaped settings.atRule w.roots w.doc g) : Whole { w with doc := g } where
  tidy := hg.tidy
  kept id s hs := (h.plain id s hs).1
  below id s rule hs hr := by
    obtain ⟨n, -, -, hn, himport, -⟩ := (h.rule id s rule hs hr).1.readable
    obtain ⟨p, hp⟩ := exists_parent_of_import h.tidy (h.rule id s rule hs hr).1
    exact hg.tidy.exists_parent
      (contains_iff_get?.mpr ⟨n, hg.kept rule n (Node.isFixed_of_isImportRule himport) hn⟩)
      (Document.Tidy.not_root_of_parent? h.tidy hp)

/-- Utilities move, and imports with them. -/
theorem Divided.whole {pairs : List (SheetId × SheetId)} (h : Divided w settings pairs v)
    (hw : w.Whole) : v.Whole where
  tidy := h.tidy
  kept id t ht := by
    by_cases hid : id < w.sheets.size
    · rw [h.original id hid] at ht
      exact hw.kept id t ht
    · exact (h.bare id t (Nat.le_of_not_lt hid) ht).1.discarded
  below id t rule ht hr := by
    by_cases hid : id < w.sheets.size
    · rw [h.original id hid] at ht
      obtain ⟨p, hp⟩ := hw.below id t rule ht hr
      have hlive := contains_of_parent? hp
      refine Document.Tidy.exists_parent h.tidy ((h.live rule).mpr (Or.inl hlive)) fun hroot => ?_
      obtain ⟨other, s, hs, rfl⟩ := mem_roots.mp hroot
      by_cases hother : other < w.sheets.size
      · rw [h.original other hother] at hs
        exact Document.Tidy.not_root_of_parent? hw.tidy hp (root_mem_roots hs)
      · rw [(h.bare other s (Nat.le_of_not_lt hother) hs).2] at hlive
        cases hlive
    · rw [(h.bare id t (Nat.le_of_not_lt hid) ht).1.inbound] at hr
      cases hr

/-! ### Companions -/

/-- A companion is placed below a node that lives. -/
theorem PlacedFor.placed (h : u.Tidy) {rule : NodeId} {params : String} {origin : Origin}
    {placed : NodeId × Document}
    (hp : PlacedFor u rule (Node.addedImport params origin) params placed) :
    ∃ container, u.doc.contains container = true ∧
      Document.Placed u.doc container (Node.addedImport params origin) placed := by
  cases hp with
  | below ht => exact ⟨_, h.live ht, Document.placed_importInHost rfl ..⟩
  | beside hplaced =>
    cases hcontainer : u.doc.parent? rule with
    | none => simp [importBeside?, hcontainer] at hplaced
    | some container =>
      have hparams : (Node.addedImport params origin).params? = some params := rfl
      obtain ⟨placed', hplaced', hp⟩ :=
        Document.placed_importBeside hparams h.wellFormed hcontainer
      cases hplaced.symm.trans hplaced'
      exact ⟨container, h.wellFormed.contains_parent hcontainer, hp⟩

theorem Whole.addCompanion (h : u.Whole) (donor derived : SheetId) (target : FilePath)
    (rule : NodeId) : (addCompanion d donor derived target u rule).Whole := by
  rcases addCompanion_cases u d donor derived target rule with heq | ⟨home, placed, heq, _, _, hp⟩
  · rw [heq]
    exact h
  · obtain ⟨container, hlive, hp⟩ := hp.placed h.tidy
    have hwf := h.tidy.wellFormed
    have hgrown := hp.grown hwf hlive
    rw [heq]
    refine ⟨?_, fun id t ht => ?_, fun id t c ht hc => ?_⟩
    · rw [Tidy, roots_keepCompanion]
      exact hp.tidy hlive h.tidy rfl
    · rcases get?_keepCompanion_cases ht with ht | ⟨-, s, hs, rfl⟩
      · exact h.kept id t ht
      · exact h.kept id s hs
    · have hbefore : ∀ s, u.get? id = some s → c ∈ s.inbound → ∃ p, placed.2.parent? c = some p := by
        intro s hs hc
        obtain ⟨p, hp⟩ := h.below id s c hs hc
        exact ⟨p, hgrown.parent?_eq_some hp⟩
      rcases get?_keepCompanion_cases ht with ht | ⟨-, s, hs, rfl⟩
      · exact hbefore t ht hc
      · rcases (Ordered.mem_insert _ _ _ _).mp (show c ∈ Ordered.insert NodeId.before placed.1 s.inbound
          from hc) with rfl | hc
        · exact ⟨container, hp.parent hwf hlive⟩
        · exact hbefore s hs hc

/-- **A split leaves a whole workspace whole.** -/
theorem Whole.split (hw : w.Whole) (h : w.split settings = .ok (u, d)) : u.Whole := by
  obtain ⟨state, hstate, hdivided, -⟩ :=
    @exists_divided w (fun _ => True) hw.tidy settings trivial fun _ _ _ _ _ _ _ _ => trivial
  obtain ⟨state', hstate', rfl, hu⟩ := split_eq_ok h
  cases hstate.symm.trans hstate'
  refine foldlM_keeps (fun v pair next _ hv hnext => ?_) (hdivided.whole hw) hu
  exact addCompanions_keeps (fun _ target rule hu => hu.addCompanion _ _ target rule) hv hnext

end Strata.Workspace
