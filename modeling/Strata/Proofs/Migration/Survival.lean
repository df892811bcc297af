import Strata.Proofs.Cleanup
import Strata.Proofs.Split.Outcome

/-! What a migration leaves alone.

A cleanup behind a split removes imports of discarded stylesheets and what is
within them. So a node that no import is above survives, an import of a
stylesheet that is kept survives, and so does every companion, as a derived
stylesheet has the utilities of its donors and is never emptied. The last needs
that utilities are not imports themselves. -/
namespace Strata.Workspace

open Forest Document

variable {w v u z : Workspace} {settings : Settings} {d : Derivations}

/-! ### After a split -/

namespace Parted

variable (h : Parted w settings d v u) (hw : w.Analysed)
include h hw

theorem inbound_cases {id : SheetId} {s : Sheet} {rule : NodeId} (hs : u.get? id = some s)
    (hr : rule ∈ s.inbound) :
    (w.get? id = some s ∧ w.doc.ImportAt rule ∧ w.doc.contains rule = true) ∨
      v.doc.contains rule = false ∧ u.doc.contains rule = true ∧ ∃ donor, (donor, id) ∈ d.pairs := by
  by_cases hid : id < w.sheets.size
  · rw [h.original hid] at hs
    have hat := (hw.rule id s rule hs hr).1
    obtain ⟨n, -, -, hn, -⟩ := hat.readable
    exact Or.inl ⟨hs, hat, contains_iff_get?.mpr ⟨n, hn⟩⟩
  · obtain ⟨hnew, donor, _, _, home, hp, -, -, -, hc⟩ :=
      h.companion_cases (Nat.le_of_not_lt hid) hs hr
    exact Or.inr ⟨hnew, (h.accompanied.tidy.sheetOf?_eq_some.mp hc).1, donor, hp⟩

theorem isImportRule_inbound {id : SheetId} {s : Sheet} {rule : NodeId}
    (hs : u.get? id = some s) (hr : rule ∈ s.inbound) :
    (u.doc.get? rule).any Node.isImportRule = true := by
  rcases h.inbound_cases hw hs hr with ⟨-, hat, hlive⟩ | ⟨hnew, hlive, -⟩
  · obtain ⟨n, -, -, hn, himport, -⟩ := hat.readable
    rw [h.data hlive, hn]
    exact himport
  · obtain ⟨⟨n, hn, himport, -⟩, -⟩ := h.accompanied.added rule hlive hnew
    rw [hn]
    exact himport

theorem standing : u.Standing where
  tidy := h.accompanied.tidy
  kept id s hs := by
    by_cases hid : id < w.sheets.size
    · rw [h.original hid] at hs
      exact (hw.plain id s hs).1
    · exact (h.made (Nat.le_of_not_lt hid) hs).2
  rules id s rule hs hr hroot := by
    have himport := h.isImportRule_inbound hw hs hr
    obtain ⟨n, hn⟩ := contains_iff_get?.mp (Document.Tidy.live h.accompanied.tidy hroot)
    rw [hn, Option.any_some,
      isImportRule_of_isRoot ((Document.Tidy.form h.accompanied.tidy rule n hn).mpr hroot)] at himport
    cases himport

theorem outsideImports {x : NodeId} (hx : w.doc.contains x = true)
    (hclear : w.doc.OutsideImports x) : u.doc.OutsideImports x := by
  intro a ha
  by_contra himport
  rw [Bool.not_eq_false] at himport
  obtain ⟨hlive, hwithin⟩ := h.import_above hw hx ha himport
  rw [h.data hlive, hclear a hwithin] at himport
  cases himport

end Parted

/-! ### After the cleanup -/

/-- `w` is split, which leads to `u`, and then cleaned up, which leaves `z`. -/
structure Migrated (w : Workspace) (settings : Settings) (d : Derivations) (v u z : Workspace) :
    Prop where
  analysed : w.Analysed
  parted : Parted w settings d v u
  cleaned : Cleaned u d.pairs z

/-- **A workspace that is ready for a split can be split and cleaned up.** -/
theorem exists_migrated (hw : w.Analysed) (settings : Settings) :
    ∃ v u d, w.split settings = .ok (u, d) ∧ Migrated w settings d v u (u.cleanUp d).1 := by
  obtain ⟨v, u, d, hsplit, hparted⟩ := exists_split hw settings
  exact ⟨v, u, d, hsplit, hw, hparted, cleaned_cleanUp (hparted.standing hw) d⟩

namespace Migrated

variable (h : Migrated w settings d v u z)
include h

theorem tidy_split : u.Tidy := h.parted.accompanied.tidy

/-- The nodes there were are what they were, as far as they are left. -/
theorem data_eq {x : NodeId} (hx : w.doc.contains x = true) (hz : z.doc.contains x = true) :
    z.doc.get? x = w.doc.get? x := by
  rcases h.cleaned.data x hz with heq | ⟨⟨donor, derived, s, hp, hs, hm⟩, -⟩
  · rw [heq, h.parted.data hx]
  · rcases h.parted.inbound_cases h.analysed hs hm with ⟨hget, -⟩ | ⟨hnew, -⟩
    · exact absurd (lt_size hget) (Nat.not_lt.mpr (h.parted.divided.pair donor derived hp).1)
    · rw [(h.parted.divided.live x).mpr (Or.inl hx)] at hnew
      cases hnew

/-- What no import is above is left. -/
theorem live_of_clear {x : NodeId} (hx : u.doc.contains x = true)
    (hclear : u.doc.OutsideImports x) : z.doc.contains x = true := by
  refine (h.cleaned.thinned.live x).mpr ⟨hx, ?_⟩
  rintro rule ⟨id, s, t, hs, -, -, hr⟩ hw
  have himport := h.parted.isImportRule_inbound h.analysed hs hr
  rw [hclear rule hw] at himport
  cases himport

/-- The imports of a stylesheet that is kept are left. -/
theorem live_rule {y : SheetId} {s : Sheet} {rule : NodeId} (hs : w.get? y = some s)
    (hr : rule ∈ s.inbound) (hkept : ∀ t, z.get? y = some t → t.discarded = false) :
    z.doc.contains rule = true := by
  have hat := (h.analysed.rule y s rule hs hr).1
  obtain ⟨n, -, -, hn, -⟩ := hat.readable
  have hlive : w.doc.contains rule = true := contains_iff_get?.mpr ⟨n, hn⟩
  refine (h.cleaned.thinned.live rule).mpr ⟨h.parted.live hlive, ?_⟩
  rintro other ⟨id, s', t, hs', ht, hd, hother⟩ hwithin
  have himport := h.parted.isImportRule_inbound h.analysed hs' hother
  obtain ⟨hlive', hbefore⟩ := h.parted.import_above h.analysed hlive hwithin himport
  have heq : rule = other := by
    refine (within_iff.mp hbefore).resolve_right fun hb => ?_
    rw [h.parted.data hlive', hat.outermost other hb] at himport
    cases himport
  subst heq
  rcases h.parted.inbound_cases h.analysed hs' hother with ⟨hget, -⟩ | ⟨hnew, -⟩
  · have hid := h.analysed.target y id s s' rule hs hget hr hother
    subst hid
    rw [hkept t ht] at hd
    cases hd
  · rw [(h.parted.divided.live rule).mpr (Or.inl hlive)] at hnew
    cases hnew

section utilities

variable (hat : Text.sameCaseless settings.atRule "import" = false)
include hat

/-- Utilities are left, below the roots of derived stylesheets. -/
theorem live_utility {donor derived : SheetId} {top : NodeId} (hp : (donor, derived) ∈ d.pairs)
    (htop : top ∈ w.utilities settings donor) : z.doc.contains top = true := by
  have hlive := Workspace.live_utility h.analysed.tidy htop
  obtain ⟨r, hr⟩ := get?_isSome.mpr (h.parted.divided.pair donor derived hp).2
  have hparent : u.doc.parent? top = some r.root :=
    h.parted.accompanied.grown.parent?_eq_some (h.parted.divided.moved donor derived r top hp hr htop)
  refine h.live_of_clear (h.parted.live hlive) fun a ha => ?_
  rcases ha.cases_parent with rfl | ⟨p, hp', ha⟩
  · obtain ⟨s, hs, -⟩ := exists_sheet_of_utility h.analysed.tidy htop
    obtain ⟨n, hn, hname⟩ :=
      (Option.any_eq_true _ _).mp ((mem_utilities h.analysed.tidy hs).mp htop).2.1
    rw [h.parted.data hlive, hn]
    exact isImportRule_of_isAt hat hname
  · rw [hparent] at hp'
    cases hp'
    obtain ⟨s, hs, hrs⟩ := h.parted.accompanied.get?_of_left hr
    rw [← hrs.root] at ha
    exact outsideImports_root h.tidy_split hs a ha

/-- Derived stylesheets are kept. -/
theorem derived_kept {donor derived : SheetId} {t : Sheet} (hp : (donor, derived) ∈ d.pairs)
    (ht : z.get? derived = some t) : t.discarded = false := by
  obtain ⟨top, htop⟩ :=
    List.exists_mem_of_ne_nil _ (h.parted.splits h.analysed hp).canSplit.utilities
  have hlive := Workspace.live_utility h.analysed.tidy htop
  have hz := h.live_utility hat hp htop
  have hcarried : w.Carried settings d.pairs top derived := ⟨donor, top, hp, htop, Within.refl _⟩
  have hsheet : z.sheetOf? top = some derived := by
    rw [h.cleaned.sheetOf?_eq h.tidy_split hz, h.parted.sheetOf?_carried h.analysed hlive hcarried]
  refine h.cleaned.not_discarded hsheet ht ?_
  rintro rfl
  obtain ⟨s, hs, hst⟩ := h.cleaned.sheet derived t ht
  obtain ⟨r, hr, hrs⟩ := h.parted.accompanied.sheet derived s hs
  have hbare := h.parted.divided.bare derived r (h.parted.divided.pair donor derived hp).1 hr
  rw [hst.root, hrs.root, hbare.2] at hlive
  cases hlive

/-- Companions are left. -/
theorem live_companion {donor derived : SheetId} {t : Sheet} {c : NodeId}
    (hp : (donor, derived) ∈ d.pairs) (ht : u.get? derived = some t) (hc : c ∈ t.inbound) :
    z.doc.contains c = true := by
  rcases h.parted.inbound_cases h.analysed ht hc with ⟨hget, -⟩ | ⟨hnew, hlive, -⟩
  · exact absurd (lt_size hget) (Nat.not_lt.mpr (h.parted.divided.pair donor derived hp).1)
  · obtain ⟨-, p, hparent, hplive, hclear⟩ := h.parted.accompanied.added c hlive hnew
    refine (h.cleaned.thinned.live c).mpr ⟨hlive, ?_⟩
    rintro rule ⟨id, s, r, hs, hr, hd, hrule⟩ hwithin
    rcases hwithin.cases_parent with rfl | ⟨p', hp', hwithin⟩
    · rcases h.parted.inbound_cases h.analysed hs hrule with ⟨-, -, hold⟩ | ⟨-, -, other, hother⟩
      · rw [(h.parted.divided.live c).mpr (Or.inl hold)] at hnew
        cases hnew
      · rw [h.derived_kept hat hother hr] at hd
        cases hd
    · rw [hparent] at hp'
      cases hp'
      have hgrown := h.parted.accompanied.grown
      have hbefore := (hgrown.within_iff h.parted.divided.tidy.wellFormed hplive).mp hwithin
      have habove := h.parted.divided.tidy.wellFormed.contains_above hbefore hplive
      have himport := h.parted.isImportRule_inbound h.analysed hs hrule
      rw [hgrown.data rule habove, hclear rule hbefore] at himport
      cases himport

end utilities

end Migrated

/-! ### Runs that can be evaluated -/

instance (w : Workspace) (x y : SheetId) : Decidable (w.Imports x y) :=
  decidable_of_iff
    ((w.get? y).any (fun s => s.inbound.any fun rule => w.sheetOf? rule == some x) = true) <| by
    unfold Imports
    rw [Option.any_eq_true]
    simp only [List.any_eq_true, beq_iff_eq]
    constructor
    · intro hex
      obtain ⟨s, hs, rule, hr, hx⟩ := hex
      exact ⟨s, rule, hs, hr, hx⟩
    · intro hex
      obtain ⟨s, rule, hs, hr, hx⟩ := hex
      exact ⟨s, hs, rule, hr, hx⟩

/-- Whether an import is above a node is seen from its lineage. -/
theorem outsideImports_of_lineage (h : w.Tidy) {x : NodeId}
    (hl : (w.doc.lineage x).all (fun a => !(w.doc.get? a).any Node.isImportRule) = true) :
    w.doc.OutsideImports x := by
  intro a ha
  have hclear := List.all_eq_true.mp hl a (h.wellFormed.mem_lineage.mpr ha)
  simpa using hclear

end Strata.Workspace
