import Strata.Proofs.Split.Companions

/-! Where nodes belong once utilities have moved.

A node that was within a utility of a donor is carried to the derived stylesheet;
any other stays in its stylesheet. Above a node there is what was above it, and
the root of a derived stylesheet if it was carried. So an import that was not
within another is not now, and companions can be placed. -/
namespace Strata.Workspace

open Forest

variable {w v : Workspace} {settings : Settings} {pairs : List (SheetId × SheetId)}
  {x : NodeId} {derived : SheetId}

/-- Where utilities are imports, the imports that lead somewhere are utilities. -/
theorem Analysed.mem_utilities_of_import (hw : w.Analysed)
    (hat : Text.sameCaseless settings.atRule "import" = true) {importer y : SheetId} {s : Sheet}
    (hs : w.get? y = some s) (hr : x ∈ s.inbound) (hx : w.sheetOf? x = some importer) :
    x ∈ w.utilities settings importer := by
  have hrule := (hw.rule y s x hs hr).1
  obtain ⟨n, -, -, hn, himport, -⟩ := hrule.readable
  obtain ⟨-, t, ht, hwithin⟩ := hw.tidy.sheetOf?_eq_some.mp hx
  obtain ⟨p, hp⟩ := exists_parent_of_import hw.tidy hrule
  have hbelow : w.doc.Below t.root x := by
    refine (within_iff.mp hwithin).resolve_left ?_
    rintro rfl
    rw [hw.tidy.parent?_root ht] at hp
    cases hp
  have hat : Node.isAt settings.atRule = Node.isImportRule := funext (isAt_eq_isImportRule hat)
  refine (mem_utilities hw.tidy ht).mpr ⟨hbelow, ?_, fun a _ ha => ?_⟩
  · rw [hat, hn]
    exact himport
  · rw [hat]
    exact hrule.outermost a ha

/-- `x` is within a utility that goes to `derived`. -/
def Carried (w : Workspace) (settings : Settings) (pairs : List (SheetId × SheetId)) (x : NodeId)
    (derived : SheetId) : Prop :=
  ∃ donor top, (donor, derived) ∈ pairs ∧ top ∈ w.utilities settings donor ∧ w.doc.Within top x

/-- `x` is not within a utility that goes anywhere. -/
def Unmoved (w : Workspace) (settings : Settings) (pairs : List (SheetId × SheetId))
    (x : NodeId) : Prop :=
  ∀ a, w.doc.Within a x → w.isMoved settings pairs a = false

theorem unmoved_or_carried (w : Workspace) (settings : Settings)
    (pairs : List (SheetId × SheetId)) (x : NodeId) :
    w.Unmoved settings pairs x ∨ ∃ derived, w.Carried settings pairs x derived := by
  by_cases h : w.Unmoved settings pairs x
  · exact Or.inl h
  · right
    unfold Unmoved at h
    push Not at h
    obtain ⟨a, ha, hm⟩ := h
    rw [ne_eq, Bool.not_eq_false] at hm
    obtain ⟨donor, derived, hp, hu⟩ := isMoved_iff.mp hm
    exact ⟨derived, donor, a, hp, hu, ha⟩

/-- What is carried was in the tree of a donor. -/
theorem Carried.donor (hw : w.Tidy) (hc : w.Carried settings pairs x derived) :
    ∃ donor, (donor, derived) ∈ pairs ∧ w.sheetOf? x = some donor := by
  obtain ⟨donor, top, hp, hu, hwithin⟩ := hc
  have hlive : w.doc.contains x = true := hwithin.live (live_utility hw hu)
  exact ⟨donor, hp, by rw [← hw.sheetOf?_within hlive hwithin, sheetOf?_utility hw hu]⟩

/-- Below a utility nothing moves by itself. -/
theorem not_isMoved_below (hw : w.Tidy) {donor : SheetId} {top : NodeId}
    (htop : top ∈ w.utilities settings donor) (hb : w.doc.Below top x) :
    w.isMoved settings pairs x = false := by
  by_contra hm
  rw [Bool.not_eq_false, isMoved_iff] at hm
  obtain ⟨other, derived, -, hx⟩ := hm
  have hlive := live_utility hw hx
  have hsheet : some donor = some other := by
    rw [← sheetOf?_utility hw htop, hw.sheetOf?_within hlive hb.within, sheetOf?_utility hw hx]
  cases hsheet
  obtain ⟨s, hs, -⟩ := exists_sheet_of_utility hw htop
  unfold utilities at htop hx
  rw [hs] at htop hx
  have heq := hw.wellFormed.outermost_apart htop hx hb.within
  exact (hw.wellFormed.below_iff.mp hb).2 heq.symm

namespace Divided

variable (h : Divided w settings pairs v)
include h

/-! ### Trees -/

section homes

variable (hw : w.Tidy)
include hw

theorem sheetOf?_carried (hc : w.Carried settings pairs x derived) :
    v.sheetOf? x = some derived := by
  obtain ⟨donor, top, hp, hu, hwithin⟩ := hc
  obtain ⟨t, ht⟩ := get?_isSome.mpr (h.pair donor derived hp).2
  have hkept : v.doc.Within top x := by
    refine within_of_kept hwithin fun a ha _ => ?_
    obtain ⟨p, hparent, -⟩ := id ha
    exact h.stayed a (contains_of_parent? hparent) (not_isMoved_below hw hu ha)
  have hroot : v.doc.Within t.root x :=
    Within.trans (Within.of_parent (h.moved donor derived t top hp ht hu)) hkept
  have hlive : v.doc.contains x = true := h.tidy.live_within ht hroot
  exact h.tidy.sheetOf?_eq_some.mpr ⟨hlive, t, ht, hroot⟩

theorem sheetOf?_unmoved (hx : w.doc.contains x = true) (hu : w.Unmoved settings pairs x) :
    v.sheetOf? x = w.sheetOf? x := by
  obtain ⟨id, s, hid, hs, hwithin⟩ := hw.exists_sheetOf? hx
  have hkept : v.doc.Within s.root x := by
    refine within_of_kept hwithin fun a ⟨p, hparent, _⟩ hax => ?_
    exact h.stayed a (contains_of_parent? hparent) (hu a hax)
  rw [hid, h.tidy.sheetOf?_eq_some]
  exact ⟨(h.live x).mpr (Or.inl hx), s, h.original_root hs, hkept⟩

/-- Above a node there is what was above it, and roots of derived stylesheets. -/
theorem above {a : NodeId} (hx : w.doc.contains x = true) (ha : v.doc.Within a x) :
    (w.doc.contains a = true ∧ w.doc.Within a x) ∨
      ∃ id t, w.sheets.size ≤ id ∧ v.get? id = some t ∧ t.root = a := by
  induction ha with
  | refl => exact Or.inl ⟨hx, Within.refl _⟩
  | @tail b a _ hparent ih =>
    rcases ih with ⟨hb, hwithin⟩ | ⟨id, t, hid, ht, rfl⟩
    · cases hm : w.isMoved settings pairs b with
      | true =>
        obtain ⟨donor, derived, hp, hu⟩ := isMoved_iff.mp hm
        obtain ⟨hle, hlt⟩ := h.pair donor derived hp
        obtain ⟨t, ht⟩ := get?_isSome.mpr hlt
        rw [h.moved donor derived t b hp ht hu] at hparent
        exact Or.inr ⟨derived, t, hle, ht, Option.some.inj hparent⟩
      | false =>
        have hparent : v.doc.parent? b = some a := hparent
        rw [h.stayed b hb hm] at hparent
        exact Or.inl ⟨hw.wellFormed.contains_parent hparent,
          Within.trans (Within.of_parent hparent) hwithin⟩
    · rw [h.tidy.parent?_root ht] at hparent
      cases hparent

omit hw in
theorem isImportRule_root {id : SheetId} {t : Sheet} (hid : w.sheets.size ≤ id)
    (ht : v.get? id = some t) : (v.doc.get? t.root).any Node.isImportRule = false := by
  rw [h.form id t hid ht]
  exact isImportRule_of_isRoot rfl

/-- The imports above a node were above it before. -/
theorem import_above {a : NodeId} (hx : w.doc.contains x = true) (ha : v.doc.Within a x)
    (himport : (v.doc.get? a).any Node.isImportRule = true) :
    w.doc.contains a = true ∧ w.doc.Within a x := by
  refine (h.above hw hx ha).resolve_right ?_
  rintro ⟨id, t, hid, ht, rfl⟩
  rw [h.isImportRule_root hid ht] at himport
  cases himport

theorem importAt {rule : NodeId} (hr : w.doc.ImportAt rule) : v.doc.ImportAt rule := by
  obtain ⟨n, params, specifier, hn, himport, hparams, hspecifier⟩ := hr.readable
  have hlive : w.doc.contains rule = true := contains_iff_get?.mpr ⟨n, hn⟩
  refine ⟨⟨n, params, specifier, ?_, himport, hparams, hspecifier⟩, fun a ha => ?_⟩
  · rw [h.data rule hlive, hn]
  · by_contra hi
    rw [Bool.not_eq_false] at hi
    obtain ⟨hwithin, hne⟩ := h.tidy.wellFormed.below_iff.mp ha
    obtain ⟨ha, hwithin⟩ := h.import_above hw hlive hwithin hi
    have hb := hw.wellFormed.below_iff.mpr ⟨hwithin, hne⟩
    rw [h.data a ha, hr.outermost a hb] at hi
    cases hi

end homes

theorem origin (horigin : ∀ x n, w.doc.get? x = some n → n.origin = none) (x : NodeId) (n : Node)
    (hx : v.doc.get? x = some n) : n.origin = none := by
  rcases (h.live x).mp (contains_iff_get?.mpr ⟨n, hx⟩) with hl | ⟨id, t, hid, ht, rfl⟩
  · rw [h.data x hl] at hx
    exact horigin x n hx
  · rw [h.form id t hid ht] at hx
    cases hx
    rfl

end Divided

end Strata.Workspace
