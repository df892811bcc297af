import Strata.Proofs.Split.Decision
import Strata.Proofs.Split.Seats

/-! Utilities in derived stylesheets.

`Divided` compares a workspace with the one that a split started from, when the
utilities of some donors have moved: every node is where it was, but for these
utilities, which are children of the roots of derived stylesheets, and the
stylesheets there were are as they were. Making a stylesheet keeps it
(`Divided.addRoot`), and so does moving one donor's utilities below the root of one
(`Divided.gather`). -/
namespace Strata

/-- The donors whose utilities go to a stylesheet, in the order of splitting. -/
def Derivations.donorsOf (d : Derivations) (derived : SheetId) : List SheetId :=
  (d.pairs.filter fun pair => pair.2 == derived).map Prod.fst

theorem Derivations.mem_donorsOf {d : Derivations} {donor derived : SheetId} :
    donor ∈ d.donorsOf derived ↔ (donor, derived) ∈ d.pairs := by
  simp [donorsOf]

/-- A stylesheet that a split made and that nothing imports yet. -/
structure Sheet.Bare (s : Sheet) : Prop where
  derived : s.derived = true
  discarded : s.discarded = false
  inbound : s.inbound = []
  parents : s.parents = []
  file : s.file.isSome = true

namespace Workspace

open Forest

variable {w v : Workspace} {settings : Settings} {pairs : List (SheetId × SheetId)}

/-! ### Utilities -/

section utilities

variable (h : w.Tidy) {id : SheetId} {x : NodeId}
include h

theorem mem_utilities {s : Sheet} (hs : w.get? id = some s) :
    x ∈ w.utilities settings id ↔ w.doc.Below s.root x ∧
      (w.doc.get? x).any (Node.isAt settings.atRule) = true ∧
      ∀ a, w.doc.Below s.root a → w.doc.Below a x →
        (w.doc.get? a).any (Node.isAt settings.atRule) = false := by
  unfold utilities
  rw [hs]
  exact h.wellFormed.mem_outermost

theorem exists_sheet_of_utility (hx : x ∈ w.utilities settings id) :
    ∃ s, w.get? id = some s ∧ w.doc.Below s.root x := by
  cases hs : w.get? id with
  | none => simp [utilities, hs] at hx
  | some s => exact ⟨s, rfl, ((mem_utilities h hs).mp hx).1⟩

theorem live_utility (hx : x ∈ w.utilities settings id) : w.doc.contains x = true := by
  obtain ⟨s, -, p, hp, -⟩ := exists_sheet_of_utility h hx
  exact contains_of_parent? hp

theorem sheetOf?_utility (hx : x ∈ w.utilities settings id) : w.sheetOf? x = some id := by
  obtain ⟨s, hs, hb⟩ := exists_sheet_of_utility h hx
  exact h.sheetOf?_eq_some.mpr ⟨live_utility h hx, s, hs, hb.within⟩

theorem nodup_utilities : (w.utilities settings id).Nodup := by
  unfold utilities
  split
  · exact List.nodup_nil
  · exact h.wellFormed.nodup_outermost _ _

end utilities

/-- A utility of one of the donors. -/
def isMoved (w : Workspace) (settings : Settings) (pairs : List (SheetId × SheetId))
    (x : NodeId) : Bool :=
  pairs.any fun pair => (w.utilities settings pair.1).contains x

theorem isMoved_iff {x : NodeId} :
    w.isMoved settings pairs x = true ↔
      ∃ donor derived, (donor, derived) ∈ pairs ∧ x ∈ w.utilities settings donor := by
  simp [isMoved]

theorem isMoved_append (donor derived : SheetId) (x : NodeId) :
    w.isMoved settings (pairs ++ [(donor, derived)]) x =
      (w.isMoved settings pairs x || (w.utilities settings donor).contains x) := by
  simp [isMoved]

/-- The utilities that some donors give to a stylesheet, those of a later donor in front. -/
def utilitiesFor (w : Workspace) (settings : Settings) (pairs : List (SheetId × SheetId))
    (derived : SheetId) : List NodeId :=
  ((Derivations.mk pairs).donorsOf derived).reverse.flatMap (w.utilities settings)

theorem mem_utilitiesFor {derived : SheetId} {x : NodeId} : x ∈ w.utilitiesFor settings pairs derived ↔
    ∃ donor, (donor, derived) ∈ pairs ∧ x ∈ w.utilities settings donor := by
  simp [utilitiesFor, Derivations.mem_donorsOf]

theorem utilitiesFor_append (donor derived id : SheetId) :
    w.utilitiesFor settings (pairs ++ [(donor, derived)]) id = if id = derived then
      w.utilities settings donor ++ w.utilitiesFor settings pairs id
    else w.utilitiesFor settings pairs id := by
  unfold utilitiesFor Derivations.donorsOf
  split
  · next heq => simp [heq]
  · next hne => simp [Ne.symm hne]

/-- Nothing goes to a stylesheet that is in no pair. -/
theorem utilitiesFor_eq_nil {derived : SheetId} (hno : ∀ donor, (donor, derived) ∉ pairs) :
    w.utilitiesFor settings pairs derived = [] := by
  refine List.eq_nil_iff_forall_not_mem.mpr fun x hx => ?_
  obtain ⟨donor, hp, -⟩ := mem_utilitiesFor.mp hx
  exact hno donor hp

theorem sublist_utilitiesFor {donor derived : SheetId} (hp : (donor, derived) ∈ pairs) :
    (w.utilities settings donor).Sublist (w.utilitiesFor settings pairs derived) :=
  List.sublist_flatten_of_mem
    (List.mem_map_of_mem (List.mem_reverse.mpr (Derivations.mem_donorsOf.mpr hp)))

/-! ### What a split has done to the trees -/

structure Divided (w : Workspace) (settings : Settings) (pairs : List (SheetId × SheetId))
    (v : Workspace) : Prop where
  tidy : v.Tidy
  size_le : w.sheets.size ≤ v.sheets.size
  original : ∀ id < w.sheets.size, v.get? id = w.get? id
  bare : ∀ id t, w.sheets.size ≤ id → v.get? id = some t →
    t.Bare ∧ w.doc.contains t.root = false
  /-- The root of a derived stylesheet is one that nobody wrote. -/
  form : ∀ id t, w.sheets.size ≤ id → v.get? id = some t → v.doc.get? t.root = some .root
  pair : ∀ donor derived, (donor, derived) ∈ pairs →
    w.sheets.size ≤ derived ∧ derived < v.sheets.size
  live : ∀ x, v.doc.contains x = true ↔ w.doc.contains x = true ∨
    ∃ id t, w.sheets.size ≤ id ∧ v.get? id = some t ∧ t.root = x
  data : ∀ x, w.doc.contains x = true → v.doc.get? x = w.doc.get? x
  moved : ∀ donor derived t x, (donor, derived) ∈ pairs → v.get? derived = some t →
    x ∈ w.utilities settings donor → v.doc.parent? x = some t.root
  stayed : ∀ x, w.doc.contains x = true → w.isMoved settings pairs x = false →
    v.doc.parent? x = w.doc.parent? x
  children : ∀ p, w.doc.contains p = true →
    v.doc.children p = (w.doc.children p).filter fun c => !w.isMoved settings pairs c
  top : ∀ id t, w.sheets.size ≤ id → v.get? id = some t →
    v.doc.children t.root = w.utilitiesFor settings pairs id

theorem divided_refl (h : w.Tidy) : Divided w settings [] w where
  tidy := h
  size_le := Nat.le_refl _
  original _ _ := rfl
  bare id t hid ht := absurd (lt_size ht) (Nat.not_lt.mpr hid)
  form id t hid ht := absurd (lt_size ht) (Nat.not_lt.mpr hid)
  pair _ _ hp := absurd hp List.not_mem_nil
  live x := by
    refine ⟨Or.inl, fun h => h.resolve_right ?_⟩
    intro hex
    obtain ⟨id, t, hid, ht, -⟩ := hex
    exact absurd (lt_size ht) (Nat.not_lt.mpr hid)
  data _ _ := rfl
  moved _ _ _ _ hp := absurd hp List.not_mem_nil
  stayed _ _ _ := rfl
  children p _ := by simp [isMoved]
  top id t hid ht := absurd (lt_size ht) (Nat.not_lt.mpr hid)

namespace Divided

variable (h : Divided w settings pairs v)
include h

/-- One more stylesheet, with nothing below its root. -/
theorem addRoot {t : Sheet} (ht : t.Bare) (hroot : t.root = (v.doc.create .root).1) :
    Divided w settings pairs ({ v with doc := (v.doc.create .root).2 }.push t).2 := by
  have hst := h.tidy.wellFormed.stocked
  have hnew : ∀ x, w.doc.contains x = true → x ≠ (v.doc.create .root).1 := by
    rintro x hx rfl
    have := (h.live _).mpr (Or.inl hx)
    rw [not_contains_created hst] at this
    cases this
  have hget : ∀ id u, ({ v with doc := (v.doc.create .root).2 }.push t).2.get? id = some u →
      v.get? id = some u ∨ (id = v.sheets.size ∧ u = t) := fun id u => get?_push_cases
  have hkeep : ∀ id u, v.get? id = some u →
      ({ v with doc := (v.doc.create .root).2 }.push t).2.get? id = some u :=
    fun id u hu => get?_push_of_left (w := { v with doc := (v.doc.create .root).2 }) hu t
  have hpair : ∀ donor derived u, (donor, derived) ∈ pairs →
      ({ v with doc := (v.doc.create .root).2 }.push t).2.get? derived = some u →
      v.get? derived = some u := by
    intro donor derived u hp hu
    refine (hget derived u hu).resolve_right fun hnew => ?_
    exact absurd (h.pair donor derived hp).2 (hnew.1 ▸ Nat.lt_irrefl _)
  refine ⟨?_, ?_, fun id hid => ?_, fun id u hid hu => ?_, fun id u hid hu => ?_,
    fun donor derived hp => ?_, fun x => ?_, fun x hx => ?_, fun donor derived u x hp hu hx => ?_,
    fun x hx hm => ?_, fun p hp => ?_, fun id u hid hu => ?_⟩
  · rw [Tidy, roots_push, hroot]
    exact Document.Tidy.create h.tidy
  · exact Nat.le_trans h.size_le (by simp [push])
  · rw [get?_push, if_neg (Nat.ne_of_lt (Nat.lt_of_lt_of_le hid h.size_le))]
    exact h.original id hid
  · rcases hget id u hu with hu | ⟨-, rfl⟩
    · exact h.bare id u hid hu
    · refine ⟨ht, ?_⟩
      cases hc : w.doc.contains u.root with
      | false => rfl
      | true => exact absurd hroot (hnew u.root hc)
  · show (v.doc.create .root).2.get? u.root = _
    rw [get?_create hst]
    split
    · rfl
    · next hne =>
      rcases hget id u hu with hu | ⟨-, rfl⟩
      · exact h.form id u hid hu
      · exact absurd hroot hne
  · obtain ⟨hle, hlt⟩ := h.pair donor derived hp
    exact ⟨hle, Nat.lt_of_lt_of_le hlt (by simp [push])⟩
  · show (v.doc.create .root).2.contains x = true ↔ _
    rw [contains_create hst, h.live]
    constructor
    · rintro (rfl | hx | ⟨id, u, hid, hu, rfl⟩)
      · exact Or.inr ⟨v.sheets.size, t, h.size_le, by rw [get?_push, if_pos rfl], hroot⟩
      · exact Or.inl hx
      · exact Or.inr ⟨id, u, hid, hkeep id u hu, rfl⟩
    · rintro (hx | ⟨id, u, hid, hu, rfl⟩)
      · exact Or.inr (Or.inl hx)
      · rcases hget id u hu with hu | ⟨-, rfl⟩
        · exact Or.inr (Or.inr ⟨id, u, hid, hu, rfl⟩)
        · exact Or.inl hroot
  · show (v.doc.create .root).2.get? x = _
    rw [get?_create hst, if_neg (hnew x hx), h.data x hx]
  · show (v.doc.create .root).2.parent? x = _
    rw [parent?_create hst]
    exact h.moved donor derived u x hp (hpair donor derived u hp hu) hx
  · show (v.doc.create .root).2.parent? x = _
    rw [parent?_create hst, h.stayed x hx hm]
  · show (v.doc.create .root).2.children p = _
    rw [children_create hst, h.children p hp]
  · show (v.doc.create .root).2.children u.root = _
    rw [children_create hst]
    rcases hget id u hu with hu | ⟨rfl, rfl⟩
    · exact h.top id u hid hu
    · have hnone : ∀ donor, (donor, v.sheets.size) ∉ pairs :=
        fun donor hp => Nat.lt_irrefl _ (h.pair donor _ hp).2
      rw [hroot, children_eq_nil (not_contains_created hst _), utilitiesFor_eq_nil hnone]

/-- The text of a derived stylesheet says nothing here. -/
theorem withContent {derived : SheetId} (hle : w.sheets.size ≤ derived) (content : String) :
    Divided w settings pairs (v.modify derived fun s => { s with content }) := by
  have hget : ∀ id u, (v.modify derived fun s => { s with content }).get? id = some u →
      ∃ t, v.get? id = some t ∧ u.root = t.root ∧ (t.Bare → u.Bare) := by
    intro id u hu
    rw [get?_modify] at hu
    split at hu
    · obtain ⟨t, ht, rfl⟩ := Option.map_eq_some_iff.mp hu
      exact ⟨t, ht, rfl, fun hb => ⟨hb.derived, hb.discarded, hb.inbound, hb.parents, hb.file⟩⟩
    · exact ⟨u, hu, rfl, fun hb => hb⟩
  have hkeep : ∀ id t, v.get? id = some t →
      ∃ u, (v.modify derived fun s => { s with content }).get? id = some u ∧ u.root = t.root := by
    intro id t ht
    rw [get?_modify, ht]
    split
    · exact ⟨{ t with content }, rfl, rfl⟩
    · exact ⟨t, rfl, rfl⟩
  have hroots : (v.modify derived fun s => { s with content }).roots = v.roots :=
    roots_modify derived fun _ => rfl
  refine ⟨?_, ?_, fun id hid => ?_, fun id u hid hu => ?_, fun id u hid hu => ?_,
    fun donor derived' hp => ?_, fun x => ?_, h.data, fun donor derived' u x hp hu hx => ?_,
    h.stayed, h.children, fun id u hid hu => ?_⟩
  · rw [Tidy, hroots]
    exact h.tidy
  · rw [size_modify]
    exact h.size_le
  · rw [get?_modify, if_neg (Nat.ne_of_lt (Nat.lt_of_lt_of_le hid hle))]
    exact h.original id hid
  · obtain ⟨t, ht, hroot, hbare⟩ := hget id u hu
    rw [hroot]
    exact (h.bare id t hid ht).imp_left hbare
  · obtain ⟨t, ht, hroot, -⟩ := hget id u hu
    rw [hroot]
    exact h.form id t hid ht
  · rw [size_modify]
    exact h.pair donor derived' hp
  · show v.doc.contains x = true ↔ _
    rw [h.live]
    refine or_congr_right ⟨?_, ?_⟩
    · rintro ⟨id, t, hid, ht, rfl⟩
      obtain ⟨u, hu, hroot⟩ := hkeep id t ht
      exact ⟨id, u, hid, hu, hroot⟩
    · rintro ⟨id, u, hid, hu, rfl⟩
      obtain ⟨t, ht, hroot, -⟩ := hget id u hu
      exact ⟨id, t, hid, ht, hroot.symm⟩
  · obtain ⟨t, ht, hroot, -⟩ := hget derived' u hu
    rw [hroot]
    exact h.moved donor derived' t x hp ht hx
  · obtain ⟨t, ht, hroot, -⟩ := hget id u hu
    rw [hroot]
    exact h.top id t hid ht

/-- The utilities of a donor stand below the root in their order. -/
theorem lined (donor derived : SheetId) (t : Sheet) (hp : (donor, derived) ∈ pairs)
    (ht : v.get? derived = some t) :
    (w.utilities settings donor).Sublist (v.doc.children t.root) := by
  rw [h.top derived t (h.pair donor derived hp).1 ht]
  exact sublist_utilitiesFor hp

theorem original_root {id : SheetId} {s : Sheet} (hs : w.get? id = some s) :
    v.get? id = some s := by
  rw [h.original id (lt_size hs), hs]

section donor

variable (hw : w.Tidy) {donor : SheetId} (hdonor : donor ∉ pairs.map Prod.fst)
include hw hdonor

omit h in
/-- The trees of stylesheets that were not split are as they were. -/
theorem not_isMoved {x : NodeId} (hx : w.sheetOf? x = some donor) :
    w.isMoved settings pairs x = false := by
  by_contra hm
  rw [Bool.not_eq_false, isMoved_iff] at hm
  obtain ⟨other, derived, hp, hu⟩ := hm
  rw [sheetOf?_utility hw hu] at hx
  cases hx
  exact hdonor (List.mem_map.mpr ⟨_, hp, rfl⟩)

theorem parent?_utility {x : NodeId} (hx : x ∈ w.utilities settings donor) :
    v.doc.parent? x = w.doc.parent? x :=
  h.stayed x (live_utility hw hx) (not_isMoved hw hdonor (sheetOf?_utility hw hx))

/-- A donor that is not split yet has its utilities still. -/
theorem utilities_eq {s : Sheet} (hs : w.get? donor = some s) :
    v.utilities settings donor = w.utilities settings donor := by
  unfold utilities
  rw [h.original_root hs, hs]
  refine hw.wellFormed.outermost_congr h.tidy.wellFormed (fun x hx => ?_) (fun x hx => ?_)
  · rw [h.children x (hw.live_within hs hx)]
    refine List.filter_eq_self.mpr fun c hc => ?_
    have hparent := (hw.wellFormed.listed c x).mp hc
    rw [Bool.not_eq_true']
    refine not_isMoved hw hdonor (hw.sheetOf?_eq_some.mpr ⟨contains_of_parent? hparent, s, hs, ?_⟩)
    exact Within.step hparent hx
  · exact h.data x (hw.live_within hs hx)

/-- The utilities of a donor can move below the root of a derived stylesheet. -/
theorem gatherable {derived : SheetId} {t : Sheet} (hle : w.sheets.size ≤ derived)
    (ht : v.get? derived = some t) :
    Gatherable v.doc t.root (w.utilities settings donor) where
  wellFormed := h.tidy.wellFormed
  top_live := h.tidy.live ht
  live x hx := (h.live x).mpr (Or.inl (live_utility hw hx))
  nodup := nodup_utilities hw
  outside x hx hparent := by
    rw [h.parent?_utility hw hdonor hx] at hparent
    have hlive := hw.wellFormed.contains_parent hparent
    rw [(h.bare derived t hle ht).2] at hlive
    cases hlive
  free x hx := by
    refine not_within_top (h.tidy.parent?_root ht) ?_
    rintro rfl
    have hlive := live_utility hw hx
    rw [(h.bare derived t hle ht).2] at hlive
    cases hlive

omit h in
/-- The utilities of the donors so far are not those of one that is not split yet. -/
theorem not_mem_utilities {other derived : SheetId} {x : NodeId} (hp : (other, derived) ∈ pairs)
    (hx : x ∈ w.utilities settings other) : x ∉ w.utilities settings donor := by
  intro hxd
  have hm : w.isMoved settings pairs x = false :=
    not_isMoved hw hdonor (sheetOf?_utility hw hxd)
  rw [isMoved_iff.mpr ⟨other, derived, hp, hx⟩] at hm
  cases hm

/-- The utilities of one more donor move below the root of a derived stylesheet. -/
theorem gather {derived : SheetId} {t : Sheet} {g : Document}
    (hle : w.sheets.size ≤ derived) (ht : v.get? derived = some t)
    (hg : Gathered v.doc g t.root (w.utilities settings donor)
      (w.utilities settings donor ++ v.doc.children t.root)) :
    Divided w settings (pairs ++ [(donor, derived)]) { v with doc := g } := by
  refine ⟨?_, h.size_le, h.original, h.bare, fun id u hid hu => ?_, fun other derived' hp => ?_,
    fun x => ?_, fun x hx => ?_, fun other derived' u x hp hu hx => ?_, fun x hx hm => ?_,
    fun p hp => ?_, fun id u hid hu => ?_⟩
  · refine Document.Tidy.gathered h.tidy hg fun x hx => ?_
    obtain ⟨s, -, p, hp, -⟩ := exists_sheet_of_utility hw hx
    have hparent : v.doc.parent? x = some p := by rw [h.parent?_utility hw hdonor hx, hp]
    exact Document.Tidy.not_root_of_parent? h.tidy hparent
  · show g.get? u.root = _
    rw [hg.data]
    exact h.form id u hid hu
  · rcases List.mem_append.mp hp with hp | hp
    · exact h.pair other derived' hp
    · cases List.mem_singleton.mp hp
      exact ⟨hle, lt_size ht⟩
  · show g.contains x = true ↔ _
    rw [hg.live]
    exact h.live x
  · show g.get? x = _
    rw [hg.data, h.data x hx]
  · show g.parent? x = _
    rw [hg.parent]
    rcases List.mem_append.mp hp with hp | hp
    · rw [if_neg (not_mem_utilities hw hdonor hp hx)]
      exact h.moved other derived' u x hp hu hx
    · cases List.mem_singleton.mp hp
      have hu : v.get? derived = some u := hu
      rw [ht] at hu
      cases hu
      rw [if_pos hx]
  · rw [isMoved_append, Bool.or_eq_false_iff] at hm
    show g.parent? x = _
    rw [hg.parent, if_neg (by simpa using hm.2), h.stayed x hx hm.1]
  · have hne : p ≠ t.root := by
      rintro rfl
      rw [(h.bare derived t hle ht).2] at hp
      cases hp
    show g.children p = _
    rw [hg.children, if_neg hne, h.children p hp, List.filter_filter]
    refine List.filter_congr fun c _ => ?_
    rw [isMoved_append, Bool.not_or, Bool.and_comm]
    simp
  · have hu : v.get? id = some u := hu
    have hroot : u.root = t.root ↔ id = derived := by
      refine ⟨h.tidy.id_unique hu ht, ?_⟩
      rintro rfl
      cases hu.symm.trans ht
      rfl
    show g.children u.root = _
    rw [hg.children, utilitiesFor_append]
    by_cases heq : id = derived
    · rw [if_pos (hroot.mpr heq), if_pos heq, heq, h.top derived t hle ht]
    · rw [if_neg (hroot.not.mpr heq), if_neg heq, h.top id u hid hu]
      -- What moves now is not among what moved before.
      refine List.filter_eq_self.mpr fun c hc => ?_
      obtain ⟨other, hp, hc⟩ := mem_utilitiesFor.mp hc
      simpa using not_mem_utilities hw hdonor hp hc

end donor

end Divided

end Workspace

end Strata
