import Strata.Proofs.Migration.Reach

/-! When the imports left by a migration are without cycles.

Donors may share a derived stylesheet, so the derived stylesheets import one
another as the donors do when some of them are taken as one. `Leads` is that
relation, and a migration leaves a cycle exactly when it has one
(`acyclic_after_migration_iff`): all imports after a split, and all parents, are
among `After`, whose cycles go through derived stylesheets and there along
`Leads`; and whatever leads to a derived stylesheet is found after the cleanup, as
imports, or, when utilities are imports and may go, as parents. -/
namespace Strata.Workspace

open Forest Document Relation

variable {w v u z : Workspace} {settings : Settings} {d : Derivations}
  {pairs : List (SheetId × SheetId)}

/-- `rule` is an import of `y` in the tree of `x`. -/
def ImportsBy (w : Workspace) (rule : NodeId) (x y : SheetId) : Prop :=
  ∃ s, w.get? y = some s ∧ rule ∈ s.inbound ∧ w.sheetOf? rule = some x

theorem ImportsBy.imports {rule : NodeId} {x y : SheetId} (h : w.ImportsBy rule x y) :
    w.Imports x y := by
  obtain ⟨s, hs, hr, hx⟩ := h
  exact ⟨s, rule, hs, hr, hx⟩

theorem imports_iff_exists_rule {x y : SheetId} : w.Imports x y ↔ ∃ rule, w.ImportsBy rule x y := by
  refine ⟨?_, fun ⟨rule, h⟩ => h.imports⟩
  intro hex
  obtain ⟨s, rule, hs, hr, hx⟩ := hex
  exact ⟨rule, s, hs, hr, hx⟩

/-- Utilities of one derived stylesheet lead to those of another: an import of a donor stands beside
utilities, or it stands within one that moves, and then all that it leads to counts. -/
inductive Leads (w : Workspace) (settings : Settings) (pairs : List (SheetId × SheetId)) :
    SheetId → SheetId → Prop where
  | beside {rule x y a b} : w.ImportsBy rule x y → w.Unmoved settings pairs rule →
      (x, a) ∈ pairs → (y, b) ∈ pairs → a ≠ b → Leads w settings pairs a b
  | inside {rule x y donor a b} : w.ImportsBy rule x y → w.Carried settings pairs rule a →
      w.Reaches y donor → (donor, b) ∈ pairs → Leads w settings pairs a b

/-! ### Cycles go along derived stylesheets -/

/-- What may import what after a split. -/
inductive After (w : Workspace) (settings : Settings) (pairs : List (SheetId × SheetId)) :
    SheetId → SheetId → Prop where
  | whole {x y} : w.Imports x y → After w settings pairs x y
  | carried {rule x y a} : w.ImportsBy rule x y → w.Carried settings pairs rule a →
      After w settings pairs a y
  | companion {x y b} : w.Imports x y → (y, b) ∈ pairs → After w settings pairs x b
  | leads {a b} : w.Leads settings pairs a b → After w settings pairs a b

/-- The donors are stylesheets that were there, and the derived ones are not. -/
def Apart (w : Workspace) (pairs : List (SheetId × SheetId)) : Prop :=
  ∀ donor derived, (donor, derived) ∈ pairs →
    donor < w.sheets.size ∧ w.sheets.size ≤ derived

/-- Utilities of `a` lead to an import, in a utility that moved, from which `b` can be reached. -/
def Pending (w : Workspace) (settings : Settings) (pairs : List (SheetId × SheetId))
    (a b : SheetId) : Prop :=
  ∃ a' rule x y, ReflTransGen (w.Leads settings pairs) a a' ∧ w.ImportsBy rule x y ∧
    w.Carried settings pairs rule a' ∧ w.Reaches y b

section cycles

variable (hw : w.Analysed) (hp : w.Apart pairs)
include hw hp

theorem size_le_of_carried {rule : NodeId} {a : SheetId} (hc : w.Carried settings pairs rule a) :
    w.sheets.size ≤ a := by
  obtain ⟨donor, hd, -⟩ := hc.donor hw.tidy
  exact (hp donor a hd).2

theorem size_le_of_leads {a b : SheetId} (hl : w.Leads settings pairs a b) :
    w.sheets.size ≤ a ∧ w.sheets.size ≤ b := by
  cases hl with
  | beside _ _ ha hb _ => exact ⟨(hp _ _ ha).2, (hp _ _ hb).2⟩
  | inside _ hc _ hb => exact ⟨size_le_of_carried hw hp hc, (hp _ _ hb).2⟩

omit hp in
theorem lt_size_of_importsBy {rule : NodeId} {x y : SheetId} (hi : w.ImportsBy rule x y) :
    x < w.sheets.size ∧ y < w.sheets.size := by
  obtain ⟨s, hs, -⟩ := id hi
  exact ⟨lt_size_of_imports hi.imports hw.tidy, lt_size hs⟩

omit hp in
/-- One step from a derived stylesheet. -/
theorem after_derived {a b : SheetId} (ha : w.sheets.size ≤ a) (h : w.After settings pairs a b) :
    w.Leads settings pairs a b ∨
      b < w.sheets.size ∧ ∃ rule x, w.ImportsBy rule x b ∧ w.Carried settings pairs rule a := by
  cases h with
  | whole hi => exact absurd (lt_size_of_imports hi hw.tidy) (Nat.not_lt.mpr ha)
  | carried hi hc => exact Or.inr ⟨(lt_size_of_importsBy hw hi).2, _, _, hi, hc⟩
  | companion hi _ => exact absurd (lt_size_of_imports hi hw.tidy) (Nat.not_lt.mpr ha)
  | leads hl => exact Or.inl hl

/-- One step from a stylesheet that was there. -/
theorem after_original {a b : SheetId} (ha : a < w.sheets.size) (h : w.After settings pairs a b) :
    w.Imports a b ∨ ∃ y, w.Imports a y ∧ (y, b) ∈ pairs := by
  cases h with
  | whole hi => exact Or.inl hi
  | carried hi hc => exact absurd ha (Nat.not_lt.mpr (size_le_of_carried hw hp hc))
  | companion hi hb => exact Or.inr ⟨_, hi, hb⟩
  | leads hl => exact absurd ha (Nat.not_lt.mpr (size_le_of_leads hw hp hl).1)

/-- A way from a derived stylesheet, however it goes, is seen along `Leads`. -/
theorem transGen_after_derived {a b : SheetId} (ha : w.sheets.size ≤ a)
    (h : TransGen (w.After settings pairs) a b) :
    w.sheets.size ≤ b ∧ TransGen (w.Leads settings pairs) a b ∨
      b < w.sheets.size ∧ w.Pending settings pairs a b := by
  induction h with
  | single h =>
    rcases after_derived hw ha h with hl | ⟨hb, rule, x, hi, hc⟩
    · exact Or.inl ⟨(size_le_of_leads hw hp hl).2, .single hl⟩
    · exact Or.inr ⟨hb, a, rule, x, _, .refl, hi, hc, .refl⟩
  | @tail c b _ h ih =>
    rcases ih with ⟨hc, hac⟩ | ⟨hc, a', rule, x, y, haa, hi, hcarried, hyc⟩
    · rcases after_derived hw hc h with hl | ⟨hb, rule, x, hi, hcarried⟩
      · exact Or.inl ⟨(size_le_of_leads hw hp hl).2, hac.tail hl⟩
      · exact Or.inr ⟨hb, c, rule, x, _, hac.to_reflTransGen, hi, hcarried, .refl⟩
    · rcases after_original hw hp hc h with hcb | ⟨y', hcy, hb⟩
      · obtain ⟨s, _, hs, -⟩ := id hcb
        exact Or.inr ⟨lt_size hs, a', rule, x, y, haa, hi, hcarried, hyc.tail hcb⟩
      · exact Or.inl ⟨(hp y' b hb).2, .tail' haa (.inside hi hcarried (hyc.tail hcy) hb)⟩

/-- A way from a stylesheet that was there goes through such only, or meets a derived one. -/
theorem transGen_after_original {a b : SheetId} (ha : a < w.sheets.size)
    (h : TransGen (w.After settings pairs) a b) :
    b < w.sheets.size ∧ TransGen w.Imports a b ∨
      ∃ c, w.sheets.size ≤ c ∧ TransGen (w.After settings pairs) a c ∧
        ReflTransGen (w.After settings pairs) c b := by
  induction h with
  | @single b h =>
    rcases after_original hw hp ha h with hab | ⟨y, -, hb⟩
    · obtain ⟨s, _, hs, -⟩ := id hab
      exact Or.inl ⟨lt_size hs, .single hab⟩
    · exact Or.inr ⟨b, (hp y b hb).2, .single h, .refl⟩
  | @tail c b hac h ih =>
    rcases ih with ⟨hc, hi⟩ | ⟨e, he, hae, hec⟩
    · rcases after_original hw hp hc h with hcb | ⟨y, -, hb⟩
      · obtain ⟨s, _, hs, -⟩ := id hcb
        exact Or.inl ⟨lt_size hs, hi.tail hcb⟩
      · exact Or.inr ⟨b, (hp y b hb).2, hac.tail h, .refl⟩
    · exact Or.inr ⟨e, he, hae, hec.tail h⟩

/-- **Where utilities do not lead back to themselves there is no cycle.** -/
theorem acyclic_after (hl : ∀ id, ¬ TransGen (w.Leads settings pairs) id id) (id : SheetId) :
    ¬ TransGen (w.After settings pairs) id id := by
  have hderived : ∀ c, w.sheets.size ≤ c → ¬ TransGen (w.After settings pairs) c c := by
    intro c hc hcycle
    rcases transGen_after_derived hw hp hc hcycle with ⟨-, hcc⟩ | ⟨hlt, -⟩
    · exact hl c hcc
    · exact absurd hlt (Nat.not_lt.mpr hc)
  intro hcycle
  by_cases hid : w.sheets.size ≤ id
  · exact hderived id hid hcycle
  · rcases transGen_after_original hw hp (Nat.lt_of_not_le hid) hcycle with ⟨-, hi⟩ | ⟨c, hc, hac, hca⟩
    · exact hw.acyclic id hi
    · exact hderived c hc (TransGen.trans_right hca hac)

end cycles

/-! ### Donors that share nothing -/

/-- What leads from one derived stylesheet to another goes from a donor of the one to a donor of the
other. -/
theorem donors_of_leads (hw : w.Analysed) {a b : SheetId} (hl : w.Leads settings pairs a b) :
    ∃ x y, (x, a) ∈ pairs ∧ (y, b) ∈ pairs ∧ TransGen w.Imports x y := by
  cases hl with
  | beside hi _ ha hb _ => exact ⟨_, _, ha, hb, .single hi.imports⟩
  | inside hi hc hreach hb =>
    obtain ⟨x, ha, hx⟩ := hc.donor hw.tidy
    obtain ⟨s, hs, hr, hx'⟩ := id hi
    rw [hx] at hx'
    cases hx'
    exact ⟨_, _, ha, hb, .head' hi.imports hreach⟩

/-- **Where no two donors share a derived stylesheet, no utilities lead back.** -/
theorem not_leads_back_of_unshared (hw : w.Analysed)
    (hunshared : ∀ x x' a, (x, a) ∈ pairs → (x', a) ∈ pairs → x = x') (id : SheetId) :
    ¬ TransGen (w.Leads settings pairs) id id := by
  have hdonors : ∀ {a b}, TransGen (w.Leads settings pairs) a b →
      ∃ x y, (x, a) ∈ pairs ∧ (y, b) ∈ pairs ∧ TransGen w.Imports x y := by
    intro a b h
    induction h with
    | single hl => exact donors_of_leads hw hl
    | tail _ hl ih =>
      obtain ⟨x, y, ha, hb, hxy⟩ := ih
      obtain ⟨x', y', hb', hc, hxy'⟩ := donors_of_leads hw hl
      rw [hunshared y x' _ hb hb'] at hxy
      exact ⟨x, y', ha, hc, hxy.trans hxy'⟩
  intro hloop
  obtain ⟨x, y, ha, hb, hxy⟩ := hdonors hloop
  rw [hunshared y x id hb ha] at hxy
  exact hw.acyclic x hxy

/-! ### Imports and parents after a split -/

namespace Parted

variable (h : Parted w settings d v u) (hw : w.Analysed)
include h hw

omit hw in
theorem apart : w.Apart d.pairs := fun donor derived hp =>
  ⟨h.lt_size hp, (h.divided.pair donor derived hp).1⟩

/-- Where the companion of an import is, there `After` leads on. -/
theorem after_of_companion {donor derived home : SheetId} {s : Sheet} {rule : NodeId}
    (hp : (donor, derived) ∈ d.pairs) (hs : w.get? donor = some s) (hr : rule ∈ s.inbound)
    (hhome : v.companionHome d derived rule = some home) :
    w.After settings d.pairs home derived := by
  have hlive : w.doc.contains rule = true := by
    obtain ⟨n, -, -, hn, -⟩ := (hw.rule donor s rule hs hr).1.readable
    exact contains_iff_get?.mpr ⟨n, hn⟩
  obtain ⟨x, -, hx, -⟩ := hw.tidy.exists_sheetOf? hlive
  have hi : w.ImportsBy rule x donor := ⟨s, hs, hr, hx⟩
  rcases h.companionHome_cases hw hx hhome with hc | ⟨hu, ⟨hpx, hne⟩ | ⟨rfl, -⟩⟩
  · exact .leads (.inside hi hc .refl hp)
  · exact .leads (.beside hi hu hpx hp hne)
  · exact .companion hi.imports hp

theorem after_of_imports {x y : SheetId} (hi : u.Imports x y) : w.After settings d.pairs x y := by
  obtain ⟨t, rule, ht, hr, hx⟩ := hi
  by_cases hy : y < w.sheets.size
  · rw [h.original hy] at ht
    obtain ⟨n, -, -, hn, -⟩ := (hw.rule y t rule ht hr).1.readable
    have hlive : w.doc.contains rule = true := contains_iff_get?.mpr ⟨n, hn⟩
    obtain ⟨x', -, hx', -⟩ := hw.tidy.exists_sheetOf? hlive
    have hi : w.ImportsBy rule x' y := ⟨t, ht, hr, hx'⟩
    rcases unmoved_or_carried w settings d.pairs rule with hu | ⟨a, hc⟩
    · rw [h.sheetOf?_unmoved hw hlive hu, hx'] at hx
      cases hx
      exact .whole hi.imports
    · rw [h.sheetOf?_carried hw hlive hc] at hx
      cases hx
      exact .carried hi hc
  · obtain ⟨-, donor, s, rule', home, hp, hs, hr', hhome, ho⟩ :=
      h.companion_cases (Nat.le_of_not_lt hy) ht hr
    rw [hx] at ho
    cases ho
    exact h.after_of_companion hw hp hs hr' hhome

theorem after_of_parentOf {x y : SheetId} (hi : u.ParentOf y x) : w.After settings d.pairs x y := by
  obtain ⟨t, ht, hm⟩ := hi
  by_cases hy : y < w.sheets.size
  · rw [h.original hy] at ht
    exact .whole ((hw.parents y x).mp ⟨t, ht, hm⟩)
  · obtain ⟨donor, s, rule, hp, hs, hr, hhome⟩ := h.parent_cases (Nat.le_of_not_lt hy) ht hm
    exact h.after_of_companion hw hp hs hr hhome

theorem closed : u.Closed := by
  intro y x hi
  have hderived : ∀ {donor derived}, (donor, derived) ∈ d.pairs → derived < u.sheets.size :=
    fun hp => h.size ▸ (h.divided.pair _ _ hp).2
  cases h.after_of_parentOf hw hi with
  | whole hi => exact Nat.lt_of_lt_of_le (lt_size_of_imports hi hw.tidy) h.size_le
  | carried _ hc =>
    obtain ⟨donor, hp, -⟩ := hc.donor hw.tidy
    exact hderived hp
  | companion hi _ => exact Nat.lt_of_lt_of_le (lt_size_of_imports hi hw.tidy) h.size_le
  | leads hl =>
    cases hl with
    | beside _ _ ha _ _ => exact hderived ha
    | inside _ hc _ _ =>
      obtain ⟨donor, hp, -⟩ := hc.donor hw.tidy
      exact hderived hp

end Parted

/-! ### What leads to a derived stylesheet is found -/

theorem Carried.not_unmoved {rule : NodeId} {a : SheetId}
    (hc : w.Carried settings pairs rule a) : ¬ w.Unmoved settings pairs rule := by
  obtain ⟨donor, top, hp, htop, hwithin⟩ := hc
  intro hu
  have hm := hu top hwithin
  rw [isMoved_iff.mpr ⟨donor, a, hp, htop⟩] at hm
  cases hm

namespace Migrated

variable (h : Migrated w settings d v u z)
include h

/-- A rule is carried to one stylesheet only. -/
theorem carried_unique {rule : NodeId} {x a b : SheetId} (hi : w.sheetOf? rule = some x)
    (ha : w.Carried settings d.pairs rule a) (hb : (x, b) ∈ d.pairs) : a = b := by
  obtain ⟨donor, hp, hx⟩ := ha.donor h.analysed.tidy
  rw [hi] at hx
  cases hx
  exact h.parted.derived_unique hp hb

/-- The derived stylesheet of a donor keeps that of an importer as its parent, when the import moved
or stands beside utilities that went elsewhere. -/
theorem companion_of_leads {rule : NodeId} {x y a b : SheetId} (hi : w.ImportsBy rule x y)
    (ha : w.Carried settings d.pairs rule a ∨
      w.Unmoved settings d.pairs rule ∧ (x, a) ∈ d.pairs ∧ a ≠ b)
    (hb : (y, b) ∈ d.pairs) :
    ∃ t c, u.get? b = some t ∧ c ∈ t.inbound ∧ u.sheetOf? c = some a ∧ a ∈ t.parents := by
  obtain ⟨s, hs, hr, hx⟩ := hi
  obtain ⟨t, c, home, ht, hc, hhome, ho, hm⟩ := h.parted.exists_companion hb hs hr
  have heq : home = a := by
    rcases h.parted.companionHome_cases h.analysed hx hhome with hc | ⟨hu, hcase⟩
    · rcases ha with ha | ⟨hu, -⟩
      · obtain ⟨donor, hp, hdonor⟩ := ha.donor h.analysed.tidy
        rw [hx] at hdonor
        cases hdonor
        exact h.carried_unique hx hc hp
      · exact absurd hu hc.not_unmoved
    · rcases ha with ha | ⟨-, hpa, hne⟩
      · exact absurd hu ha.not_unmoved
      · rcases hcase with ⟨hpx, -⟩ | ⟨-, hall⟩
        · exact h.parted.derived_unique hpx hpa
        · exact absurd (hall a hpa) hne
  subst heq
  exact ⟨t, c, ht, hc, ho, hm⟩

section utilities

variable (hat : Text.sameCaseless settings.atRule "import" = false)
include hat

theorem imports_of_companion {rule : NodeId} {x y a b : SheetId} (hi : w.ImportsBy rule x y)
    (ha : w.Carried settings d.pairs rule a ∨
      w.Unmoved settings d.pairs rule ∧ (x, a) ∈ d.pairs ∧ a ≠ b)
    (hb : (y, b) ∈ d.pairs) : z.Imports a b := by
  obtain ⟨t, c, ht, hc, ho, -⟩ := h.companion_of_leads hi ha hb
  exact h.cleaned.imports_of_imports h.tidy_split ht hc ho (h.live_companion hat hb ht hc)
    fun _ => h.derived_kept hat hb

/-- Imports go along whatever leads from one derived stylesheet to another. -/
theorem transGen_imports_of_leads {a b : SheetId} (hl : w.Leads settings d.pairs a b) :
    TransGen z.Imports a b := by
  cases hl with
  | beside hi hu ha hb hne => exact .single (h.imports_of_companion hat hi (Or.inr ⟨hu, ha, hne⟩) hb)
  | @inside rule x y donor _ _ hi hc hreach hb =>
    have hstart : Served z d (TransGen z.Imports a) y := by
      refine ⟨fun hkept => ?_, fun id hid => .single (h.imports_of_companion hat hi (Or.inl hc) hid)⟩
      obtain ⟨s, hs, hr, hx⟩ := hi
      obtain ⟨hlive, -⟩ := h.analysed.tidy.sheetOf?_eq_some.mp hx
      have hsu : u.get? y = some s := by rw [h.parted.original (lt_size hs), hs]
      exact .single (h.cleaned.imports_of_imports h.tidy_split hsu hr
        (h.parted.sheetOf?_carried h.analysed hlive hc) (h.live_rule hs hr hkept) hkept)
    exact (h.served_of_reaches hat (fun _ _ ha hi => ha.tail hi) hstart hreach).derived b hb

end utilities

/-! ### Imports as utilities

When imports are the utilities, every import of a donor moves, and what a donor imports is a donor
too, if it has imports. -/

section imports

variable (hat : Text.sameCaseless settings.atRule "import" = true)
include hat

theorem mem_utilities_of_importsBy {rule : NodeId} {x y : SheetId} (hi : w.ImportsBy rule x y) :
    rule ∈ w.utilities settings x := by
  obtain ⟨s, hs, hr, hx⟩ := hi
  exact h.analysed.mem_utilities_of_import hat hs hr hx

omit hat in
theorem splits_of_importer {x y : SheetId} (hx : w.Splits settings x) (hi : w.Imports x y)
    (hu : w.utilities settings y ≠ []) : w.Splits settings y := by
  have hcan : w.CanSplit settings y := by
    refine ⟨?_, hu⟩
    obtain ⟨t, rule, ht, hr, -⟩ := id hi
    obtain ⟨s, hs, heligible⟩ := (Option.any_eq_true _ _).mp hx.canSplit.eligible
    simp only [Bool.and_eq_true] at heligible
    have hplain := h.analysed.plain y t ht
    unfold isEligible
    rw [ht, Option.any_some, (h.analysed.rule y t rule ht hr).2, hplain.1, hplain.2]
    obtain ⟨l, hl, hm⟩ := List.any_eq_true.mp heligible.2
    have hmem := h.analysed.layered x y s t hs ht hi l (List.contains_iff_mem.mp hm)
    simpa [Sheet.meetsLayers] using ⟨l, hl, hmem⟩
  by_cases hself : w.IsSelfContained settings y
  · exact .handed hcan hi hx
  · exact .mixed hcan hself

/-- From donor to donor, the derived stylesheets are parents. -/
theorem parents_of_reaches {y donor : SheetId} (hreach : w.Reaches y donor) {rule : NodeId}
    {x a b : SheetId} (hi : w.ImportsBy rule x y) (ha : (x, a) ∈ d.pairs)
    (hb : (donor, b) ∈ d.pairs) : TransGen (Function.swap z.ParentOf) a b := by
  have hparent : ∀ {rule x y a b}, w.ImportsBy rule x y → (x, a) ∈ d.pairs → (y, b) ∈ d.pairs →
      z.ParentOf b a := by
    intro rule x y a b hi ha hb
    have hc : w.Carried settings d.pairs rule a :=
      ⟨x, rule, ha, h.mem_utilities_of_importsBy hat hi, Within.refl _⟩
    obtain ⟨t, -, ht, -, -, hm⟩ := h.companion_of_leads hi (Or.inl hc) hb
    exact h.cleaned.parentOf_iff.mpr ⟨t, ht, hm⟩
  induction hreach using ReflTransGen.head_induction_on generalizing rule x a with
  | refl => exact .single (hparent hi ha hb)
  | @head y c hyc _ ih =>
    obtain ⟨rule', hi'⟩ := imports_iff_exists_rule.mp hyc
    have hu := List.ne_nil_of_mem (h.mem_utilities_of_importsBy hat hi')
    have hy := h.splits_of_importer (h.parted.splits h.analysed ha) hi.imports hu
    obtain ⟨a', ha'⟩ := h.parted.exists_derived h.analysed hy
    exact .head (hparent hi ha ha') (ih hi' ha')

theorem parents_of_leads {a b : SheetId} (hl : w.Leads settings d.pairs a b) :
    TransGen (Function.swap z.ParentOf) a b := by
  cases hl with
  | beside hi hu ha _ _ =>
    have hc : w.Carried settings d.pairs _ a :=
      ⟨_, _, ha, h.mem_utilities_of_importsBy hat hi, Within.refl _⟩
    exact absurd hu hc.not_unmoved
  | @inside rule x y donor _ _ hi hc hreach hb =>
    obtain ⟨x', hp, hx'⟩ := hc.donor h.analysed.tidy
    obtain ⟨s, hs, hr, hx⟩ := id hi
    rw [hx] at hx'
    cases hx'
    exact h.parents_of_reaches hat hreach hi hp hb

end imports

/-! ### The exact condition -/

theorem closed : z.Closed := by
  intro y x hi
  rw [h.cleaned.size]
  exact h.parted.closed h.analysed y x (h.cleaned.parentOf_iff.mp hi)

theorem acyclic_iff :
    ((∀ id < z.sheets.size, ∃ found, z.ancestors id = .ok found) ∧
        ∀ id, ¬ TransGen z.Imports id id) ↔
      ∀ id, ¬ TransGen (w.Leads settings d.pairs) id id := by
  rw [ancestors_ok_iff h.closed]
  constructor
  · rintro ⟨habove, hacyclic⟩ id hloop
    cases hat : Text.sameCaseless settings.atRule "import" with
    | false =>
      exact hacyclic id (TransGen.lift' (fun a => a)
        (fun _ _ => h.transGen_imports_of_leads hat) _ _ hloop)
    | true =>
      have hparents : TransGen (Function.swap z.ParentOf) id id :=
        TransGen.lift' (fun a => a) (fun _ _ => h.parents_of_leads hat) _ _ hloop
      exact habove id (transGen_swap.mp hparents)
  · intro hl
    have hafter := acyclic_after h.analysed h.parted.apart hl
    refine ⟨fun id habove => hafter id ?_, fun id hcycle => hafter id ?_⟩
    · have hparents : TransGen (Function.swap z.ParentOf) id id := transGen_swap.mpr habove
      exact TransGen.mono (fun x y hi =>
        h.parted.after_of_parentOf h.analysed (h.cleaned.parentOf_iff.mp hi)) _ _ hparents
    · exact TransGen.mono (fun x y hi =>
        h.parted.after_of_imports h.analysed (h.cleaned.imports h.tidy_split hi)) _ _ hcycle

end Migrated

/-- **A migration leaves no cycle of imports exactly when no utilities lead back to their derived
stylesheet.** -/
theorem acyclic_after_migration_iff (sources : List (Option FilePath × String))
    (resolve : Resolution) (base : FilePath) (settings : Settings) {table : List (List SheetId)}
    (hl : ((filled sources).connect resolve base).1.inheritLayers = .ok (table, w)) :
    ∃ u d, w.split settings = .ok (u, d) ∧
      (((∀ id < (u.cleanUp d).1.sheets.size, ∃ found, (u.cleanUp d).1.ancestors id = .ok found) ∧
          ∀ id, ¬ TransGen (u.cleanUp d).1.Imports id id) ↔
        ∀ id, ¬ TransGen (w.Leads settings d.pairs) id id) := by
  obtain ⟨v, u, d, hsplit, h⟩ := exists_migrated (analysed (fresh_filled sources) hl) settings
  exact ⟨u, d, hsplit, h.acyclic_iff⟩

theorem acyclic_with_one_donor : ∃ table w u d,
    ((filled (entryAnd "@utility foo { color: red }")).connect entryFiles ⟨"/p"⟩).1.inheritLayers =
      .ok (table, w) ∧
    w.split {} = .ok (u, d) ∧ d.pairs = [(1, 2)] ∧
    (∀ id < (u.cleanUp d).1.sheets.size, ∃ found, (u.cleanUp d).1.ancestors id = .ok found) ∧
    ∀ id, ¬ TransGen (u.cleanUp d).1.Imports id id := by
  have hrun : splitsWith (entryAnd "@utility foo { color: red }") entryFiles ⟨"/p"⟩ {}
      (fun _ _ d => d.pairs == [(1, 2)]) = true := by decide +kernel
  obtain ⟨table, w, u, d, hl, hsplit, hcheck⟩ := exists_of_splitsWith hrun
  have hpairs : d.pairs = [(1, 2)] := beq_iff_eq.mp hcheck
  obtain ⟨u', d', hsplit', hiff⟩ := acyclic_after_migration_iff _ entryFiles ⟨"/p"⟩ {} hl
  rw [hsplit] at hsplit'
  cases hsplit'
  refine ⟨table, w, u, d, hl, hsplit, hpairs, hiff.mpr ?_⟩
  refine not_leads_back_of_unshared (analysed (fresh_filled _) hl) fun x x' a hx hx' => ?_
  rw [hpairs, List.mem_singleton] at hx hx'
  cases hx
  cases hx'
  rfl

/-- Two donors on both ends of a chain, whose names lead to one path. -/
def sharedEnds : List (Option FilePath × String) :=
  [(some ⟨"/p/root.css"⟩, "@import './lib' layer(utilities);"),
    (some ⟨"/p/lib/index.css"⟩, "@import '../y.css';\n@utility x { a: b }"),
    (some ⟨"/p/y.css"⟩, "@import './lib/lib.css';\n@utility y { a: b }"),
    (some ⟨"/p/lib/lib.css"⟩, "@utility z { a: b }")]

/-- The two share a derived stylesheet, and the one between leads from it to it. -/
theorem not_always_acyclic : ¬ ∀ (sources : List (Option FilePath × String))
    (resolve : Resolution) (base : FilePath) (settings : Settings) (table : List (List SheetId))
    (w u : Workspace) (d : Derivations),
    ((filled sources).connect resolve base).1.inheritLayers = .ok (table, w) →
    w.split settings = .ok (u, d) →
    (∀ id < (u.cleanUp d).1.sheets.size, ∃ found, (u.cleanUp d).1.ancestors id = .ok found) ∧
      ∀ id, ¬ TransGen (u.cleanUp d).1.Imports id id := by
  intro hall
  have hrun : splitsWith sharedEnds (.known (sharedEnds.filterMap Prod.fst)) ⟨"/p"⟩ {}
      (fun _ u d => decide (4 < (u.cleanUp d).1.sheets.size) &&
        !((u.cleanUp d).1.ancestors 4).isOk) = true := by decide +kernel
  obtain ⟨table, w, u, d, hl, hsplit, hcheck⟩ := exists_of_splitsWith hrun
  rw [Bool.and_eq_true, decide_eq_true_eq, Bool.not_eq_true'] at hcheck
  obtain ⟨hlt, hcycle⟩ := hcheck
  obtain ⟨found, hfound⟩ := (hall _ _ ⟨"/p"⟩ {} table w u d hl hsplit).1 4 hlt
  rw [hfound] at hcycle
  cases hcycle

end Strata.Workspace
