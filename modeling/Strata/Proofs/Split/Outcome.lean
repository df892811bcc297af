import Strata.Proofs.Split.Donors
import Strata.Proofs.Split.Homes
import Strata.Resolution.Basic

/-! What a split leads to.

A split of a workspace with recorded imports succeeds, and the result is `Parted`:
the utilities of the donors have moved, and after that every import of a donor has
got its companion. The lemmas here say so without the workspace in between: what
the stylesheets there were have become, where their nodes belong, and where the
companion of an import is. -/
namespace Strata

theorem Derivations.of?_eq_some {d : Derivations} (hnodup : (d.pairs.map Prod.fst).Nodup)
    {donor derived : SheetId} : d.of? donor = some derived ↔ (donor, derived) ∈ d.pairs := by
  unfold of?
  rw [List.lookup_eq_some_iff]
  constructor
  · intro hex
    obtain ⟨before, after, heq, -⟩ := hex
    rw [heq]
    simp
  · intro hm
    obtain ⟨before, after, heq⟩ := List.append_of_mem hm
    refine ⟨before, after, heq, fun pair hp => bne_iff_ne.mpr ?_⟩
    rw [heq, List.map_append, List.map_cons] at hnodup
    exact fun hsame => (List.nodup_append.mp hnodup).2.2 pair.1 (List.mem_map_of_mem hp) donor
      (List.mem_cons_self ..) hsame.symm

namespace Workspace

open Forest

variable {w v u : Workspace} {settings : Settings} {d : Derivations}

/-- `w` is split: first its utilities move, which leads to `v`, then companions are added. -/
structure Parted (w : Workspace) (settings : Settings) (d : Derivations) (v u : Workspace) :
    Prop where
  divided : Divided w settings d.pairs v
  donors : d.pairs.map Prod.fst = w.donors settings
  beside : Beside w settings d.pairs v
  run : u = (v.errands d.pairs).foldl (v.serve d) v
  accompanied : Accompanied v d (v.Edges d.pairs) u
  worded : Worded v d u

/-! ### Donors and their derived stylesheets -/

section divided

variable (hw : w.Recorded) (h : Divided w settings d.pairs v)
  (hdonors : d.pairs.map Prod.fst = w.donors settings)
include hw h hdonors

omit hw h in
theorem mem_donors_of_pair {donor derived : SheetId} (hp : (donor, derived) ∈ d.pairs) :
    donor ∈ w.donors settings := hdonors ▸ List.mem_map.mpr ⟨_, hp, rfl⟩

omit hw h in
theorem donor_lt {donor derived : SheetId} (hp : (donor, derived) ∈ d.pairs) :
    donor < w.sheets.size := by
  obtain ⟨s, hs⟩ := (canSplit_of_mem_donors (mem_donors_of_pair hdonors hp)).get?
  exact lt_size hs

omit hw h in
theorem of?_eq_some {donor derived : SheetId} :
    d.of? donor = some derived ↔ (donor, derived) ∈ d.pairs := by
  refine Derivations.of?_eq_some ?_
  rw [hdonors]
  exact donors_nodup _ _

theorem hosting : Hosting v d where
  tidy := h.tidy
  origin := h.origin hw.origin
  host donor derived hof := (h.pair donor derived ((of?_eq_some hdonors).mp hof)).2

theorem paired : Paired v d.pairs where
  donor donor derived hp := by
    obtain ⟨s, hs⟩ := get?_isSome.mpr (donor_lt hdonors hp)
    exact ⟨s, h.original_root hs⟩
  derived donor derived hp := by
    obtain ⟨hle, hlt⟩ := h.pair donor derived hp
    obtain ⟨t, ht⟩ := get?_isSome.mpr hlt
    exact ⟨t, ht, (h.bare derived t hle ht).1.file⟩
  rules donor derived s hp hs rule hr := by
    rw [h.original donor (donor_lt hdonors hp)] at hs
    exact h.importAt hw.tidy (hw.rule donor s rule hs hr)
  apart donor derived other hp hp' :=
    absurd (donor_lt hdonors hp) (Nat.not_lt.mpr (h.pair other donor hp').1)

omit hdonors in
/-- Before companions are added no import is new. -/
theorem worded_refl : Worded v d v where
  node x hx hn := by
    rw [hx] at hn
    cases hn
  inbound id t c ht hc hn := by
    by_cases hid : id < w.sheets.size
    · rw [h.original id hid] at ht
      obtain ⟨n, -, -, hdata, -⟩ := (hw.rule id t c ht hc).readable
      rw [(h.live c).mpr (Or.inl (contains_iff_get?.mpr ⟨n, hdata⟩))] at hn
      cases hn
    · rw [(h.bare id t (Nat.le_of_not_lt hid) ht).1.inbound] at hc
      cases hc

end divided

/-- **A workspace with recorded imports can be split.** -/
theorem exists_parted (hw : w.Recorded) (settings : Settings) :
    ∃ v u d, w.split settings = .ok (u, d) ∧ Parted w settings d v u := by
  obtain ⟨state, hstate, hdivided, hbeside, hdonors⟩ := exists_divided_beside hw settings
  have hstart : Accompanied state.workspace state.derivations (state.workspace.Edges [])
      state.workspace := by
    refine (accompanied_refl hdivided.tidy).congr fun id rule => ?_
    simp [Edges]
  have hpaired : Paired state.workspace ([] ++ state.derivations.pairs) :=
    paired hw hdivided hdonors
  obtain ⟨hu, haccompanied, hworded⟩ := Accompanied.foldlM (hosting hw hdivided hdonors) hpaired
    rfl hstart (worded_refl hw hdivided)
  refine ⟨state.workspace, _, state.derivations, ?_, hdivided, hdonors, hbeside, rfl, haccompanied,
    hworded⟩
  unfold split
  simp only [hstate, hu, bind, Except.bind]
  rfl

/-- So can one that is ready for a split. -/
theorem exists_split (hw : w.Analysed) (settings : Settings) :
    ∃ v u d, w.split settings = .ok (u, d) ∧ Parted w settings d v u :=
  exists_parted hw.recorded settings

namespace Parted

variable (h : Parted w settings d v u)
include h

theorem size : u.sheets.size = v.sheets.size := h.accompanied.size

theorem size_le : w.sheets.size ≤ u.sheets.size := h.size ▸ h.divided.size_le

/-- The stylesheets that a split made. -/
theorem made {id : SheetId} {t : Sheet} (hid : w.sheets.size ≤ id) (ht : u.get? id = some t) :
    t.derived = true ∧ t.discarded = false := by
  obtain ⟨s, hs, hst⟩ := h.accompanied.sheet id t ht
  have hbare := (h.divided.bare id s hid hs).1
  exact ⟨hst.derived.trans hbare.derived, hst.discarded.trans hbare.discarded⟩

theorem splits (hw : w.Analysed) {donor derived : SheetId} (hp : (donor, derived) ∈ d.pairs) :
    w.Splits settings donor := (mem_donors hw donor).mp (mem_donors_of_pair h.donors hp)

theorem exists_derived (hw : w.Analysed) {donor : SheetId} (hs : w.Splits settings donor) :
    ∃ derived, (donor, derived) ∈ d.pairs := by
  rw [← mem_donors hw, ← h.donors] at hs
  obtain ⟨⟨other, derived⟩, hp, rfl⟩ := List.mem_map.mp hs
  exact ⟨derived, hp⟩

theorem lt_size {donor derived : SheetId} (hp : (donor, derived) ∈ d.pairs) :
    donor < w.sheets.size := donor_lt h.donors hp

theorem derived_unique {donor derived other : SheetId} (hp : (donor, derived) ∈ d.pairs)
    (hp' : (donor, other) ∈ d.pairs) : derived = other := by
  have hof := (of?_eq_some h.donors).mpr hp
  rw [(of?_eq_some h.donors).mpr hp'] at hof
  exact (Option.some.inj hof).symm

/-- The stylesheets there were are as they were. -/
theorem original {id : SheetId} (hid : id < w.sheets.size) : u.get? id = w.get? id := by
  rw [h.accompanied.kept id, h.divided.original id hid]
  rintro rule ⟨donor, s, hp, -⟩
  exact absurd hid (Nat.not_lt.mpr (h.divided.pair donor id hp).1)

/-! ### Nodes -/

variable (hw : w.Recorded)
include hw

section homes

variable {x : NodeId}

omit hw in
theorem live (hx : w.doc.contains x = true) : u.doc.contains x = true :=
  h.accompanied.grown.live x ((h.divided.live x).mpr (Or.inl hx))

omit hw in
theorem sheetOf?_eq (hx : w.doc.contains x = true) : u.sheetOf? x = v.sheetOf? x :=
  h.accompanied.sheetOf?_base h.divided.tidy ((h.divided.live x).mpr (Or.inl hx))

theorem sheetOf?_unmoved (hx : w.doc.contains x = true) (hu : w.Unmoved settings d.pairs x) :
    u.sheetOf? x = w.sheetOf? x :=
  (h.sheetOf?_eq hx).trans (h.divided.sheetOf?_unmoved hw.tidy hx hu)

theorem sheetOf?_carried {derived : SheetId} (hx : w.doc.contains x = true)
    (hc : w.Carried settings d.pairs x derived) : u.sheetOf? x = some derived :=
  (h.sheetOf?_eq hx).trans (h.divided.sheetOf?_carried hw.tidy hc)

omit hw in
theorem data (hx : w.doc.contains x = true) : u.doc.get? x = w.doc.get? x := by
  rw [h.accompanied.grown.data x ((h.divided.live x).mpr (Or.inl hx)), h.divided.data x hx]

/-- The imports above a node were above it before. -/
theorem import_above {a : NodeId} (hx : w.doc.contains x = true) (ha : u.doc.Within a x)
    (himport : (u.doc.get? a).any Node.isImportRule = true) :
    w.doc.contains a = true ∧ w.doc.Within a x := by
  have hlive : v.doc.contains x = true := (h.divided.live x).mpr (Or.inl hx)
  have hwithin := (h.accompanied.grown.within_iff h.divided.tidy.wellFormed hlive).mp ha
  have habove := h.divided.tidy.wellFormed.contains_above hwithin hlive
  rw [h.accompanied.grown.data a habove] at himport
  exact h.divided.import_above hw.tidy hx hwithin himport

end homes

/-! ### Companions -/

omit hw in
theorem hostOf_donor {donor host derived : SheetId} (hp : (donor, host) ∈ d.pairs)
    (hne : host ≠ derived) : d.hostOf donor derived = host := by
  simp [Derivations.hostOf, (of?_eq_some h.donors).mpr hp, Option.filter, hne]

omit hw in
theorem hostOf_whole {importer derived : SheetId} (hno : ∀ host, (importer, host) ∉ d.pairs) :
    d.hostOf importer derived = importer := by
  have hnone : d.of? importer = none := by
    cases hof : d.of? importer with
    | none => rfl
    | some host => exact absurd ((of?_eq_some h.donors).mp hof) (hno host)
  simp [Derivations.hostOf, hnone]

omit hw in
theorem hostOf_derived {importer derived : SheetId} (hid : w.sheets.size ≤ importer) :
    d.hostOf importer derived = importer :=
  h.hostOf_whole fun _ hp => absurd (h.lt_size hp) (Nat.not_lt.mpr hid)

/-- The home of a companion, by what has become of the import and of its importer. -/
theorem companionHome_cases {x derived home : SheetId} {rule : NodeId}
    (hx : w.sheetOf? rule = some x) (hhome : v.companionHome d derived rule = some home) :
    w.Carried settings d.pairs rule home ∨
    w.Unmoved settings d.pairs rule ∧
      ((x, home) ∈ d.pairs ∧ home ≠ derived ∨
        home = x ∧ ∀ host, (x, host) ∈ d.pairs → host = derived) := by
  obtain ⟨hlive, -⟩ := hw.tidy.sheetOf?_eq_some.mp hx
  obtain ⟨importer, himporter, rfl⟩ := Option.map_eq_some_iff.mp hhome
  rcases unmoved_or_carried w settings d.pairs rule with hu | ⟨host, hc⟩
  · rw [h.divided.sheetOf?_unmoved hw.tidy hlive hu, hx] at himporter
    cases himporter
    refine Or.inr ⟨hu, ?_⟩
    by_cases hsplit : ∃ host, (x, host) ∈ d.pairs ∧ host ≠ derived
    · obtain ⟨host, hp, hne⟩ := hsplit
      rw [h.hostOf_donor hp hne]
      exact Or.inl ⟨hp, hne⟩
    · push Not at hsplit
      refine Or.inr ⟨?_, hsplit⟩
      unfold Derivations.hostOf
      cases hof : d.of? x with
      | none => rfl
      | some host => simp [Option.filter, hsplit host ((of?_eq_some h.donors).mp hof)]
  · rw [h.divided.sheetOf?_carried hw.tidy hc] at himporter
    cases himporter
    obtain ⟨donor, hp, -⟩ := hc.donor hw.tidy
    rw [h.hostOf_derived (h.divided.pair donor _ hp).1]
    exact Or.inl hc

omit hw in
/-- Every import of a donor has its companion in its home. -/
theorem exists_companion {donor derived : SheetId} {s : Sheet} {rule : NodeId}
    (hp : (donor, derived) ∈ d.pairs) (hs : w.get? donor = some s) (hr : rule ∈ s.inbound) :
    ∃ t c home, u.get? derived = some t ∧ c ∈ t.inbound ∧
      v.companionHome d derived rule = some home ∧ u.sheetOf? c = some home ∧
      home ∈ t.parents :=
  h.accompanied.companion derived rule ⟨donor, s, hp, h.divided.original_root hs, hr⟩

section derived

variable {id : SheetId} {t : Sheet} (hid : w.sheets.size ≤ id) (ht : u.get? id = some t)
include hid ht

omit hw in
/-- An import of a derived stylesheet is the companion of an import of a donor. -/
theorem companion_cases {c : NodeId} (hc : c ∈ t.inbound) : v.doc.contains c = false ∧
    ∃ donor s rule home, (donor, id) ∈ d.pairs ∧ w.get? donor = some s ∧ rule ∈ s.inbound ∧
      v.companionHome d id rule = some home ∧ u.sheetOf? c = some home := by
  obtain ⟨r, hr⟩ := get?_isSome.mpr (h.size ▸ Workspace.lt_size ht)
  rcases h.accompanied.inbound id r t c hr ht hc with hold | ⟨hnew, rule, home, hd, hhome, ho⟩
  · rw [(h.divided.bare id r hid hr).1.inbound] at hold
    cases hold
  · obtain ⟨donor, s, hp, hs, hrule⟩ := hd
    rw [h.divided.original donor (h.lt_size hp)] at hs
    exact ⟨hnew, donor, s, rule, home, hp, hs, hrule, hhome, ho⟩

omit hw in
/-- So are its parents. -/
theorem parent_cases {parent : SheetId} (hm : parent ∈ t.parents) :
    ∃ donor s rule, (donor, id) ∈ d.pairs ∧ w.get? donor = some s ∧ rule ∈ s.inbound ∧
      v.companionHome d id rule = some parent := by
  obtain ⟨r, hr⟩ := get?_isSome.mpr (h.size ▸ Workspace.lt_size ht)
  rcases h.accompanied.parents id r t parent hr ht hm with hold | ⟨rule, hd, hhome⟩
  · rw [(h.divided.bare id r hid hr).1.parents] at hold
    cases hold
  · obtain ⟨donor, s, hp, hs, hrule⟩ := hd
    rw [h.divided.original donor (h.lt_size hp)] at hs
    exact ⟨donor, s, rule, hp, hs, hrule, hhome⟩

end derived

end Parted

/-! ### Runs that can be evaluated -/

/-- The passes up to the split succeed, and `check` holds of the workspace before the split and of
what comes of it. -/
def splitsWith (sources : List (Option FilePath × String)) (resolve : Resolution) (base : FilePath)
    (settings : Settings) (check : Workspace → Workspace → Derivations → Bool) : Bool :=
  match ((filled sources).connect resolve base).1.inheritLayers with
  | .error _ => false
  | .ok (_, w) =>
    match w.split settings with
    | .error _ => false
    | .ok (u, d) => check w u d

theorem exists_of_splitsWith {sources : List (Option FilePath × String)} {resolve : Resolution}
    {base : FilePath} {check : Workspace → Workspace → Derivations → Bool}
    (h : splitsWith sources resolve base settings check = true) :
    ∃ table w u d, ((filled sources).connect resolve base).1.inheritLayers = .ok (table, w) ∧
      w.split settings = .ok (u, d) ∧ check w u d = true := by
  unfold splitsWith at h
  split at h
  · cases h
  · next table w hl =>
    split at h
    · cases h
    · next u d hs => exact ⟨table, w, u, d, hl, hs, h⟩

/-- An entry that imports one stylesheet, with some text, into the layer of utilities. -/
def entryAnd (text : String) : List (Option FilePath × String) :=
  [(some ⟨"/p/index.css"⟩, "@import './a.css' layer(utilities);"), (some ⟨"/p/a.css"⟩, text)]

def entryFiles : Resolution := .known [⟨"/p/index.css"⟩, ⟨"/p/a.css"⟩]

end Workspace

end Strata
