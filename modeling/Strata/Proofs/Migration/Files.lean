import Strata.Proofs.Cleanup
import Strata.Proofs.Split.Files

/-! Files that change hands.

A cleanup marks stylesheets, and then derived ones take over the paths of discarded donors
(`takeOver_cases`). Each donor is asked once, and a derived stylesheet takes over one path at most.
So no stylesheet that is kept loses its path, and a path that its stylesheet has lost is held by one
that is kept (`HandedOver`). -/
namespace Strata.Workspace

variable {w u v z : Workspace} {files : FileSet} {pairs : List (SheetId × SheetId)}

/-! ### Marking -/

theorem sameFiles_discard (w : Workspace) (id : SheetId) : w.SameFiles (w.discard id) := by
  cases ht : w.get? id with
  | none =>
    unfold discard
    rw [ht]
    exact .of_sheets rfl
  | some t =>
    rw [discard_eq ht]
    have hdoc : w.SameFiles { w with doc := t.inbound.foldl (fun doc rule => doc.remove rule) w.doc } :=
      .of_sheets rfl
    exact hdoc.trans (.modify _ id fun s => ⟨rfl, rfl, rfl, rfl⟩)

theorem sameFiles_discardEmptied (fuel : Nat) (w : Workspace) (done : Cleanup) :
    w.SameFiles (discardEmptied fuel w done).1 ∧
      (discardEmptied fuel w done).2.promoted = done.promoted := by
  have hrun : ∀ (ids : List SheetId) (w : Workspace), w.SameFiles (ids.foldl discard w) := by
    intro ids
    induction ids with
    | nil => exact fun w => .of_sheets rfl
    | cons id ids ih => exact fun w => (sameFiles_discard w id).trans (ih _)
  induction fuel generalizing w done with
  | zero => exact ⟨.of_sheets rfl, rfl⟩
  | succ fuel ih =>
    unfold discardEmptied
    simp only
    split
    · exact ⟨.of_sheets rfl, rfl⟩
    · obtain ⟨hsame, hpromoted⟩ := ih _ _
      exact ⟨(hrun _ w).trans hsame, hpromoted⟩

/-! ### Taking over -/

theorem sheets_foldl_readdress (donor : SheetId) (file : FilePath) (rules : List NodeId)
    (w : Workspace) : (rules.foldl (readdress donor file) w).sheets = w.sheets := by
  induction rules generalizing w with
  | nil => rfl
  | cons rule rules ih =>
    rw [List.foldl_cons, ih]
    rcases readdress_cases donor file w rule with heq | ⟨params, heq⟩ <;> rw [heq]

/-- A derived stylesheet takes over the path of its donor. -/
structure TakesOver (state : Workspace × Cleanup) (donor derived : SheetId) (o t : Sheet)
    (file : FilePath) (next : Workspace × Cleanup) : Prop where
  giver : state.1.get? donor = some o
  taker : state.1.get? derived = some t
  vacant : o.file = some file
  discarded : o.discarded = true
  kept : t.discarded = false
  first : derived ∉ state.2.promoted
  assigned : (t.inbound.foldl (readdress donor file) state.1).assignFile derived file = .ok next.1
  promoted : next.2.promoted = state.2.promoted ++ [derived]

theorem takeOver_cases (state : Workspace × Cleanup) (donor derived : SheetId) :
    takeOver state (donor, derived) = state ∨ ∃ o t file next,
      TakesOver state donor derived o t file next ∧ takeOver state (donor, derived) = next := by
  obtain ⟨w, done⟩ := state
  unfold takeOver
  simp only
  split
  · next o t ho ht =>
    split
    · exact Or.inl rfl
    · next file hf =>
      split
      · next hcond =>
        simp only [Bool.and_eq_true, Bool.not_eq_true', List.contains_eq_mem,
          decide_eq_false_iff_not] at hcond
        split
        · exact Or.inl rfl
        · next v hv =>
          exact Or.inr ⟨o, t, file, (v, _),
            ⟨ho, ht, hf, hcond.1.1, hcond.1.2, hcond.2, hv, rfl⟩, rfl⟩
      · exact Or.inl rfl
  · exact Or.inl rfl

theorem TakesOver.get? {state next : Workspace × Cleanup} {donor derived : SheetId} {o t : Sheet}
    {file : FilePath} (h : TakesOver state donor derived o t file next)
    (hnormal : file.normalize = file) (x : SheetId) : next.1.get? x = (state.1.get? x).map fun s =>
      if x = derived then { s with file := some file, holdsFile := true }
      else if s.file = some file then { s with holdsFile := false } else s := by
  have hsheets := sheets_foldl_readdress donor file t.inbound state.1
  rw [get?_assignFile h.assigned, hnormal, Workspace.get?, hsheets]
  rfl

/-- What has become of the files of `w` behind a split and a cleanup, in which the stylesheets
`promoted` took over paths of donors. -/
structure HandedOver (w : Workspace) (pairs : List (SheetId × SheetId)) (promoted : List SheetId)
    (z : Workspace) : Prop where
  size_le : w.sheets.size ≤ z.sheets.size
  original : ∀ id s, w.get? id = some s → ∃ t, z.get? id = some t ∧
    t.file = s.file ∧ t.derived = s.derived ∧ t.loadedPrint = s.loadedPrint
  derived : ∀ id t, w.sheets.size ≤ id → z.get? id = some t →
    t.derived = true ∧ ∃ path, t.Holds path ∧ path.normalize = path
  taken : ∀ id t, id ∈ promoted → z.get? id = some t →
    t.discarded = false ∧ ∃ donor o, (donor, id) ∈ pairs ∧ w.get? donor = some o ∧ t.file = o.file
  /-- Other derived stylesheets have files that were not there. -/
  fresh : ∀ id t, w.sheets.size ≤ id → z.get? id = some t → id ∉ promoted →
    ∀ x s, w.get? x = some s → s.file ≠ t.file
  oneHolder : z.OneHolder
  kept : ∀ id t path, z.get? id = some t → t.discarded = false → t.file = some path → t.Holds path
  vacated : ∀ id t path, z.get? id = some t → t.file = some path → ¬ t.Holds path →
    ∃ other r, z.get? other = some r ∧ r.discarded = false ∧ r.Holds path

/-- Before anything is taken over. -/
theorem Branched.handedOver (h : Branched w pairs u) (hw : Loaded files w) :
    HandedOver w [] [] u := by
  have hall : ∀ id t path, u.get? id = some t → t.file = some path → t.Holds path := by
    intro id t path ht hfile
    by_cases hid : id < w.sheets.size
    · obtain ⟨s, hs⟩ := get?_isSome.mpr hid
      obtain ⟨t', ht', hst⟩ := h.original id s hs
      rw [ht] at ht'
      cases ht'
      exact hst.holds_iff.mpr (hw.read id s path hs (hst.file ▸ hfile)).holds
    · obtain ⟨-, other, hholds, -⟩ := h.fresh id t (Nat.le_of_not_lt hid) ht
      cases hholds.file.symm.trans hfile
      exact hholds
  refine ⟨h.size_le, fun id s hs => ?_, h.fresh, fun _ _ hm => absurd hm List.not_mem_nil,
    fun id t hid ht _ x s hs hfile => ?_, h.oneHolder, fun id t path ht _ hfile => hall id t path ht hfile,
    fun id t path ht hfile hno => absurd (hall id t path ht hfile) hno⟩
  · obtain ⟨t, ht, hst⟩ := h.original id s hs
    exact ⟨t, ht, hst.file, hst.derived, hst.loadedPrint⟩
  · obtain ⟨-, path, hholds, -⟩ := h.fresh id t hid ht
    obtain ⟨t', ht', hst⟩ := h.original x s hs
    have hx := hall x t' path ht' (hst.file.trans (hfile.trans hholds.file))
    exact absurd (lt_size hs) (Nat.not_lt.mpr (h.oneHolder x id t' t path ht' ht hx hholds ▸ hid))

namespace HandedOver

variable {promoted : List SheetId} {state next : Workspace × Cleanup} {donor derived : SheetId}
  {o t : Sheet} {file : FilePath}

/-- A pair of which nothing comes. -/
theorem pairWith (h : HandedOver w pairs promoted z) (pair : SheetId × SheetId) :
    HandedOver w (pairs ++ [pair]) promoted z :=
  ⟨h.size_le, h.original, h.derived, fun id t hm ht => (h.taken id t hm ht).imp_right
    fun ⟨donor, o, hp, hrest⟩ => ⟨donor, o, List.mem_append_left _ hp, hrest⟩, h.fresh,
    h.oneHolder, h.kept, h.vacated⟩

section takeOver

variable (h : HandedOver w pairs state.2.promoted state.1) (hw : Loaded files w)
  (hdonor : donor ∉ pairs.map Prod.fst) (hfiled : w.Filed donor) (hle : w.sheets.size ≤ derived)
  (hnext : TakesOver state donor derived o t file next)
include h hw hdonor hfiled hnext

/-- Only the donor has the path that is taken over. -/
theorem eq_donor {id : SheetId} {s : Sheet} (hs : state.1.get? id = some s)
    (hfile : s.file = some file) : id = donor := by
  obtain ⟨s₀, hs₀, -⟩ := hfiled
  obtain ⟨o', ho', hsame, -⟩ := h.original donor s₀ hs₀
  rw [hnext.giver] at ho'
  cases ho'
  have hfile₀ : s₀.file = some file := hsame.symm.trans hnext.vacant
  by_cases hid : id < w.sheets.size
  · obtain ⟨r, hr⟩ := get?_isSome.mpr hid
    obtain ⟨s', hs', hsame', -⟩ := h.original id r hr
    rw [hs] at hs'
    cases hs'
    have hrfile : r.file = some file := hsame'.symm.trans hfile
    exact hw.oneHolder id donor r s₀ file hr hs₀ (hw.read id r file hr hrfile).holds
      (hw.read donor s₀ file hs₀ hfile₀).holds
  · by_cases hm : id ∈ state.2.promoted
    · obtain ⟨-, other, r, hp, hr, hfiler⟩ := h.taken id s hm hs
      have hrfile : r.file = some file := hfiler.symm.trans hfile
      have heq := hw.oneHolder other donor r s₀ file hr hs₀ (hw.read other r file hr hrfile).holds
        (hw.read donor s₀ file hs₀ hfile₀).holds
      exact absurd (List.mem_map.mpr ⟨_, hp, heq⟩) hdonor
    · exact absurd (hfile₀.trans hfile.symm)
        (h.fresh id s (Nat.le_of_not_lt hid) hs hm donor s₀ hs₀)

include hle

theorem takeOver : HandedOver w (pairs ++ [(donor, derived)]) next.2.promoted next.1 := by
  obtain ⟨s₀, hs₀, -⟩ := id hfiled
  have hlt := lt_size hs₀
  have hsame₀ : s₀.file = some file := by
    obtain ⟨o', ho', hsame, -⟩ := h.original donor s₀ hs₀
    rw [hnext.giver] at ho'
    cases ho'
    exact hsame.symm.trans hnext.vacant
  have hnormal := (hw.read donor s₀ file hs₀ hsame₀).normal
  have hget := hnext.get? hnormal
  have honly : ∀ {id s}, state.1.get? id = some s → s.file = some file → id = donor :=
    h.eq_donor hw hdonor hfiled hnext
  have hsize : next.1.sheets.size = state.1.sheets.size := by
    obtain ⟨-, hsize, -⟩ := assignFile_ok hnext.assigned
    rw [hsize, sheets_foldl_readdress]
  -- A stylesheet is the one promoted, or the donor, or as it was.
  have hcases : ∀ id r, next.1.get? id = some r →
      id = derived ∧ r = { t with file := some file, holdsFile := true } ∨
      id = donor ∧ r = { o with holdsFile := false } ∨
      id ≠ derived ∧ r.file ≠ some file ∧ state.1.get? id = some r := by
    intro id r hr
    rw [hget] at hr
    obtain ⟨s, hs, hr⟩ := Option.map_eq_some_iff.mp hr
    split at hr
    · next heq =>
      subst heq
      rw [hnext.taker] at hs
      cases hs
      exact Or.inl ⟨rfl, hr.symm⟩
    · next hne =>
      split at hr
      · next hfile =>
        cases honly hs hfile
        rw [hnext.giver] at hs
        cases hs
        exact Or.inr (Or.inl ⟨rfl, hr.symm⟩)
      · next hfile =>
        subst hr
        exact Or.inr (Or.inr ⟨hne, hfile, hs⟩)
  have hholder : ∃ r, next.1.get? derived = some r ∧ r.discarded = false ∧ r.Holds file := by
    refine ⟨{ t with file := some file, holdsFile := true }, ?_, hnext.kept, rfl, rfl⟩
    rw [hget, hnext.taker]
    simp
  have hkept : ∀ id s, state.1.get? id = some s → s.file ≠ some file → id ≠ derived →
      next.1.get? id = some s := by
    intro id s hs hfile hne
    rw [hget, hs]
    simp [hne, hfile]
  refine ⟨hsize ▸ h.size_le, fun id s hs => ?_, fun id r hid hr => ?_, fun id r hm hr => ?_,
    fun id r hid hr hm x s hs hfile => ?_, fun i j s r path hs hr hsp hrp => ?_,
    fun id r path hr hlive hfile => ?_, fun id r path hr hfile hno => ?_⟩
  · obtain ⟨r, hr, hfile, hderived, hprint⟩ := h.original id s hs
    have hne : id ≠ derived := by
      rintro rfl
      exact absurd (lt_size hs) (Nat.not_lt.mpr hle)
    refine ⟨_, (hget id).trans (by rw [hr]; rfl), ?_⟩
    simp only [hne, if_false]
    split <;> exact ⟨hfile, hderived, hprint⟩
  · rcases hcases id r hr with ⟨rfl, rfl⟩ | ⟨rfl, -⟩ | ⟨-, -, hold⟩
    · exact ⟨(h.derived id t hid hnext.taker).1, file, ⟨rfl, rfl⟩, hnormal⟩
    · exact absurd hlt (Nat.not_lt.mpr hid)
    · exact h.derived id r hid hold
  · rw [hnext.promoted, List.mem_append, List.mem_singleton] at hm
    rcases hcases id r hr with ⟨rfl, rfl⟩ | ⟨rfl, rfl⟩ | ⟨hne, -, hold⟩
    · exact ⟨hnext.kept, donor, s₀, by simp, hs₀, hsame₀.symm⟩
    · have hm := hm.resolve_right fun heq => absurd hlt (heq ▸ Nat.not_lt.mpr hle)
      have hlive := (h.taken id o hm hnext.giver).1
      rw [hnext.discarded] at hlive
      cases hlive
    · obtain ⟨hlive, other, r', hp, hrest⟩ := h.taken id r (hm.resolve_right hne) hold
      exact ⟨hlive, other, r', List.mem_append_left _ hp, hrest⟩
  · rw [hnext.promoted, List.mem_append, List.mem_singleton, not_or] at hm
    rcases hcases id r hr with ⟨rfl, -⟩ | ⟨rfl, -⟩ | ⟨-, -, hold⟩
    · exact hm.2 rfl
    · exact absurd hlt (Nat.not_lt.mpr hid)
    · exact h.fresh id r hid hold hm.1 x s hs hfile
  · rcases hcases i s hs with ⟨rfl, rfl⟩ | ⟨rfl, rfl⟩ | ⟨-, hfile, hold⟩
    · rcases hcases j r hr with ⟨rfl, -⟩ | ⟨-, rfl⟩ | ⟨-, hfile, -⟩
      · rfl
      · exact absurd hrp.held Bool.false_ne_true
      · exact absurd (hrp.file.trans hsp.file.symm) hfile
    · exact absurd hsp.held Bool.false_ne_true
    · rcases hcases j r hr with ⟨rfl, rfl⟩ | ⟨-, rfl⟩ | ⟨-, -, hold'⟩
      · exact absurd (hsp.file.trans hrp.file.symm) hfile
      · exact absurd hrp.held Bool.false_ne_true
      · exact h.oneHolder i j s r path hold hold' hsp hrp
  · rcases hcases id r hr with ⟨rfl, rfl⟩ | ⟨rfl, rfl⟩ | ⟨-, -, hold⟩
    · exact ⟨hfile, rfl⟩
    · rw [show ({ o with holdsFile := false } : Sheet).discarded = o.discarded from rfl,
        hnext.discarded] at hlive
      cases hlive
    · exact h.kept id r path hold hlive hfile
  · by_cases hpath : path = file
    · subst hpath
      obtain ⟨r', hr', hlive, hholds⟩ := hholder
      exact ⟨derived, r', hr', hlive, hholds⟩
    · rcases hcases id r hr with ⟨rfl, rfl⟩ | ⟨rfl, rfl⟩ | ⟨-, -, hold⟩
      · exact absurd (Option.some.inj hfile).symm hpath
      · exact absurd (Option.some.inj (hfile.symm.trans hnext.vacant)) hpath
      · obtain ⟨other, r', hr', hlive, hholds⟩ := h.vacated id r path hold hfile hno
        refine ⟨other, r', hkept other r' hr' ?_ ?_, hlive, hholds⟩
        · rw [hholds.file]
          exact fun heq => hpath (Option.some.inj heq)
        · -- The one promoted had a path that no stylesheet was loaded from, and derived ones hold
          -- theirs.
          rintro rfl
          by_cases hid : id < w.sheets.size
          · obtain ⟨s, hs⟩ := get?_isSome.mpr hid
            obtain ⟨r'', hr'', hsame, -⟩ := h.original id s hs
            rw [hold] at hr''
            cases hr''
            exact h.fresh _ r' hle hr' hnext.first id s hs
              (hsame.symm.trans (hfile.trans hholds.file.symm))
          · obtain ⟨-, other', hholds', -⟩ := h.derived id r (Nat.le_of_not_lt hid) hold
            cases hholds'.file.symm.trans hfile
            exact hno hholds'

end takeOver

/-- All pairs are gone through, each donor being in one. -/
theorem foldl_takeOver (hw : Loaded files w) (todo : List (SheetId × SheetId))
    (h : HandedOver w pairs state.2.promoted state.1)
    (htodo : ∀ donor derived, (donor, derived) ∈ todo → w.Filed donor ∧ w.sheets.size ≤ derived)
    (hnodup : ((pairs ++ todo).map Prod.fst).Nodup) :
    HandedOver w (pairs ++ todo) (todo.foldl Workspace.takeOver state).2.promoted
      (todo.foldl Workspace.takeOver state).1 := by
  induction todo generalizing pairs state with
  | nil => rwa [List.append_nil]
  | cons pair todo ih =>
    obtain ⟨donor, derived⟩ := pair
    obtain ⟨hfiled, hle⟩ := htodo donor derived (List.mem_cons_self ..)
    have hmore : ∀ donor derived, (donor, derived) ∈ todo →
        w.Filed donor ∧ w.sheets.size ≤ derived := fun x y hm =>
      htodo x y (List.mem_cons_of_mem _ hm)
    have hdonor : donor ∉ pairs.map Prod.fst := by
      intro hm
      rw [List.map_append, List.map_cons] at hnodup
      exact (List.nodup_append.mp hnodup).2.2 donor hm donor (List.mem_cons_self ..) rfl
    rw [List.append_cons] at hnodup ⊢
    rw [List.foldl_cons]
    refine ih ?_ hmore hnodup
    rcases takeOver_cases state donor derived with heq | ⟨o, t, file, next, hnext, heq⟩
    · rw [heq]
      exact h.pairWith _
    · rw [heq]
      exact h.takeOver hw hdonor hfiled hle hnext

end HandedOver

/-- **Behind a split and a cleanup every path of a stylesheet is held by one that is kept, or by
one that is to be deleted with it.** -/
theorem handedOver_cleanUp {d : Derivations} (hw : Loaded files w) (h : Branched w d.pairs u)
    (hnodup : (d.pairs.map Prod.fst).Nodup) :
    ∃ promoted, HandedOver w d.pairs promoted (u.cleanUp d).1 := by
  obtain ⟨hsame, hpromoted⟩ := sameFiles_discardEmptied (u.sheets.size + 1) u {}
  have hstart : HandedOver w [] (discardEmptied (u.sheets.size + 1) u {}).2.promoted
      (discardEmptied (u.sheets.size + 1) u {}).1 := by
    rw [hpromoted]
    exact (h.congr hsame).handedOver hw
  exact ⟨_, hstart.foldl_takeOver hw d.pairs
    (fun donor derived hp => ⟨(h.pair donor derived hp).1, (h.pair donor derived hp).2.1⟩) hnodup⟩

end Strata.Workspace
