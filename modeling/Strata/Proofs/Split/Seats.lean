import Mathlib.Data.Finset.Card
import Mathlib.Data.Nat.Find
import Strata.Proofs.Path.Directory
import Strata.Proofs.Workspace.Ownership
import Strata.Split.Derive

/-! Places for utilities.

No two names that are tried lead to one path, so of one more name than there are held paths
one leads to a path that nobody holds (`exists_free`), and every donor with a file finds a
place by then (`searched`). A place of its own is a path that nobody holds, and one that is
shared was given out before (`seatFor_cases`). -/
namespace Strata.Workspace

variable {w : Workspace} {settings : Settings} {made : List (FilePath × SheetId)} {donor : SheetId}

/-- The paths that are tried have different normal forms. -/
theorem derivedPath_injective {file : FilePath} {name : String} (hname : '/' ∉ name.toList)
    {j k : Nat} (h : (derivedPath settings file name j).normalize =
      (derivedPath settings file name k).normalize) : j = k := by
  obtain ⟨head, ending, hhead, hending, htext⟩ := FilePath.derivedName_text name settings.suffix
    file.extension? hname fun s hs => FilePath.slash_not_mem_extension hs
  obtain ⟨c, cs, rfl⟩ := List.exists_cons_of_ne_nil hhead
  have hpath : ∃ front : List Char, ∀ k, (derivedPath settings file name k).text.toList =
      (front ++ c :: cs) ++ (FilePath.counter k ++ ending) := by
    have habs : ∀ k, FilePath.isAbsolute
        ⟨FilePath.derivedName name settings.suffix file.extension? k⟩ = (c == '/') := by
      intro k
      simp [FilePath.isAbsolute, htext]
    by_cases hc : (c == '/') = true
    · refine ⟨[], fun k => ?_⟩
      simp [derivedPath, FilePath.join, habs, hc, htext]
    · by_cases hend : ((file.parent?.getD ⟨""⟩).text.isEmpty ||
          (file.parent?.getD ⟨""⟩).text.toList.getLast? == some '/') = true
      · refine ⟨(file.parent?.getD ⟨""⟩).text.toList, fun k => ?_⟩
        simp [derivedPath, FilePath.join, habs, hc, htext, hend, String.toList_append]
      · refine ⟨(file.parent?.getD ⟨""⟩).text.toList ++ ['/'], fun k => ?_⟩
        simp [derivedPath, FilePath.join, habs, hc, htext, hend, String.toList_append]
  obtain ⟨front, hpath⟩ := hpath
  by_contra hjk
  exact FilePath.normalComponents_counted (by simp) hending hpath hjk
    (FilePath.normalComponents_eq_of_normalize_eq h)

/-- The paths by which stylesheets are found. -/
def heldPaths (w : Workspace) : Finset FilePath :=
  (w.sheets.toList.filterMap fun s => if s.holdsFile then s.file else none).toFinset

theorem card_heldPaths_le (w : Workspace) : w.heldPaths.card ≤ w.sheets.size :=
  (List.toFinset_card_le _).trans (List.length_filterMap_le _ _)

theorem normalize_mem_heldPaths {path : FilePath} {id : SheetId} (h : w.holderOf? path = some id) :
    path.normalize ∈ w.heldPaths := by
  obtain ⟨hlt, hholds, -⟩ := Array.findIdx?_eq_some_iff_getElem.mp h
  rw [Bool.and_eq_true, beq_iff_eq] at hholds
  refine List.mem_toFinset.mpr (List.mem_filterMap.mpr
    ⟨w.sheets[id], Array.mem_toList_iff.mpr (Array.getElem_mem hlt), ?_⟩)
  rw [if_pos hholds.1, hholds.2]

/-- Different paths, one more than are held, are not all held. -/
theorem exists_free (w : Workspace) {p : Nat → FilePath}
    (hp : ∀ j k, (p j).normalize = (p k).normalize → j = k) :
    ∃ k ≤ w.heldPaths.card, w.holderOf? (p k) = none := by
  by_contra hall
  push Not at hall
  have hheld : ∀ k ∈ Finset.range (w.heldPaths.card + 1), (p k).normalize ∈ w.heldPaths := by
    intro k hk
    obtain ⟨id, hid⟩ := Option.ne_none_iff_exists'.mp
      (hall k (Nat.le_of_lt_succ (Finset.mem_range.mp hk)))
    exact normalize_mem_heldPaths hid
  have hcard := Finset.card_le_card_of_injOn (fun k => (p k).normalize) hheld
    fun j _ k _ heq => hp j k heq
  rw [Finset.card_range] at hcard
  exact Nat.not_succ_le_self _ hcard

theorem slash_not_mem_nameFromImports {name : String} (h : w.nameFromImports? donor = some name) :
    '/' ∉ name.toList := by
  have hmem := List.mem_of_find?_eq_some h
  obtain ⟨rule, -, hr⟩ := List.mem_filterMap.mp hmem
  obtain ⟨specifier, -, rfl⟩ := Option.map_eq_some_iff.mp hr
  exact FilePath.slash_not_mem_specifierName specifier

/-- The name that the file derived from `file` goes by. -/
def nameFor (w : Workspace) (donor : SheetId) (file : FilePath) : String :=
  (w.nameFromImports? donor).getD (file.fileName?.getD "")

theorem slash_not_mem_nameFor (w : Workspace) (donor : SheetId) (file : FilePath) :
    '/' ∉ (w.nameFor donor file).toList := by
  unfold nameFor
  cases hn : w.nameFromImports? donor with
  | some name => exact slash_not_mem_nameFromImports hn
  | none =>
    cases hfn : file.fileName? with
    | some name => exact FilePath.slash_not_mem_fileName hfn
    | none => simp

/-- A derived stylesheet can be named so after one with the file: only a file without a name leaves it
without one. -/
structure GoesBy (file : FilePath) (name : String) : Prop where
  bare : '/' ∉ name.toList
  proper : name ≠ "."
  named : name = "" → file.fileName? = none

theorem goesBy_nameFor (w : Workspace) (donor : SheetId) (file : FilePath) :
    GoesBy file (w.nameFor donor file) := by
  suffices h : w.nameFor donor file ≠ "." ∧
      (w.nameFor donor file = "" → file.fileName? = none) from
    ⟨slash_not_mem_nameFor w donor file, h.1, h.2⟩
  unfold nameFor
  cases hn : w.nameFromImports? donor with
  | some name =>
    have hproper := List.find?_some hn
    simp only [Bool.and_eq_true, bne_iff_ne] at hproper
    exact ⟨hproper.1.2, fun hempty => absurd hempty hproper.1.1⟩
  | none =>
    cases hf : file.fileName? with
    | none => exact ⟨by decide, fun _ => rfl⟩
    | some name =>
      obtain ⟨-, hne, hdot, -⟩ := FilePath.spelled_fileName hf
      exact ⟨fun h => hdot (congrArg String.toList h),
        fun h => absurd (congrArg String.toList h) hne⟩

/-- The place that a donor with a file gets, when its names are tried in a row. -/
def firstSeat? (w : Workspace) (settings : Settings) (made : List (FilePath × SheetId))
    (donor : SheetId) (file : FilePath) : Option Seat :=
  (List.range (w.sheets.size + 1)).findSome? fun attempt =>
    w.seatAt? made (derivedPath settings file (w.nameFor donor file) attempt)

theorem seatFor_eq_ok {s : Sheet} {file : FilePath} (hs : w.get? donor = some s)
    (hf : s.file = some file) {seat : Seat} :
    w.seatFor settings made donor = .ok seat ↔ w.firstSeat? settings made donor file = some seat := by
  unfold seatFor
  rw [sheet_eq_ok.mpr hs]
  simp only [bind, Except.bind, hf]
  rw [← nameFor, ← firstSeat?]
  cases w.firstSeat? settings made donor file <;> simp

/-- A path that nobody holds is good for something. -/
theorem isSome_seatAt? {path : FilePath} (h : w.holderOf? path = none) :
    (w.seatAt? made path).isSome = true := by
  unfold seatAt?
  split
  · rfl
  · rw [h]
    rfl

/-- The search for the place of a donor's utilities: its names lead to different paths, and the first
of them that is good for something comes before there were more of them than held paths. -/
structure Search (w : Workspace) (settings : Settings) (made : List (FilePath × SheetId))
    (donor : SheetId) (file : FilePath) : Prop where
  apart : ∀ j k, (derivedPath settings file (w.nameFor donor file) j).normalize =
    (derivedPath settings file (w.nameFor donor file) k).normalize → j = k
  ends : ∃ k ≤ w.heldPaths.card, ∃ seat,
    w.seatAt? made (derivedPath settings file (w.nameFor donor file) k) = some seat ∧
    (∀ j < k, w.seatAt? made (derivedPath settings file (w.nameFor donor file) j) = none) ∧
    w.seatFor settings made donor = .ok seat

/-- The first number below a bound at which something is found. -/
theorem findSome?_range {α : Type} {f : Nat → Option α} {n k : Nat} {a : α} (hk : k < n)
    (hfound : f k = some a) (hnone : ∀ j < k, f j = none) :
    (List.range n).findSome? f = some a := by
  obtain ⟨m, rfl⟩ := Nat.exists_eq_add_of_lt hk
  refine List.findSome?_eq_some_iff.mpr
    ⟨List.range k, k, (List.range m).map (k + 1 + ·), ?_, hfound, fun j hj =>
      hnone j (List.mem_range.mp hj)⟩
  rw [Nat.add_right_comm, List.range_add, List.range_succ, List.append_assoc,
    List.singleton_append]

/-- **The search ends, in every state of a split.** -/
theorem searched (settings : Settings) (made : List (FilePath × SheetId)) {s : Sheet}
    {file : FilePath} (hs : w.get? donor = some s) (hf : s.file = some file) :
    w.Search settings made donor file := by
  have hapart : ∀ j k, (derivedPath settings file (w.nameFor donor file) j).normalize =
      (derivedPath settings file (w.nameFor donor file) k).normalize → j = k := fun _ _ =>
    derivedPath_injective (slash_not_mem_nameFor w donor file)
  refine ⟨hapart, ?_⟩
  obtain ⟨free, hle, hfree⟩ := exists_free w hapart
  have hex : ∃ k, (w.seatAt? made
      (derivedPath settings file (w.nameFor donor file) k)).isSome = true :=
    ⟨free, isSome_seatAt? hfree⟩
  have hbound : Nat.find hex ≤ w.heldPaths.card :=
    (Nat.find_min' hex (isSome_seatAt? hfree)).trans hle
  have hnone : ∀ j < Nat.find hex, w.seatAt? made
      (derivedPath settings file (w.nameFor donor file) j) = none := fun j hj =>
    Option.not_isSome_iff_eq_none.mp (Nat.find_min hex hj)
  obtain ⟨seat, hseat⟩ := Option.isSome_iff_exists.mp (Nat.find_spec hex)
  refine ⟨Nat.find hex, hbound, seat, hseat, hnone, (seatFor_eq_ok hs hf).mpr ?_⟩
  exact findSome?_range (Nat.lt_succ_of_le (hbound.trans (card_heldPaths_le w))) hseat hnone

/-- **Every donor with a file finds a place.** -/
theorem exists_seatFor (settings : Settings) (made : List (FilePath × SheetId)) {s : Sheet}
    (hs : w.get? donor = some s) (hfile : s.file.isSome = true) :
    ∃ seat, w.seatFor settings made donor = .ok seat := by
  obtain ⟨file, hf⟩ := Option.isSome_iff_exists.mp hfile
  obtain ⟨-, -, seat, -, -, hseat⟩ := (searched settings made hs hf).ends
  exact ⟨seat, hseat⟩

/-- A place is a path that nobody holds, or one given out before. -/
theorem seatFor_cases {s : Sheet} (hs : w.get? donor = some s) (hfile : s.file.isSome = true)
    {seat : Seat} (h : w.seatFor settings made donor = .ok seat) :
    (∃ path, seat = .fresh path ∧ w.holderOf? path = none) ∨
      ∃ path derived, seat = .shared derived ∧ (path, derived) ∈ made := by
  obtain ⟨file, hf⟩ := Option.isSome_iff_exists.mp hfile
  obtain ⟨attempt, -, hseat⟩ := List.exists_of_findSome?_eq_some ((seatFor_eq_ok hs hf).mp h)
  unfold seatAt? at hseat
  split at hseat
  · next path derived hfound =>
    cases hseat
    exact Or.inr ⟨path, derived, rfl, List.mem_of_find?_eq_some hfound⟩
  · split at hseat
    · next hnone =>
      cases hseat
      exact Or.inl ⟨_, rfl, Option.isNone_iff_eq_none.mp hnone⟩
    · cases hseat

end Strata.Workspace
