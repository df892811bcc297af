import Strata.Project
import Strata.Proofs.Path.Normal
import Strata.Proofs.Path.Order

/-! Files in memory and plans for them.

A look-up goes by the components of a path, so it finds what was inserted last and not erased since
(`get?_insert`, `get?_erase`). Where all paths are normal, two paths with the same components are
one, and a path is in the set exactly when it is found. Files that are in the order of their paths
stay so (`inOrder_apply`). Of a plan whose changes are for different paths each has its effect,
whatever comes before and behind it (`get?_apply_of_mem`), and a path that no change is for keeps
its file (`get?_apply_of_forall_not_same`). -/
namespace Strata

namespace FilePath

variable {p q r : FilePath}

theorem same_iff : p.same q = true ↔ p.components = q.components := beq_iff_eq

theorem same_refl (p : FilePath) : p.same p = true := same_iff.mpr rfl

theorem same_comm (p q : FilePath) : p.same q = q.same p := by
  rw [Bool.eq_iff_iff, same_iff, same_iff, eq_comm]

theorem same_congr (h : p.same q = true) (r : FilePath) : p.same r = q.same r := by
  rw [same, same, same_iff.mp h]

theorem not_same_of_same (h : p.same q = true) (hr : ¬ p.same r = true) : ¬ r.same q = true := by
  rwa [same_comm r, ← same_congr h]

/-- Normal paths with the same components are the same text. -/
theorem same_iff_eq (hp : p.normalize = p) (hq : q.normalize = q) : p.same q = true ↔ p = q := by
  refine ⟨fun h => ?_, fun h => h ▸ same_refl p⟩
  rw [← hp, ← hq, normalize_eq_of_same h]

end FilePath

namespace FileSet

variable {files : FileSet} {path q : FilePath} {contents : String}

theorem get?_cons (p : FilePath) (contents : String) (files : FileSet) (q : FilePath) :
    get? ((p, contents) :: files) q = if p.same q then some contents else files.get? q := by
  unfold get?
  rw [List.find?_cons]
  dsimp only
  split
  · next h => rw [h]; rfl
  · next h => rw [h]; rfl

theorem get?_insert (files : FileSet) (path : FilePath) (contents : String) (q : FilePath) :
    (files.insert path contents).get? q = if path.same q then some contents else files.get? q := by
  induction files with
  | nil => exact get?_cons path contents [] q
  | cons file files ih =>
    obtain ⟨p, old⟩ := file
    unfold insert
    split
    · next hp =>
      rw [get?_cons, get?_cons, FilePath.same_congr hp]
      cases path.same q <;> rfl
    · next hp =>
      split
      · exact get?_cons path contents _ q
      · rw [get?_cons, get?_cons, ih]
        split
        · next hq =>
          rw [if_neg (FilePath.not_same_of_same hq hp)]
        · rfl

theorem get?_erase (files : FileSet) (path q : FilePath) :
    (files.erase path).get? q = if path.same q then none else files.get? q := by
  induction files with
  | nil => simp [erase, get?]
  | cons file files ih =>
    obtain ⟨p, old⟩ := file
    unfold erase at ih ⊢
    by_cases hp : p.same path = true
    · rw [List.filter_cons_of_neg (by simp [hp]), ih, get?_cons, FilePath.same_congr hp]
      cases path.same q <;> rfl
    · rw [List.filter_cons_of_pos (by simp [hp]), get?_cons, get?_cons, ih]
      split
      · next hq =>
        rw [if_neg (FilePath.not_same_of_same hq hp)]
      · rfl

/-! ### Normal paths -/

/-- All paths are normal. -/
def Normal (files : FileSet) : Prop := ∀ p ∈ files.paths, p.normalize = p

theorem normal_nil : Normal [] := fun _ h => absurd h List.not_mem_nil

theorem Normal.insert (h : files.Normal) (hp : path.normalize = path) (contents : String) :
    (files.insert path contents).Normal := by
  induction files with
  | nil =>
    intro p hm
    cases List.mem_singleton.mp hm
    exact hp
  | cons file files ih =>
    have hfile := h file.1 (List.mem_cons_self ..)
    have hrest : Normal files := fun p hm => h p (List.mem_cons_of_mem _ hm)
    have hcons : ∀ (file : FilePath × String) (more : FileSet), file.1.normalize = file.1 →
        more.Normal → Normal (file :: more) := fun file more hf hm p hp =>
      (List.mem_cons.mp hp).elim (fun heq => heq ▸ hf) (hm p)
    unfold FileSet.insert
    split
    · exact hcons _ _ hfile hrest
    · split
      · exact hcons _ _ hp h
      · exact hcons _ _ hfile (ih hrest)

theorem Normal.erase (h : files.Normal) (path : FilePath) : (files.erase path).Normal :=
  fun p hm => h p ((List.filter_sublist.map Prod.fst).subset hm)

/-- The paths are those that are found. -/
theorem Normal.mem_paths (h : files.Normal) :
    path ∈ files.paths ↔ path.normalize = path ∧ ∃ contents, files.get? path = some contents := by
  constructor
  · intro hm
    refine ⟨h path hm, ?_⟩
    obtain ⟨file, hfile, rfl⟩ := List.mem_map.mp hm
    refine Option.isSome_iff_exists.mp ?_
    rw [get?, Option.isSome_map, List.find?_isSome]
    exact ⟨file, hfile, FilePath.same_refl file.1⟩
  · intro hboth
    obtain ⟨hnormal, contents, hget⟩ := hboth
    obtain ⟨file, hfound, -⟩ := Option.map_eq_some_iff.mp hget
    have hmem : file.1 ∈ files.paths := List.mem_map_of_mem (List.mem_of_find?_eq_some hfound)
    have hsame : file.1.same path = true := by simpa using List.find?_some hfound
    rwa [(FilePath.same_iff_eq (h _ hmem) hnormal).mp hsame] at hmem

/-- A file is found where no other has its path. -/
theorem Normal.get?_of_mem (h : files.Normal) (hnodup : files.paths.Nodup)
    {file : FilePath × String} (hfile : file ∈ files) : files.get? file.1 = some file.2 := by
  induction files with
  | nil => cases hfile
  | cons first rest ih =>
    obtain ⟨hnew, hrest⟩ := List.nodup_cons.mp hnodup
    rw [get?_cons]
    rcases List.mem_cons.mp hfile with rfl | hfile
    · rw [if_pos (FilePath.same_refl _)]
    · have hmem : file.1 ∈ paths rest := List.mem_map_of_mem hfile
      have hother : ¬ first.1.same file.1 = true := fun hsame =>
        hnew ((FilePath.same_iff_eq (h _ (List.mem_cons_self ..))
          (h _ (List.mem_cons_of_mem _ hmem))).mp hsame ▸ hmem)
      rw [if_neg hother]
      exact ih (fun q hq => h q (List.mem_cons_of_mem _ hq)) hrest hfile

/-! ### Order -/

/-- Each path comes before those behind it, so none is there twice. -/
def InOrder (files : FileSet) : Prop := files.paths.Pairwise fun p q => p.before q = true

theorem mem_paths_insert {contents : String} {q : FilePath} (hq : q ∈ (files.insert path contents).paths) :
    q = path ∨ q ∈ files.paths := by
  induction files with
  | nil => exact Or.inl (List.mem_singleton.mp hq)
  | cons file files ih =>
    unfold insert at hq
    split at hq
    · exact Or.inr hq
    · split at hq
      · exact List.mem_cons.mp hq
      · rcases List.mem_cons.mp hq with rfl | hq
        · exact Or.inr (List.mem_cons_self ..)
        · exact (ih hq).imp_right (List.mem_cons_of_mem _)

theorem InOrder.insert (h : files.InOrder) (path : FilePath) (contents : String) :
    (files.insert path contents).InOrder := by
  induction files with
  | nil => exact List.pairwise_singleton _ _
  | cons file files ih =>
    obtain ⟨hfile, hrest⟩ := List.pairwise_cons.mp h
    unfold FileSet.insert
    split
    · exact h
    · next hsame =>
      split
      · next hbefore =>
        refine List.pairwise_cons.mpr ⟨fun q hq => ?_, h⟩
        rcases List.mem_cons.mp hq with rfl | hq
        · exact hbefore
        · exact FilePath.listBefore_trans hbefore (hfile q hq)
      · next hbefore =>
        refine List.pairwise_cons.mpr ⟨fun q hq => ?_, ih hrest⟩
        rcases mem_paths_insert hq with rfl | hq
        · exact FilePath.listBefore_total (fun heq => hsame (FilePath.same_iff.mpr heq.symm)) hbefore
        · exact hfile q hq

theorem InOrder.erase (h : files.InOrder) (path : FilePath) : (files.erase path).InOrder :=
  h.sublist (List.filter_sublist.map Prod.fst)

theorem InOrder.nodup (h : files.InOrder) : files.paths.Nodup :=
  h.imp fun {p q} hpq heq => by
    subst heq
    exact Bool.false_ne_true ((FilePath.listBefore_irrefl p.components).symm.trans hpq)

end FileSet

/-! ### Plans -/

namespace FileChange

/-- What the file holds behind the change. -/
def contents? : FileChange → Option String
  | write _ contents => some contents
  | delete _ => none

/-- The changes are for different paths. -/
def Apart (plan : List FileChange) : Prop := plan.Pairwise fun c d => c.path.same d.path = false

end FileChange

namespace Project

open FileChange

variable {files : FileSet} {plan : List FileChange} {path : FilePath}

theorem get?_applyChange (files : FileSet) (c : FileChange) (path : FilePath) :
    (applyChange files c).get? path =
      if c.path.same path then c.contents? else files.get? path := by
  cases c with
  | write own contents => exact FileSet.get?_insert files own contents path
  | delete own => exact FileSet.get?_erase files own path

theorem get?_apply_of_forall_not_same (h : ∀ c ∈ plan, c.path.same path = false) :
    (plan.foldl applyChange files).get? path = files.get? path := by
  induction plan generalizing files with
  | nil => rfl
  | cons c plan ih =>
    rw [List.foldl_cons, ih fun d hd => h d (List.mem_cons_of_mem _ hd), get?_applyChange,
      if_neg (by simp [h c (List.mem_cons_self ..)])]

theorem get?_apply_of_mem (hplan : Apart plan) {c : FileChange} (hc : c ∈ plan) :
    (plan.foldl applyChange files).get? c.path = c.contents? := by
  induction plan generalizing files with
  | nil => cases hc
  | cons d plan ih =>
    obtain ⟨hfirst, hrest⟩ := List.pairwise_cons.mp hplan
    rw [List.foldl_cons]
    rcases List.mem_cons.mp hc with rfl | hc
    · have hothers : ∀ d ∈ plan, d.path.same c.path = false := fun d hd => by
        rw [FilePath.same_comm]
        exact hfirst d hd
      rw [get?_apply_of_forall_not_same hothers, get?_applyChange, if_pos (FilePath.same_refl _)]
    · exact ih hrest hc

theorem normal_apply (h : files.Normal) (hplan : ∀ c ∈ plan, c.path.normalize = c.path) :
    (plan.foldl applyChange files).Normal := by
  induction plan generalizing files with
  | nil => exact h
  | cons c plan ih =>
    refine ih ?_ fun d hd => hplan d (List.mem_cons_of_mem _ hd)
    have hc := hplan c (List.mem_cons_self ..)
    cases c with
    | write own contents => exact h.insert hc contents
    | delete own => exact h.erase own

theorem inOrder_apply {files : FileSet} (h : files.InOrder) (plan : List FileChange) :
    (plan.foldl applyChange files).InOrder := by
  refine List.foldlRecOn plan _ h fun files hfiles c _ => ?_
  cases c with
  | write own contents => exact hfiles.insert own contents
  | delete own => exact hfiles.erase own

end Project

end Strata
