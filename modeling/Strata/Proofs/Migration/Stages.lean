import Strata.Proofs.Connection
import Strata.Proofs.Migration.Files
import Strata.Proofs.Workspace.Index

/-! Workspaces between the passes.

Calls and passes come in any order and as often as one likes, and the trees may change between them
(`Advances`). Whatever was done, files are normal and no path is held twice (`Reached.filesApart`). -/
namespace Strata.Workspace

open Relation

variable {w v u : Workspace} {settings : Settings} {d : Derivations}

/-- One call, or one pass, or one change of the trees. -/
inductive Advances (w : Workspace) : Workspace → Prop where
  | call (c : Call) : Advances w (c.perform w)
  /-- The trees change in any way. -/
  | edit (doc : Document) : Advances w { w with doc }
  | connect (resolve : Resolution) (base : FilePath) : Advances w (w.connect resolve base).1
  | inheritLayers {v : Workspace} {table : List (List SheetId)} :
    w.inheritLayers = .ok (table, v) → Advances w v
  | nameLayer (id : SheetId) (layer : String) : Advances w (w.modify id (Sheet.nameLayer · layer))
  | split {u : Workspace} {settings : Settings} {d : Derivations} :
    w.split settings = .ok (u, d) → Advances w u
  /-- The derivations may be those of another split. -/
  | cleanUp (d : Derivations) : Advances w (w.cleanUp d).1

/-- Calls, passes and changes of the trees lead to the workspace from the empty one. -/
def Reached (w : Workspace) : Prop := ReflTransGen Advances {} w

theorem reached_filled (sources : List (Option FilePath × String)) : (filled sources).Reached :=
  filled_keeps .refl (fun _ file text h => h.tail (.call (.load file text))) sources

theorem reached_inheriting {sources : List (Option FilePath × String)} {resolve : Resolution}
    {base : FilePath} {table : List (List SheetId)}
    (h : ((filled sources).connect resolve base).1.inheritLayers = .ok (table, w)) : w.Reached :=
  ((reached_filled sources).tail (.connect resolve base)).tail (.inheritLayers h)

namespace FilesApart

variable (h : w.FilesApart)
include h

theorem split (hsplit : w.split settings = .ok (u, d)) : u.FilesApart where
  normal id t path ht hp := by
    obtain ⟨hbranched, -⟩ := branched_split h.oneHolder hsplit
    by_cases hid : id < w.sheets.size
    · obtain ⟨s, hs⟩ := get?_isSome.mpr hid
      obtain ⟨t', ht', hst⟩ := hbranched.original id s hs
      cases ht.symm.trans ht'
      exact h.normal id s path hs (hst.file ▸ hp)
    · obtain ⟨-, own, hholds, hnormal⟩ := hbranched.fresh id t (Nat.le_of_not_lt hid) ht
      cases hholds.file.symm.trans hp
      exact hnormal
  oneHolder := (branched_split h.oneHolder hsplit).1.oneHolder

theorem cleanUp (d : Derivations) : (w.cleanUp d).1.FilesApart := by
  have hrun : ∀ (pairs : List (SheetId × SheetId)) (state : Workspace × Cleanup),
      state.1.FilesApart → (pairs.foldl takeOver state).1.FilesApart := by
    intro pairs
    induction pairs with
    | nil => exact fun _ hstate => hstate
    | cons pair pairs ih =>
      intro state hstate
      refine ih _ ?_
      rcases takeOver_cases state pair.1 pair.2 with heq | ⟨o, t, file, next, hnext, heq⟩
      · rw [heq]
        exact hstate
      · rw [heq]
        exact (hstate.congr (.of_sheets (sheets_foldl_readdress ..))).assignFile hnext.assigned
  exact hrun _ _ (h.congr (sameFiles_discardEmptied _ w {}).1)

theorem advances (hstep : Advances w v) : v.FilesApart := by
  cases hstep with
  | call c => exact h.perform c
  | edit doc => exact h.withDoc doc
  | connect resolve base =>
    rw [connect_eq_foldl]
    exact h.congr (.of_sameButLinks (sameButLinks_follow (SameButLinks.refl w) resolve _))
  | inheritLayers hlayers => exact h.congr (.of_sameButLinks (sameButLinks_inheritLayers hlayers))
  | nameLayer id layer => exact h.congr (.modify w id fun s => ⟨rfl, rfl, rfl, rfl⟩)
  | split hsplit => exact h.split hsplit
  | cleanUp d => exact h.cleanUp d

end FilesApart

/-- **Whatever was done, files are normal and no path is held twice.** -/
theorem Reached.filesApart (h : w.Reached) : w.FilesApart := by
  induction h with
  | refl => exact filesApart_empty
  | tail _ hstep ih => exact ih.advances hstep

end Strata.Workspace
