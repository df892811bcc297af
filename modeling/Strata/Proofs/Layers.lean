import Strata.Layers
import Strata.Proofs.Workspace.Ancestors
import Strata.Proofs.Workspace.Links

/-! Inherited layers.

When the layers are inherited, no stylesheet is above itself, and each has in the
end the layers it is named for and those that its ancestors are named for. -/
namespace Strata.Workspace

variable {w v : Workspace} {table : List (List SheetId)}

theorem getElem?_of_mapM {α β ε : Type} {f : α → Except ε β} {as : List α} {bs : List β}
    (h : as.mapM f = .ok bs) (i : Nat) (a : α) (ha : as[i]? = some a) :
    ∃ b, bs[i]? = some b ∧ f a = .ok b := by
  induction as generalizing bs i with
  | nil => cases ha
  | cons a' as ih =>
    rw [List.mapM_cons] at h
    cases hf : f a' with
    | error e => rw [hf] at h; cases h
    | ok b =>
      cases hm : as.mapM f with
      | error e => rw [hf, hm] at h; cases h
      | ok bs' =>
        rw [hf, hm] at h
        cases h
        cases i with
        | zero =>
          cases ha
          exact ⟨b, rfl, hf⟩
        | succ i => exact ih hm i ha

theorem exists_of_mapM_error {α β ε : Type} {f : α → Except ε β} {as : List α} {e : ε}
    (h : as.mapM f = .error e) : ∃ a ∈ as, f a = .error e := by
  induction as with
  | nil => cases h
  | cons a as ih =>
    rw [List.mapM_cons] at h
    cases hf : f a with
    | error e' =>
      rw [hf] at h
      cases h
      exact ⟨a, List.mem_cons_self .., hf⟩
    | ok b =>
      cases hm : as.mapM f with
      | error e' =>
        rw [hf, hm] at h
        cases h
        obtain ⟨a', ha', he⟩ := ih hm
        exact ⟨a', List.mem_cons_of_mem _ ha', he⟩
      | ok bs =>
        rw [hf, hm] at h
        cases h

theorem ancestors_of_table (h : w.ancestorTable = .ok table) {id : SheetId}
    (hid : id < w.sheets.size) : w.ancestors id = .ok (table.getD id []) := by
  have hids : w.ids[id]? = some id := by simp [ids, hid]
  obtain ⟨found, hf, ha⟩ := getElem?_of_mapM h id id hids
  rw [ha, List.getD_eq_getElem?_getD, hf]
  rfl

/-- The stylesheets once they have the layers of the ancestors in a table. -/
def inheriting (w : Workspace) (table : List (List SheetId)) : Array Sheet :=
  w.sheets.mapIdx fun id s => s.inheritLayers (w.namedLayersOf (table.getD id []))

theorem inheritLayers_cases (h : w.inheritLayers = .ok (table, v)) :
    w.ancestorTable = .ok table ∧ v = { w with sheets := w.inheriting table } := by
  unfold inheritLayers at h
  cases ht : w.ancestorTable with
  | error e => rw [ht] at h; cases h
  | ok t =>
    rw [ht] at h
    cases h
    exact ⟨rfl, rfl⟩

section inherit

variable (h : w.inheritLayers = .ok (table, v))
include h

theorem get?_inheritLayers (id : SheetId) :
    v.get? id = (w.get? id).map (Sheet.inheritLayers · (w.namedLayersOf (table.getD id []))) := by
  rw [(inheritLayers_cases h).2]
  simp [get?, inheriting, Array.getElem?_mapIdx]

theorem sameButLinks_inheritLayers : SameButLinks w v where
  doc := by rw [(inheritLayers_cases h).2]
  size := by rw [(inheritLayers_cases h).2]; simp [inheriting]
  sheet id t ht := by
    rw [get?_inheritLayers h] at ht
    obtain ⟨s, hs, rfl⟩ := Option.map_eq_some_iff.mp ht
    exact ⟨s, hs, Sheet.SameButLinks.inheritLayers s _⟩

/-- Layers are inherited by a stylesheet from itself and from its ancestors. -/
theorem mem_layers_inheritLayers {id : SheetId} {s t : Sheet} (hs : w.get? id = some s)
    (ht : v.get? id = some t) (l : String) :
    l ∈ t.layers ↔ l ∈ s.layers ∨
      ∃ top a, w.Above id top ∧ w.get? top = some a ∧ l ∈ a.namedLayers := by
  have hfound := ancestors_of_table (inheritLayers_cases h).1 (lt_size hs)
  rw [get?_inheritLayers h, hs] at ht
  cases ht
  show l ∈ Ordered.insertAll (· < ·) _ s.layers ↔ _
  rw [Ordered.mem_insertAll, or_comm, namedLayersOf, List.mem_flatMap]
  refine or_congr_right ?_
  constructor
  · intro hex
    obtain ⟨top, htop, hl⟩ := hex
    cases ha : w.get? top with
    | none => rw [ha] at hl; cases hl
    | some a =>
      rw [ha] at hl
      exact ⟨top, a, (mem_ancestors hfound).mp htop, ha, hl⟩
  · intro hex
    obtain ⟨top, a, habove, ha, hl⟩ := hex
    refine ⟨top, (mem_ancestors hfound).mpr habove, ?_⟩
    rw [ha]
    exact hl

/-- **Layers are inherited only where no stylesheet is above itself.** -/
theorem acyclic_of_inheritLayers (hc : w.Closed) (id : SheetId) : ¬ w.Above id id :=
  (ancestors_ok_iff hc).mp
    (fun _ hid => ⟨_, ancestors_of_table (inheritLayers_cases h).1 hid⟩) id

theorem parentOf_inheritLayers (id parent : SheetId) : v.ParentOf id parent ↔ w.ParentOf id parent := by
  unfold ParentOf
  rw [get?_inheritLayers h]
  constructor
  · intro hex
    obtain ⟨t, ht, hp⟩ := hex
    obtain ⟨s, hs, rfl⟩ := Option.map_eq_some_iff.mp ht
    exact ⟨s, hs, hp⟩
  · intro hex
    obtain ⟨s, hs, hp⟩ := hex
    exact ⟨s.inheritLayers (w.namedLayersOf (table.getD id [])), by rw [hs]; rfl, hp⟩

end inherit

/-- Layers are inherited, or a stylesheet is above itself. -/
theorem inheritLayers_ends (hc : w.Closed) : (∃ table v, w.inheritLayers = .ok (table, v)) ∨
    ∃ chain top, w.inheritLayers = .error (.importCycle chain) ∧ w.Above top top := by
  unfold inheritLayers
  cases ht : w.ancestorTable with
  | ok table => exact Or.inl ⟨_, _, rfl⟩
  | error e =>
    obtain ⟨id, hid, he⟩ := exists_of_mapM_error ht
    rcases ancestors_ends hc (List.mem_range.mp hid) with ⟨found, hf⟩ | ⟨chain, top, hc, habove⟩
    · cases he.symm.trans hf
    · cases he.symm.trans hc
      exact Or.inr ⟨chain, top, rfl, habove⟩

/-- **Layers can be inherited exactly when no stylesheet is above itself.** -/
theorem inheritLayers_ok_iff (hc : w.Closed) :
    (∃ table v, w.inheritLayers = .ok (table, v)) ↔ ∀ id, ¬ w.Above id id :=
  ⟨fun ⟨_, _, h⟩ => acyclic_of_inheritLayers h hc, fun hacyclic =>
    (inheritLayers_ends hc).resolve_right fun ⟨_, top, _, habove⟩ => hacyclic top habove⟩

end Strata.Workspace
