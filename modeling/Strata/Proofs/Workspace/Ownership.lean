import Strata.Proofs.Document.Tidy
import Strata.Proofs.Path.Normal
import Strata.Workspace.Basic

/-! Which stylesheet a node belongs to.

The document of a workspace is tidy for the roots of its stylesheets. So every
live node belongs to exactly one stylesheet, which is the one that `sheetOf?`
finds. -/
namespace Strata

/-- A look-up of the path finds the stylesheet. -/
structure Sheet.Holds (s : Sheet) (path : FilePath) : Prop where
  file : s.file = some path
  held : s.holdsFile = true

namespace Workspace

open Forest

variable {w : Workspace}

/-- The roots of the stylesheets, in the order of registration. -/
def roots (w : Workspace) : List NodeId := w.sheets.toList.map Sheet.root

def Tidy (w : Workspace) : Prop := w.doc.Tidy w.roots

theorem get?_isSome {id : SheetId} : (∃ s, w.get? id = some s) ↔ id < w.sheets.size := by
  simp [get?, Array.getElem?_eq_some_iff]

theorem lt_size {id : SheetId} {s : Sheet} (h : w.get? id = some s) : id < w.sheets.size :=
  get?_isSome.mp ⟨s, h⟩

theorem sheet_eq_ok {id : SheetId} {s : Sheet} : w.sheet id = .ok s ↔ w.get? id = some s := by
  unfold sheet
  split <;> simp_all

/-- A stylesheet holds one path. -/
theorem normalize_of_holderOf? {path : FilePath} {id : SheetId} (h : w.holderOf? path = some id) :
    ∃ s, w.get? id = some s ∧ s.file = some path.normalize := by
  obtain ⟨hlt, hholds, -⟩ := Array.findIdx?_eq_some_iff_getElem.mp h
  rw [Bool.and_eq_true, beq_iff_eq] at hholds
  exact ⟨w.sheets[id], Array.getElem?_eq_getElem hlt, hholds.2⟩

theorem holderOf?_normalize (path : FilePath) : w.holderOf? path.normalize = w.holderOf? path := by
  unfold holderOf?
  rw [FilePath.normalize_normalize]

theorem mem_roots {x : NodeId} : x ∈ w.roots ↔ ∃ id s, w.get? id = some s ∧ s.root = x := by
  simp only [roots, List.mem_map, Array.mem_toList_iff, Array.mem_iff_getElem?, get?]
  constructor
  · intro hex
    obtain ⟨s, ⟨id, hs⟩, hx⟩ := hex
    exact ⟨id, s, hs, hx⟩
  · intro hex
    obtain ⟨id, s, hs, hx⟩ := hex
    exact ⟨s, ⟨id, hs⟩, hx⟩

theorem getElem?_roots (id : SheetId) : w.roots[id]? = (w.get? id).map Sheet.root := by
  rw [roots, List.getElem?_map, Array.getElem?_toList, get?]

/-- The roots are known by those of the single stylesheets. -/
theorem roots_congr {v : Workspace} (hsize : v.sheets.size = w.sheets.size)
    (hroot : ∀ id t, v.get? id = some t → ∃ s, w.get? id = some s ∧ t.root = s.root) :
    v.roots = w.roots := by
  refine List.ext_getElem? fun id => ?_
  rw [getElem?_roots, getElem?_roots]
  cases ht : v.get? id with
  | none =>
    cases hs : w.get? id with
    | none => rfl
    | some s =>
      obtain ⟨t, ht'⟩ := get?_isSome.mpr (hsize.symm ▸ lt_size hs)
      rw [ht] at ht'
      cases ht'
  | some t =>
    obtain ⟨s, hs, hroot⟩ := hroot id t ht
    rw [hs, Option.map_some, Option.map_some, hroot]

theorem root_mem_roots {id : SheetId} {s : Sheet} (h : w.get? id = some s) : s.root ∈ w.roots :=
  mem_roots.mpr ⟨id, s, h, rfl⟩

namespace Tidy

variable (h : w.Tidy)
include h

theorem id_unique {i j : SheetId} {s t : Sheet} (hi : w.get? i = some s) (hj : w.get? j = some t)
    (heq : s.root = t.root) : i = j := by
  have hlt : i < w.roots.length := by
    simpa [roots] using lt_size hi
  refine (List.getElem?_inj hlt h.nodup).mp ?_
  rw [getElem?_roots, getElem?_roots, hi, hj, Option.map_some, Option.map_some, heq]

theorem live {id : SheetId} {s : Sheet} (hs : w.get? id = some s) :
    w.doc.contains s.root = true :=
  Document.Tidy.live h (root_mem_roots hs)

theorem parent?_root {id : SheetId} {s : Sheet} (hs : w.get? id = some s) :
    w.doc.parent? s.root = none :=
  Document.Tidy.parent?_root h (root_mem_roots hs)

theorem live_within {id : SheetId} {s : Sheet} {x : NodeId} (hs : w.get? id = some s)
    (hw : w.doc.Within s.root x) : w.doc.contains x = true := hw.live (h.live hs)

/-- **The stylesheet of a live node is the one whose root it is within.** -/
theorem sheetOf?_eq_some {x : NodeId} {id : SheetId} :
    w.sheetOf? x = some id ↔
      w.doc.contains x = true ∧ ∃ s, w.get? id = some s ∧ w.doc.Within s.root x := by
  unfold sheetOf?
  rw [Option.bind_eq_bind, Option.bind_eq_some_iff]
  constructor
  · intro hex
    obtain ⟨root, hroot, hfind⟩ := hex
    obtain ⟨hx, hw, -⟩ := h.wellFormed.root?_eq_some.mp hroot
    obtain ⟨hlt, hs, -⟩ := Array.findIdx?_eq_some_iff_getElem.mp hfind
    refine ⟨hx, w.sheets[id], Array.getElem?_eq_getElem hlt, ?_⟩
    rw [beq_iff_eq.mp hs]
    exact hw
  · intro hboth
    obtain ⟨hx, s, hs, hw⟩ := hboth
    refine ⟨s.root, h.wellFormed.root?_eq_some.mpr ⟨hx, hw, h.parent?_root hs⟩, ?_⟩
    obtain ⟨hlt, hget⟩ := Array.getElem?_eq_some_iff.mp hs
    refine Array.findIdx?_eq_some_iff_getElem.mpr ⟨hlt, by simp [hget], fun j hj => ?_⟩
    rw [beq_iff_eq]
    intro heq
    have hjlt := Nat.lt_trans hj hlt
    exact absurd (h.id_unique (Array.getElem?_eq_getElem hjlt) hs heq) (Nat.ne_of_lt hj)

theorem exists_sheetOf? {x : NodeId} (hx : w.doc.contains x = true) :
    ∃ id s, w.sheetOf? x = some id ∧ w.get? id = some s ∧ w.doc.Within s.root x := by
  obtain ⟨root, hr, hw⟩ := h.exists_root hx
  obtain ⟨id, s, hs, rfl⟩ := mem_roots.mp hr
  exact ⟨id, s, h.sheetOf?_eq_some.mpr ⟨hx, s, hs, hw⟩, hs, hw⟩

/-- Nodes within one another are in one stylesheet. -/
theorem sheetOf?_within {x top : NodeId} (hx : w.doc.contains x = true)
    (hw : w.doc.Within top x) : w.sheetOf? top = w.sheetOf? x := by
  obtain ⟨id, s, hid, hs, htop⟩ := h.exists_sheetOf? (h.wellFormed.contains_above hw hx)
  rw [hid]
  exact (h.sheetOf?_eq_some.mpr ⟨hx, s, hs, Within.trans htop hw⟩).symm

end Tidy

/-- When the document grows, the nodes there were stay in their stylesheets. -/
theorem sheetOf?_of_extends {v : Workspace} (h : w.Tidy) (hv : v.Tidy)
    (hroots : v.roots = w.roots) (he : Extends w.doc v.doc) {x : NodeId}
    (hx : w.doc.contains x = true) : v.sheetOf? x = w.sheetOf? x := by
  obtain ⟨id, s, hid, hs, hw⟩ := h.exists_sheetOf? hx
  have hroot : (v.get? id).map Sheet.root = some s.root := by
    rw [← getElem?_roots, hroots, getElem?_roots, hs]
    rfl
  obtain ⟨t, ht, hst⟩ := Option.map_eq_some_iff.mp hroot
  rw [hid, hv.sheetOf?_eq_some]
  exact ⟨he.live x hx, t, ht, hst ▸ he.within hw⟩

end Workspace

end Strata
