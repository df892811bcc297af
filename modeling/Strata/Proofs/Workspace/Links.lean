import Strata.Proofs.Workspace.Load

/-! Stylesheets that differ in their links only.

Following imports and inheriting layers write down at a stylesheet which layers
it has and who imports it. All else stays: `SameButLinks` says so of two
stylesheets, and of two workspaces whose documents are the same. What is read off
the rest, such as the owner of a node or the holder of a path, is then the same. -/
namespace Strata

namespace Sheet

theorem dir?_congr {s t : Sheet} (h : t.file = s.file) : t.dir? = s.dir? := by
  rw [dir?, dir?, h]

/-- All but what following imports writes down. -/
def SameButLinks (s t : Sheet) : Prop :=
  t = { s with
    namedLayers := t.namedLayers
    layers := t.layers
    inbound := t.inbound
    parents := t.parents }

namespace SameButLinks

variable {s t u : Sheet}

theorem refl (s : Sheet) : SameButLinks s s := rfl

theorem trans (h : SameButLinks s t) (h' : SameButLinks t u) : SameButLinks s u := by
  unfold SameButLinks at *
  rw [h', h]

theorem root (h : SameButLinks s t) : t.root = s.root := by rw [h]
theorem file (h : SameButLinks s t) : t.file = s.file := by rw [h]
theorem holdsFile (h : SameButLinks s t) : t.holdsFile = s.holdsFile := by rw [h]
theorem discarded (h : SameButLinks s t) : t.discarded = s.discarded := by rw [h]
theorem derived (h : SameButLinks s t) : t.derived = s.derived := by rw [h]

theorem nameLayer (s : Sheet) (layer : String) : SameButLinks s (s.nameLayer layer) := rfl

theorem addInbound (s : Sheet) (rule : NodeId) : SameButLinks s (s.addInbound rule) := rfl

theorem addParent (s : Sheet) (parent : SheetId) : SameButLinks s (s.addParent parent) := rfl

theorem inheritLayers (s : Sheet) (layers : List String) : SameButLinks s (s.inheritLayers layers) :=
  rfl

theorem foldl_nameLayer (s : Sheet) (layers : List String) :
    SameButLinks s (layers.foldl Sheet.nameLayer s) := by
  induction layers generalizing s with
  | nil => exact refl s
  | cons layer layers ih => exact (nameLayer s layer).trans (ih _)

end SameButLinks

theorem foldl_nameLayer_links (s : Sheet) (layers : List String) :
    (layers.foldl Sheet.nameLayer s).inbound = s.inbound ∧
      (layers.foldl Sheet.nameLayer s).parents = s.parents := by
  induction layers generalizing s with
  | nil => exact ⟨rfl, rfl⟩
  | cons layer layers ih => exact ih (s.nameLayer layer)

theorem mem_foldl_nameLayer (s : Sheet) (layers : List String) (l : String) :
    (l ∈ (layers.foldl Sheet.nameLayer s).namedLayers ↔ l ∈ layers ∨ l ∈ s.namedLayers) ∧
      (l ∈ (layers.foldl Sheet.nameLayer s).layers ↔ l ∈ layers ∨ l ∈ s.layers) := by
  induction layers generalizing s with
  | nil => simp
  | cons layer layers ih =>
    obtain ⟨hn, hl⟩ := ih (s.nameLayer layer)
    rw [List.foldl_cons, hn, hl, nameLayer, Ordered.mem_insert, Ordered.mem_insert, List.mem_cons]
    exact ⟨or_left_comm.trans or_assoc.symm, or_left_comm.trans or_assoc.symm⟩

end Sheet

namespace Workspace

variable {w v : Workspace}

theorem get?_modify (id : SheetId) (change : Sheet → Sheet) (x : SheetId) :
    (w.modify id change).get? x = if x = id then (w.get? x).map change else w.get? x := by
  simp only [modify, get?, Array.getElem?_modify]
  by_cases h : id = x
  · simp [h]
  · simp [h, Ne.symm h]

theorem size_modify (id : SheetId) (change : Sheet → Sheet) :
    (w.modify id change).sheets.size = w.sheets.size := by
  simp [modify]

theorem roots_modify (id : SheetId) {change : Sheet → Sheet}
    (hkeep : ∀ s, (change s).root = s.root) : (w.modify id change).roots = w.roots := by
  refine List.ext_getElem? fun x => ?_
  rw [getElem?_roots, getElem?_roots, get?_modify]
  split
  · rw [Option.map_map]
    exact Option.map_congr fun s _ => hkeep s
  · rfl

/-- The second workspace has the same document and the same stylesheets, linked in its own way. -/
structure SameButLinks (w v : Workspace) : Prop where
  doc : v.doc = w.doc
  size : v.sheets.size = w.sheets.size
  sheet : ∀ id t, v.get? id = some t → ∃ s, w.get? id = some s ∧ s.SameButLinks t

namespace SameButLinks

theorem refl (w : Workspace) : SameButLinks w w :=
  ⟨rfl, rfl, fun _ t ht => ⟨t, ht, Sheet.SameButLinks.refl t⟩⟩

theorem trans {u : Workspace} (h : SameButLinks w v) (h' : SameButLinks v u) : SameButLinks w u where
  doc := h'.doc.trans h.doc
  size := h'.size.trans h.size
  sheet id t ht := by
    obtain ⟨s, hs, hst⟩ := h'.sheet id t ht
    obtain ⟨r, hr, hrs⟩ := h.sheet id s hs
    exact ⟨r, hr, hrs.trans hst⟩

theorem modify (w : Workspace) (id : SheetId) {change : Sheet → Sheet}
    (hsame : ∀ s : Sheet, s.SameButLinks (change s)) : SameButLinks w (w.modify id change) where
  doc := rfl
  size := size_modify id change
  sheet x t ht := by
    rw [get?_modify] at ht
    split at ht
    · obtain ⟨s, hs, rfl⟩ := Option.map_eq_some_iff.mp ht
      exact ⟨s, hs, hsame s⟩
    · exact ⟨t, ht, Sheet.SameButLinks.refl t⟩

variable (h : SameButLinks w v)
include h

theorem get?_of_left {id : SheetId} {s : Sheet} (hs : w.get? id = some s) :
    ∃ t, v.get? id = some t ∧ s.SameButLinks t := by
  obtain ⟨t, ht⟩ := get?_isSome.mpr (h.size ▸ lt_size hs)
  obtain ⟨s', hs', hst⟩ := h.sheet id t ht
  rw [hs] at hs'
  cases hs'
  exact ⟨t, ht, hst⟩

theorem map_eq {β : Type} (read : Sheet → β) (hread : ∀ s t, s.SameButLinks t → read t = read s) :
    v.sheets.map read = w.sheets.map read := by
  refine Array.ext_getElem? fun id => ?_
  rw [Array.getElem?_map, Array.getElem?_map]
  show (v.get? id).map read = (w.get? id).map read
  cases ht : v.get? id with
  | none =>
    have hs : w.get? id = none := by
      cases hs : w.get? id with
      | none => rfl
      | some s =>
        obtain ⟨t, ht', -⟩ := h.get?_of_left hs
        rw [ht] at ht'
        cases ht'
    rw [hs]
  | some t =>
    obtain ⟨s, hs, hst⟩ := h.sheet id t ht
    rw [hs, Option.map_some, Option.map_some, hread s t hst]

theorem roots : v.roots = w.roots := by
  have := congrArg Array.toList (h.map_eq Sheet.root fun _ _ hst => hst.root)
  simpa [Workspace.roots] using this

theorem tidy (ht : w.Tidy) : v.Tidy := by
  rw [Tidy, h.doc, h.roots]
  exact ht

theorem holderOf? (path : FilePath) : v.holderOf? path = w.holderOf? path := by
  have hmap := h.map_eq (fun s => s.holdsFile && s.file == some path.normalize)
    fun s t hst => by rw [hst.holdsFile, hst.file]
  have hfind := congrArg (Array.findIdx? id) hmap
  rw [Array.findIdx?_map, Array.findIdx?_map] at hfind
  exact hfind

theorem sheetOf? (x : NodeId) : v.sheetOf? x = w.sheetOf? x := by
  have hfind : ∀ root, v.sheets.findIdx? (·.root == root) = w.sheets.findIdx? (·.root == root) := by
    intro root
    have hmap := h.map_eq (fun s => s.root == root) fun s t hst => by rw [hst.root]
    have hfind := congrArg (Array.findIdx? id) hmap
    rw [Array.findIdx?_map, Array.findIdx?_map] at hfind
    exact hfind
  unfold Workspace.sheetOf?
  rw [h.doc]
  simp only [hfind]

end SameButLinks

end Workspace

end Strata
