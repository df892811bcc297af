import Strata.ImportGraph
import Strata.Proofs.Workspace.Links

/-! What following imports leaves at the stylesheets.

An edge of the import graph goes from a stylesheet along one of its outermost
imports to the stylesheet that this leads to. Following all imports writes
exactly the edges down at their targets (`linked_connect`). -/
namespace Strata.Workspace

variable {w v : Workspace} {resolve : Resolution} {base : FilePath}

theorem SameButLinks.destination (h : SameButLinks w v) (resolve : Resolution) (dir : FilePath)
    (rule : NodeId) : v.destination resolve dir rule = w.destination resolve dir rule := by
  unfold Workspace.destination
  rw [h.doc]
  simp only [h.holderOf?]

/-- An outermost import of `x` that leads to `y` and names some layers. -/
def Edge (w : Workspace) (resolve : Resolution) (base : FilePath) (x y : SheetId) (rule : NodeId)
    (layers : List String) : Prop :=
  ∃ s, w.get? x = some s ∧ rule ∈ w.doc.imports s.root ∧
    w.destination resolve (s.dir?.getD base) rule = .sheet y layers

/-- Some edges are written down in `v`, and nothing else is new there. -/
structure Linked (w v : Workspace) (edge : SheetId → SheetId → NodeId → List String → Prop) :
    Prop where
  same : SameButLinks w v
  inbound : ∀ y t, v.get? y = some t → ∀ rule, rule ∈ t.inbound ↔ ∃ x layers, edge x y rule layers
  parents : ∀ y t, v.get? y = some t → ∀ x, x ∈ t.parents ↔ ∃ rule layers, edge x y rule layers
  named : ∀ y t, v.get? y = some t → ∀ l,
    l ∈ t.namedLayers ↔ ∃ x rule layers, edge x y rule layers ∧ l ∈ layers
  layers : ∀ y t, v.get? y = some t → ∀ l, l ∈ t.layers ↔ l ∈ t.namedLayers

namespace Linked

variable {edge : SheetId → SheetId → NodeId → List String → Prop}

theorem congr {edge' : SheetId → SheetId → NodeId → List String → Prop} (h : Linked w v edge)
    (heq : ∀ x y rule layers, edge' x y rule layers ↔ edge x y rule layers) : Linked w v edge' := by
  have : edge' = edge := by
    funext x y rule layers
    exact propext (heq x y rule layers)
  rw [this]
  exact h

theorem fresh (h : w.Fresh) : Linked w w fun _ _ _ _ => False where
  same := SameButLinks.refl w
  inbound y t ht rule := by simp [(h.sheet y t ht).inbound]
  parents y t ht x := by simp [(h.sheet y t ht).parents]
  named y t ht l := by simp [(h.sheet y t ht).namedLayers]
  layers y t ht l := by simp [(h.sheet y t ht).layers, (h.sheet y t ht).namedLayers]

/-- One more import is kept. -/
theorem keepImport (h : Linked w v edge) (x : SheetId) (rule : NodeId) (found : Destination) :
    Linked w (v.keepImport x rule found) fun a y r ls =>
      edge a y r ls ∨ (a = x ∧ r = rule ∧ found = .sheet y ls) := by
  cases found with
  | sheet target ls =>
    have hsame : ∀ s : Sheet, s.SameButLinks
        (ls.foldl Sheet.nameLayer ((s.addInbound rule).addParent x)) := fun s =>
      (Sheet.SameButLinks.addInbound s rule).trans
        ((Sheet.SameButLinks.addParent _ x).trans (Sheet.SameButLinks.foldl_nameLayer _ ls))
    have hcases : ∀ y t, (v.keepImport x rule (.sheet target ls)).get? y = some t →
        (y = target ∧ ∃ s, v.get? y = some s ∧
          t = ls.foldl Sheet.nameLayer ((s.addInbound rule).addParent x)) ∨
        (y ≠ target ∧ v.get? y = some t) := by
      intro y t ht
      rw [Workspace.keepImport, get?_modify] at ht
      split at ht
      · next heq =>
        obtain ⟨s, hs, rfl⟩ := Option.map_eq_some_iff.mp ht
        exact Or.inl ⟨heq, s, hs, rfl⟩
      · next hne => exact Or.inr ⟨hne, ht⟩
    refine ⟨h.same.trans (SameButLinks.modify v target hsame), fun y t ht r => ?_,
      fun y t ht a => ?_, fun y t ht l => ?_, fun y t ht l => ?_⟩
    · rcases hcases y t ht with ⟨rfl, s, hs, rfl⟩ | ⟨hne, ht⟩
      · rw [(Sheet.foldl_nameLayer_links _ ls).1]
        show r ∈ Ordered.insert NodeId.before rule s.inbound ↔ _
        rw [Ordered.mem_insert, h.inbound y s hs]
        constructor
        · rintro (rfl | ⟨a, ls', he⟩)
          · exact ⟨x, ls, Or.inr ⟨rfl, rfl, rfl⟩⟩
          · exact ⟨a, ls', Or.inl he⟩
        · rintro ⟨a, ls', he | ⟨-, rfl, -⟩⟩
          · exact Or.inr ⟨a, ls', he⟩
          · exact Or.inl rfl
      · rw [h.inbound y t ht]
        simp [Ne.symm hne]
    · rcases hcases y t ht with ⟨rfl, s, hs, rfl⟩ | ⟨hne, ht⟩
      · rw [(Sheet.foldl_nameLayer_links _ ls).2]
        show a ∈ Ordered.insert (· < ·) x s.parents ↔ _
        rw [Ordered.mem_insert, h.parents y s hs]
        constructor
        · rintro (rfl | ⟨r, ls', he⟩)
          · exact ⟨rule, ls, Or.inr ⟨rfl, rfl, rfl⟩⟩
          · exact ⟨r, ls', Or.inl he⟩
        · rintro ⟨r, ls', he | ⟨rfl, -, -⟩⟩
          · exact Or.inr ⟨r, ls', he⟩
          · exact Or.inl rfl
      · rw [h.parents y t ht]
        simp [Ne.symm hne]
    · rcases hcases y t ht with ⟨rfl, s, hs, rfl⟩ | ⟨hne, ht⟩
      · rw [(Sheet.mem_foldl_nameLayer _ ls l).1]
        show l ∈ ls ∨ l ∈ s.namedLayers ↔ _
        rw [h.named y s hs]
        constructor
        · rintro (hl | ⟨a, r, ls', he, hl⟩)
          · exact ⟨x, rule, ls, Or.inr ⟨rfl, rfl, rfl⟩, hl⟩
          · exact ⟨a, r, ls', Or.inl he, hl⟩
        · rintro ⟨a, r, ls', he | ⟨-, -, he⟩, hl⟩
          · exact Or.inr ⟨a, r, ls', he, hl⟩
          · cases he
            exact Or.inl hl
      · rw [h.named y t ht]
        simp [Ne.symm hne]
    · rcases hcases y t ht with ⟨rfl, s, hs, rfl⟩ | ⟨hne, ht⟩
      · rw [(Sheet.mem_foldl_nameLayer _ ls l).1, (Sheet.mem_foldl_nameLayer _ ls l).2]
        exact or_congr_right (h.layers y s hs l)
      · exact h.layers y t ht l
  | _ => exact h.congr (by simp)

/-- Some imports of one stylesheet are followed. -/
theorem followImport (h : Linked w v edge) (x : SheetId) (dir : FilePath)
    (counts : DestinationCounts) (rules : List NodeId) :
    Linked w (rules.foldl (Workspace.followImport resolve x dir) (v, counts)).1 fun a y r ls =>
      edge a y r ls ∨ (a = x ∧ r ∈ rules ∧ w.destination resolve dir r = .sheet y ls) := by
  induction rules generalizing v counts edge with
  | nil => exact h.congr (by simp)
  | cons rule rules ih =>
    have hstep : Linked w (Workspace.followImport resolve x dir (v, counts) rule).1
        fun a y r ls => edge a y r ls ∨
          (a = x ∧ r = rule ∧ w.destination resolve dir rule = .sheet y ls) := by
      rw [← h.same.destination]
      exact h.keepImport x rule (v.destination resolve dir rule)
    rw [List.foldl_cons]
    refine (ih hstep _).congr fun a y r ls => ?_
    simp only [List.mem_cons]
    constructor
    · rintro (he | ⟨ha, rfl | hr, hd⟩)
      · exact Or.inl (Or.inl he)
      · exact Or.inl (Or.inr ⟨ha, rfl, hd⟩)
      · exact Or.inr ⟨ha, hr, hd⟩
    · rintro ((he | ⟨ha, rfl, hd⟩) | ⟨ha, hr, hd⟩)
      · exact Or.inl he
      · exact Or.inr ⟨ha, Or.inl rfl, hd⟩
      · exact Or.inr ⟨ha, Or.inr hr, hd⟩

/-- The imports of some stylesheets are followed. -/
theorem followImports (h : Linked w v edge) (counts : DestinationCounts) (ids : List SheetId) :
    Linked w (ids.foldl (Workspace.followImports resolve base) (v, counts)).1 fun x y r ls =>
      edge x y r ls ∨ (x ∈ ids ∧ w.Edge resolve base x y r ls) := by
  induction ids generalizing v counts edge with
  | nil => exact h.congr (by simp)
  | cons id ids ih =>
    rw [List.foldl_cons]
    have hstep : Linked w (Workspace.followImports resolve base (v, counts) id).1 fun x y r ls =>
        edge x y r ls ∨ (x = id ∧ w.Edge resolve base x y r ls) := by
      unfold Workspace.followImports
      cases ht : v.get? id with
      | none =>
        refine h.congr fun x y r ls => or_iff_left ?_
        rintro ⟨rfl, s, hs, -⟩
        obtain ⟨t, ht', -⟩ := h.same.get?_of_left hs
        rw [ht] at ht'
        cases ht'
      | some t =>
        obtain ⟨s, hs, hst⟩ := h.same.sheet id t ht
        have hdir : t.dir? = s.dir? := Sheet.dir?_congr hst.file
        refine (h.followImport id (t.dir?.getD base) counts _).congr fun x y r ls => ?_
        refine or_congr_right (and_congr_right ?_)
        rintro rfl
        rw [h.same.doc, hst.root, hdir, Edge]
        constructor
        · intro hex
          obtain ⟨s', hs', hr, hd⟩ := hex
          rw [hs] at hs'
          cases hs'
          exact ⟨hr, hd⟩
        · intro hboth
          obtain ⟨hr, hd⟩ := hboth
          exact ⟨s, hs, hr, hd⟩
    refine (ih hstep _).congr fun x y r ls => ?_
    rw [List.mem_cons, or_assoc, or_and_right]

end Linked

/-- **Following all imports writes down exactly the edges.** -/
theorem linked_connect (h : w.Fresh) (resolve : Resolution) (base : FilePath) :
    Linked w (w.connect resolve base).1 (w.Edge resolve base) := by
  refine ((Linked.fresh h).followImports {} w.ids).congr fun x y r ls => ?_
  rw [false_or]
  refine ⟨fun he => ⟨?_, he⟩, fun he => he.2⟩
  obtain ⟨s, hs, -⟩ := he
  exact List.mem_range.mpr (lt_size hs)

end Strata.Workspace
