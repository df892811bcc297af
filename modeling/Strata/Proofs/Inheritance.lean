import Mathlib.Order.Bounds.Basic
import Strata.Migration
import Strata.Proofs.Layers
import Strata.Proofs.Ordered

/-! Inheritance as a closure.

Layers that stylesheets have are `Hereditary` when each has those it is named for and all that its
parents have. Inheriting gives every stylesheet the least such layers, and these are what it and its
ancestors are named for; so a second time nothing is new. There is no such end only where a stylesheet
is above itself, and then nothing has changed (`inherits_unless_cyclic`). -/
namespace Strata

/-- Nothing is inherited yet: the layers are the named ones, in order and each once. -/
structure Sheet.Uninherited (s : Sheet) : Prop where
  layers : s.layers = s.namedLayers
  sorted : s.namedLayers.Pairwise fun a b => decide (a < b) = true

namespace Workspace

variable {w v : Workspace} {table : List (List SheetId)}

/-- The layers of a stylesheet, none for an identifier of none. -/
def layersOf (w : Workspace) (id : SheetId) : Set String :=
  {l | ∃ s, w.get? id = some s ∧ l ∈ s.layers}

/-- Every stylesheet has the layers it is named for, and those that a parent of it has. -/
structure Hereditary (w : Workspace) (layers : SheetId → Set String) : Prop where
  named : ∀ id s, w.get? id = some s → ∀ l ∈ s.namedLayers, l ∈ layers id
  handed : ∀ id parent, w.ParentOf id parent → layers parent ⊆ layers id

/-- The second workspace is the first once its layers are inherited. -/
structure Inherits (w v : Workspace) : Prop where
  doc : v.doc = w.doc
  size : v.sheets.size = w.sheets.size
  sheet : ∀ id s, w.get? id = some s → ∃ t, v.get? id = some t ∧
    t = { s with layers := t.layers } ∧ (t.layers.Pairwise fun a b => decide (a < b) = true) ∧
    ∀ l, l ∈ t.layers ↔ l ∈ s.namedLayers ∨
      ∃ top a, w.Above id top ∧ w.get? top = some a ∧ l ∈ a.namedLayers
  least : IsLeast {layers | w.Hereditary layers} v.layersOf
  again : ∃ table, v.inheritLayers = .ok (table, v)

/-! ### Hereditary layers -/

theorem Hereditary.above {layers : SheetId → Set String} (h : w.Hereditary layers) {id top : SheetId}
    (ha : w.Above id top) : layers top ⊆ layers id := by
  induction ha with
  | single hp => exact h.handed _ _ hp
  | tail _ hp ih => exact (h.handed _ _ hp).trans ih

/-- What is named at a stylesheet and at its ancestors is hereditary, and no hereditary layers are
fewer. -/
theorem isLeast_hereditary {layers : SheetId → Set String}
    (hlayers : ∀ id l, l ∈ layers id ↔ (∃ s, w.get? id = some s ∧ l ∈ s.namedLayers) ∨
      ∃ top a, w.Above id top ∧ w.get? top = some a ∧ l ∈ a.namedLayers) :
    IsLeast {layers | w.Hereditary layers} layers := by
  constructor
  · refine ⟨fun id s hs l hl => (hlayers id l).mpr (Or.inl ⟨s, hs, hl⟩), fun id parent hp l hl => ?_⟩
    rw [hlayers]
    right
    rcases (hlayers parent l).mp hl with ⟨a, ha, hl⟩ | ⟨top, a, habove, ha, hl⟩
    · exact ⟨parent, a, .single hp, ha, hl⟩
    · exact ⟨top, a, .head hp habove, ha, hl⟩
  · intro others hothers id l hl
    rcases (hlayers id l).mp hl with ⟨s, hs, hl⟩ | ⟨top, a, habove, ha, hl⟩
    · exact hothers.named id s hs l hl
    · exact hothers.above habove (hothers.named top a ha l hl)

section inherits

variable (h : w.inheritLayers = .ok (table, v)) (hn : ∀ id s, w.get? id = some s → s.Uninherited)
include h hn

theorem mem_layersOf_inheritLayers (id : SheetId) (l : String) : l ∈ v.layersOf id ↔
    (∃ s, w.get? id = some s ∧ l ∈ s.namedLayers) ∨
      ∃ top a, w.Above id top ∧ w.get? top = some a ∧ l ∈ a.namedLayers := by
  have hwhere : ∀ {s t}, w.get? id = some s → v.get? id = some t → (l ∈ t.layers ↔
      l ∈ s.namedLayers ∨ ∃ top a, w.Above id top ∧ w.get? top = some a ∧ l ∈ a.namedLayers) := by
    intro s t hs ht
    rw [mem_layers_inheritLayers h hs ht, (hn id s hs).layers]
  constructor
  · rintro ⟨t, ht, hl⟩
    obtain ⟨s, hs, -⟩ := (sameButLinks_inheritLayers h).sheet id t ht
    exact ((hwhere hs ht).mp hl).imp_left fun hl => ⟨s, hs, hl⟩
  · intro hnamed
    have hid : ∃ s, w.get? id = some s := by
      rcases hnamed with ⟨s, hs, -⟩ | ⟨top, a, habove, -⟩
      · exact ⟨s, hs⟩
      · obtain ⟨p, ⟨s, hs, -⟩, -⟩ := Relation.TransGen.head'_iff.mp habove
        exact ⟨s, hs⟩
    obtain ⟨s, hs⟩ := hid
    obtain ⟨t, ht, -⟩ := (sameButLinks_inheritLayers h).get?_of_left hs
    refine ⟨t, ht, (hwhere hs ht).mpr (hnamed.imp_left ?_)⟩
    rintro ⟨s', hs', hl⟩
    rw [hs] at hs'
    cases hs'
    exact hl

theorem sorted_inheritLayers {id : SheetId} {t : Sheet} (ht : v.get? id = some t) :
    t.layers.Pairwise fun a b => decide (a < b) = true := by
  rw [get?_inheritLayers h] at ht
  obtain ⟨s, hs, rfl⟩ := Option.map_eq_some_iff.mp ht
  refine Ordered.pairwise_insertAll Ordered.total_lt_string ?_ _
  rw [(hn id s hs).layers]
  exact (hn id s hs).sorted

/-- Inheriting does not add to what stylesheets are named for, nor to who their parents are. So what
is inherited again is there. -/
theorem inheritLayers_again : v.inheritLayers = .ok (table, v) := by
  have hlinks : ∀ id, (v.get? id).map (fun s => (s.file, s.parents)) =
      (w.get? id).map fun s => (s.file, s.parents) := by
    intro id
    rw [get?_inheritLayers h, Option.map_map]
    rfl
  have hsize := (sameButLinks_inheritLayers h).size
  have htable : v.ancestorTable = .ok table := by
    have hsame := ancestors_congr hsize hlinks
    rw [← (inheritLayers_cases h).1, ancestorTable, ancestorTable, ids, ids, hsize, hsame]
  have hnamed : v.namedLayersOf = w.namedLayersOf := by
    funext found
    refine List.flatMap_congr fun id _ => ?_
    rw [get?_inheritLayers h, Option.map_map]
    rfl
  unfold inheritLayers
  rw [htable]
  suffices hsheets : v.inheriting table = v.sheets by
    show Except.ok (table, { v with sheets := v.inheriting table }) = _
    rw [hsheets]
  rw [inheriting, hnamed]
  refine Array.ext_getElem? fun id => ?_
  rw [Array.getElem?_mapIdx]
  show (v.get? id).map (Sheet.inheritLayers · (w.namedLayersOf (table.getD id []))) = v.get? id
  cases ht : v.get? id with
  | none => rfl
  | some t =>
    refine congrArg some (congrArg (fun layers => { t with layers }) ?_)
    refine Ordered.insertAll_eq_self Ordered.total_lt_string (sorted_inheritLayers h hn ht) ?_
    intro l hl
    rw [get?_inheritLayers h] at ht
    obtain ⟨s, -, rfl⟩ := Option.map_eq_some_iff.mp ht
    exact (Ordered.mem_insertAll _ _ _ _).mpr (Or.inl hl)

theorem inherits_inheritLayers : w.Inherits v where
  doc := (sameButLinks_inheritLayers h).doc
  size := (sameButLinks_inheritLayers h).size
  sheet id s hs := by
    have ht := get?_inheritLayers h id
    rw [hs] at ht
    refine ⟨_, ht, rfl, sorted_inheritLayers h hn ht, fun l => ?_⟩
    rw [mem_layers_inheritLayers h hs ht, (hn id s hs).layers]
  least := isLeast_hereditary (mem_layersOf_inheritLayers h hn)
  again := ⟨table, inheritLayers_again h hn⟩

end inherits

/-! ### When layers are not inherited -/

/-- A migration that cannot inherit layers stops with what following the imports gave. -/
theorem migrate_of_error {before : Workspace} {settings : Settings} {ts : List Transform}
    {resolve : Resolution} {base : FilePath} {e : MigrationError}
    (hw : (before.connect resolve base).1 = w) (h : w.inheritLayers = .error e) :
    before.migrate settings ts resolve base = (w, .error e) := by
  unfold migrate
  rcases hcon : before.connect resolve base with ⟨u, counts⟩
  rw [hcon] at hw
  obtain rfl : u = w := hw
  simp only [h]

/-- **Inherited layers are the closure of the named ones along parents.** Where every parent is a
stylesheet they are missing exactly when a stylesheet is above itself, and nothing has changed then. -/
theorem inherits_unless_cyclic (hc : w.Closed) (hn : ∀ id s, w.get? id = some s → s.Uninherited) :
    ((∃ chain, w.inheritLayers = .error (.importCycle chain)) ↔ ∃ id, w.Above id id) ∧
    (∀ e, w.inheritLayers = .error e → (∃ chain, e = .importCycle chain) ∧
      ∀ (before : Workspace) settings ts resolve base, (before.connect resolve base).1 = w →
        before.migrate settings ts resolve base = (w, .error e)) ∧
    ((∀ id, ¬ w.Above id id) → ∃ table v, w.inheritLayers = .ok (table, v) ∧ w.Inherits v) := by
  refine ⟨⟨fun ⟨chain, hcycle⟩ => ?_, fun ⟨id, habove⟩ => ?_⟩, fun e he => ⟨?_, ?_⟩, ?_⟩
  · rcases inheritLayers_ends hc with ⟨table, v, hok⟩ | ⟨_, top, -, habove⟩
    · cases hcycle.symm.trans hok
    · exact ⟨top, habove⟩
  · rcases inheritLayers_ends hc with ⟨table, v, hok⟩ | ⟨chain, _, hcycle, -⟩
    · exact (acyclic_of_inheritLayers hok hc id habove).elim
    · exact ⟨chain, hcycle⟩
  · rcases inheritLayers_ends hc with ⟨table, v, hok⟩ | ⟨chain, _, hcycle, -⟩
    · cases he.symm.trans hok
    · cases he.symm.trans hcycle
      exact ⟨chain, rfl⟩
  · exact fun before settings ts resolve base hw => migrate_of_error hw he
  · intro hacyclic
    obtain ⟨table, v, hok⟩ := (inheritLayers_ok_iff hc).mpr hacyclic
    exact ⟨table, v, hok, inherits_inheritLayers hok hn⟩

/-- Two stylesheets that import a third and are imported by a first. -/
def diamond : Workspace where
  sheets := #[
    { Sheet.new none "" ⟨0, 0⟩ with namedLayers := ["theme"], layers := ["theme"] },
    { Sheet.new none "" ⟨1, 0⟩ with
      namedLayers := ["base", "utilities"], layers := ["base", "utilities"], parents := [0] },
    { Sheet.new none "" ⟨2, 0⟩ with parents := [0] },
    { Sheet.new none "" ⟨3, 0⟩ with parents := [1, 2] }]

/-- In a diamond layers are inherited. -/
theorem inherits_in_diamond : diamond.Closed ∧
    (∀ id s, diamond.get? id = some s → s.Uninherited) ∧ (∀ id, ¬ diamond.Above id id) ∧
    ∃ table v, diamond.inheritLayers = .ok (table, v) ∧ diamond.Inherits v := by
  have hread : ∀ id < 4, ∀ s ∈ diamond.get? id, (∀ parent ∈ s.parents, parent < id) ∧
      s.layers = s.namedLayers ∧ s.namedLayers.Pairwise fun a b => decide (a < b) = true := by
    decide
  have hparent : ∀ id parent, diamond.ParentOf id parent → parent < id := by
    rintro id parent ⟨s, hs, hp⟩
    exact (hread id (lt_size hs) s hs).1 parent hp
  have hclosed : diamond.Closed := by
    intro id parent hp
    obtain ⟨s, hs, hmem⟩ := hp
    exact (hparent id parent ⟨s, hs, hmem⟩).trans (lt_size hs)
  have hnamed : ∀ id s, diamond.get? id = some s → s.Uninherited := by
    intro id s hs
    obtain ⟨-, hlayers, hsorted⟩ := hread id (lt_size hs) s hs
    exact ⟨hlayers, hsorted⟩
  have hacyclic : ∀ id, ¬ diamond.Above id id := by
    intro id habove
    have hlt : ∀ top, diamond.Above id top → top < id := by
      intro top h
      induction h with
      | single hp => exact hparent _ _ hp
      | tail _ hp ih => exact (hparent _ _ hp).trans ih
    exact (hlt id habove).false
  exact ⟨hclosed, hnamed, hacyclic, (inherits_unless_cyclic hclosed hnamed).2.2 hacyclic⟩

end Workspace

end Strata
