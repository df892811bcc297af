import Strata.Forest.Basic
import Mathlib.Data.List.Nodup
import Mathlib.Data.List.Perm.Subperm

/-! What each operation does to the entries of a forest.

Every reading goes through `entry?`, so one lemma for each operation says which
identifiers it changes and how. The parent, the children and the data of a node
follow from its entry. `Stocked` is what the free slots owe: they are empty, and
no slot is free twice. -/
namespace Strata

theorem NodeId.ext_slot {a b : NodeId} (hs : a.slot = b.slot) (hv : a.version = b.version) :
    a = b := by
  cases a
  cases b
  simp_all

namespace Forest

variable {α : Type}

theorem entry?_eq_some {f : Forest α} {id : NodeId} {e : Entry α} :
    f.entry? id = some e ↔ f.slots[id.slot]? = some (some e) ∧ e.version = id.version := by
  simp only [ entry?, Option.filter_eq_some_iff, Option.join_eq_some_iff, beq_iff_eq]

/-- Two live identifiers with one slot are one identifier. -/
theorem eq_of_slot_eq {f : Forest α} {a b : NodeId} {d e : Entry α} (ha : f.entry? a = some d)
    (hb : f.entry? b = some e) (h : a.slot = b.slot) : a = b := by
  obtain ⟨hsa, hva⟩ := entry?_eq_some.mp ha
  obtain ⟨hsb, hvb⟩ := entry?_eq_some.mp hb
  rw [h, hsb] at hsa
  have hde : e = d := by simpa using hsa
  exact NodeId.ext_slot h (by rw [← hva, ← hvb, hde])

theorem slot_lt_size {f : Forest α} {id : NodeId} {e : Entry α} (h : f.entry? id = some e) :
    id.slot < f.slots.size :=
  (Array.getElem?_eq_some_iff.mp (entry?_eq_some.mp h).1).1

/-- The data of all live nodes. -/
def stock (f : Forest α) : List α := f.slots.toList.filterMap fun e => e.map Entry.data

theorem mem_stock {f : Forest α} {data : α} : data ∈ f.stock ↔ ∃ id, f.get? id = some data := by
  simp only [stock, List.mem_filterMap, get?, Option.map_eq_some_iff]
  constructor
  · intro hex
    obtain ⟨_, hslot, e, rfl, rfl⟩ := hex
    obtain ⟨slot, hslot⟩ := Array.mem_iff_getElem?.mp (Array.mem_toList_iff.mp hslot)
    exact ⟨⟨slot, e.version⟩, e, entry?_eq_some.mpr ⟨hslot, rfl⟩, rfl⟩
  · intro hex
    obtain ⟨id, e, he, rfl⟩ := hex
    have hslot := (entry?_eq_some.mp he).1
    exact ⟨some e, Array.mem_toList_iff.mpr (Array.mem_of_getElem? hslot), e, rfl, rfl⟩

/-- No more nodes live than there are slots. -/
theorem length_le_of_live {f : Forest α} {ids : List NodeId} (hn : ids.Nodup)
    (hl : ∀ id ∈ ids, f.contains id = true) : ids.length ≤ f.slots.size := by
  have hinj : ∀ a ∈ ids, ∀ b ∈ ids, a.slot = b.slot → a = b := by
    intro a ha b hb h
    obtain ⟨d, hd⟩ := Option.isSome_iff_exists.mp (hl a ha)
    obtain ⟨e, he⟩ := Option.isSome_iff_exists.mp (hl b hb)
    exact eq_of_slot_eq hd he h
  have hmap : (ids.map NodeId.slot).Nodup := List.Nodup.map_on hinj hn
  have hsub : ids.map NodeId.slot ⊆ List.range f.slots.size := by
    intro s hs
    obtain ⟨id, hid, rfl⟩ := List.mem_map.mp hs
    obtain ⟨e, he⟩ := Option.isSome_iff_exists.mp (hl id hid)
    exact List.mem_range.mpr (slot_lt_size he)
  have hle := (hmap.subperm hsub).length_le
  simpa using hle

/-! ### Free slots -/

/-- The free slots are empty, and none is listed twice. -/
structure Stocked (f : Forest α) : Prop where
  vacant : ∀ id ∈ f.free, f.slots[id.slot]? = some none
  apart : (f.free.map NodeId.slot).Nodup

theorem stocked_empty : Stocked (empty : Forest α) :=
  ⟨fun _ h => absurd h (List.not_mem_nil), List.nodup_nil⟩

/-- The entry of any identifier once one slot is overwritten. -/
theorem entry?_put (f : Forest α) (slot : Nat) (v : Option (Entry α)) (free : List NodeId)
    (hin : slot < f.slots.size) (x : NodeId) :
    entry? ({ slots := f.slots.setIfInBounds slot v, free } : Forest α) x =
      if x.slot = slot then v.filter (·.version == x.version) else f.entry? x := by
  simp only [ entry?, Array.getElem?_setIfInBounds, hin, if_true]
  by_cases h : slot = x.slot
  · simp [h]
  · simp [h, Ne.symm h]

/-! ### Changing an entry -/

theorem entry?_modify (f : Forest α) (id : NodeId) (change : Entry α → Entry α)
    (keeps : ∀ e, (change e).version = e.version) (x : NodeId) :
    entry? (f.modify id change) x = if x = id then (f.entry? id).map change else f.entry? x := by
  unfold modify
  split
  · next e he =>
    obtain ⟨hs, hv⟩ := entry?_eq_some.mp he
    rw [ entry?_put f id.slot _ _ (slot_lt_size he)]
    by_cases hx : x = id
    · subst hx
      simp [he, keeps, hv]
    · rw [if_neg hx]
      split
      · next hslot =>
        -- The slot is the other one's, so neither entry answers to `x`.
        have hne : e.version ≠ x.version := fun h =>
          hx (NodeId.ext_slot hslot (by rw [← h, hv]))
        have hnone : f.entry? x = none := by
          simp [ entry?, hslot, hs, hne]
        simp [hnone, keeps, hne]
      · rfl
  · next he =>
    by_cases hx : x = id
    · subst hx
      simp [he]
    · simp [hx]

theorem Stocked.modify {f : Forest α} (h : Stocked f) (id : NodeId)
    (change : Entry α → Entry α) : Stocked (f.modify id change) := by
  unfold Forest.modify
  split
  · next e he =>
    refine ⟨fun x hx => ?_, h.apart⟩
    have hslot : id.slot ≠ x.slot := by
      intro heq
      have := h.vacant x hx
      rw [← heq, (entry?_eq_some.mp he).1] at this
      simp at this
    simpa [Array.getElem?_setIfInBounds, hslot] using h.vacant x hx
  · exact h

/-! ### Making and freeing a node -/

theorem create_fresh {f : Forest α} (h : Stocked f) (data : α) :
    f.entry? (f.create data).1 = none := by
  unfold create
  split
  · next id free hfree =>
    simp [ entry?, h.vacant id (by rw [hfree]; exact List.mem_cons_self ..)]
  · simp [ entry?]

theorem entry?_create {f : Forest α} (h : Stocked f) (data : α) (x : NodeId) :
    entry? (f.create data).2 x =
      if x = (f.create data).1 then some ⟨(f.create data).1.version, data, none, []⟩
      else f.entry? x := by
  have hfresh := create_fresh h data
  unfold create at hfresh ⊢
  split at hfresh
  · next id free hfree =>
    simp only at hfresh ⊢
    have hempty := h.vacant id (by rw [hfree]; exact List.mem_cons_self ..)
    have hin : id.slot < f.slots.size := (Array.getElem?_eq_some_iff.mp hempty).1
    rw [ entry?_put f id.slot _ free hin]
    by_cases hx : x = id
    · simp [hx]
    · rw [if_neg hx]
      split
      · next hslot =>
        have hne : id.version ≠ x.version := fun h => hx (NodeId.ext_slot hslot h.symm)
        simp [ entry?, hslot, hempty, hne]
      · rfl
  · simp only [ entry?, Array.getElem?_push] at hfresh ⊢
    by_cases hx : x = ⟨f.slots.size, 0⟩
    · simp [hx]
    · rw [if_neg hx]
      by_cases hs : x.slot = f.slots.size
      · have hv : x.version ≠ 0 := fun hv => hx (NodeId.ext_slot hs hv)
        simp [hs, Ne.symm hv]
      · simp [hs]

theorem Stocked.create {f : Forest α} (h : Stocked f) (data : α) :
    Stocked (f.create data).2 := by
  unfold Forest.create
  split
  · next id free hfree =>
    have hapart := h.apart
    rw [hfree, List.map_cons, List.nodup_cons] at hapart
    refine ⟨fun x hx => ?_, hapart.2⟩
    have hslot : id.slot ≠ x.slot := fun heq =>
      hapart.1 (heq ▸ List.mem_map_of_mem hx)
    have := h.vacant x (by rw [hfree]; exact List.mem_cons_of_mem _ hx)
    simpa [Array.getElem?_setIfInBounds, hslot] using this
  · next hfree =>
    refine ⟨fun x hx => ?_, ?_⟩
    · simp [hfree] at hx
    · simp [hfree]

theorem entry?_release {f : Forest α} (id x : NodeId) :
    entry? (f.release id) x = if x = id then none else f.entry? x := by
  unfold release
  split
  · next e he =>
    obtain ⟨hs, hv⟩ := entry?_eq_some.mp he
    rw [ entry?_put f id.slot none _ (slot_lt_size he)]
    by_cases hx : x = id
    · simp [hx]
    · rw [if_neg hx]
      split
      · next hslot =>
        have hne : e.version ≠ x.version := fun h =>
          hx (NodeId.ext_slot hslot (by rw [← h, hv]))
        have hnone : f.entry? x = none := by
          simp [ entry?, hslot, hs, hne]
        simp [hnone]
      · rfl
  · next he =>
    by_cases hx : x = id
    · simp [hx, he]
    · simp [hx]

theorem Stocked.release {f : Forest α} (h : Stocked f) (id : NodeId) : Stocked (f.release id) := by
  unfold Forest.release
  split
  · next e he =>
    obtain ⟨hs, -⟩ := entry?_eq_some.mp he
    have hout : id.slot ∉ f.free.map NodeId.slot := by
      intro hm
      obtain ⟨x, hx, hslot⟩ := List.mem_map.mp hm
      have := h.vacant x hx
      rw [hslot, hs] at this
      simp at this
    refine ⟨fun x hx => ?_, by simpa using ⟨by simpa using hout, h.apart⟩⟩
    rcases List.mem_cons.mp hx with rfl | hx
    · simp [slot_lt_size he]
    · have hslot : id.slot ≠ x.slot := fun heq => hout (heq ▸ List.mem_map_of_mem hx)
      simpa [Array.getElem?_setIfInBounds, hslot] using h.vacant x hx
  · exact h

end Forest

end Strata
