import Strata.Document.Basic
import Strata.Proofs.Css.Print
import Strata.Proofs.Css.Statement
import Strata.Proofs.Forest.Growth
import Strata.Proofs.Forest.Relocation
import Strata.Proofs.Forest.Removal

/-! Documents made of sheets.

A document is tidy for a list of roots when these are its nodes without parents
and they alone have the form of a root. Every edit that a migration makes keeps
it tidy. A sheet of a tidy document that prints as nothing has nothing below its
root. -/
namespace Strata.Document

open Forest

variable {doc g : Document} {roots : List NodeId}

structure Tidy (doc : Document) (roots : List NodeId) : Prop where
  wellFormed : doc.WellFormed
  nodup : roots.Nodup
  rooted : ∀ x, x ∈ roots ↔ doc.contains x = true ∧ doc.parent? x = none
  form : ∀ x n, doc.get? x = some n → (n.isRoot = true ↔ x ∈ roots)

theorem tidy_empty : Tidy (Forest.empty : Document) [] where
  wellFormed := wellFormed_empty
  nodup := List.nodup_nil
  rooted x := by simp [Forest.contains, Forest.entry?, Forest.empty]
  form x n h := by simp [Forest.get?, Forest.entry?, Forest.empty] at h

namespace Tidy

variable (h : Tidy doc roots)
include h

theorem live {x : NodeId} (hx : x ∈ roots) : doc.contains x = true := ((h.rooted x).mp hx).1

theorem parent?_root {x : NodeId} (hx : x ∈ roots) : doc.parent? x = none := ((h.rooted x).mp hx).2

theorem exists_root {x : NodeId} (hx : doc.contains x = true) :
    ∃ root ∈ roots, doc.Within root x := by
  obtain ⟨root, hr⟩ := h.wellFormed.exists_root? hx
  obtain ⟨-, hw, hn⟩ := h.wellFormed.root?_eq_some.mp hr
  exact ⟨root, (h.rooted root).mpr ⟨h.wellFormed.contains_above hw hx, hn⟩, hw⟩

/-- A node is within one root only. -/
theorem root_unique {x r r' : NodeId} (hr : r ∈ roots) (hr' : r' ∈ roots)
    (hw : doc.Within r x) (hw' : doc.Within r' x) : r = r' :=
  (Within.of_top hw (h.parent?_root hr) hw').eq_of_parent?_eq_none (h.parent?_root hr') |>.symm

theorem exists_parent {x : NodeId} (hx : doc.contains x = true) (hr : x ∉ roots) :
    ∃ p, doc.parent? x = some p := by
  cases hp : doc.parent? x with
  | none => exact absurd ((h.rooted x).mpr ⟨hx, hp⟩) hr
  | some p => exact ⟨p, rfl⟩

theorem not_root_of_parent? {x p : NodeId} (hp : doc.parent? x = some p) : x ∉ roots := by
  intro hx
  rw [h.parent?_root hx] at hp
  cases hp

/-! ### Edits -/

theorem create : Tidy (doc.create .root).2 (roots ++ [(doc.create .root).1]) where
  wellFormed := h.wellFormed.create _
  nodup := by
    refine List.nodup_append.mpr ⟨h.nodup, List.nodup_singleton _, fun a ha b hb heq => ?_⟩
    have hlive := h.live ha
    rw [heq, List.mem_singleton.mp hb, not_contains_created h.wellFormed.stocked] at hlive
    cases hlive
  rooted x := by
    rw [List.mem_append, List.mem_singleton, h.rooted, contains_create h.wellFormed.stocked,
      parent?_create h.wellFormed.stocked]
    constructor
    · rintro (⟨hl, hp⟩ | rfl)
      · exact ⟨Or.inr hl, hp⟩
      · exact ⟨Or.inl rfl, parent?_eq_none (not_contains_created h.wellFormed.stocked _)⟩
    · rintro ⟨rfl | hl, hp⟩
      · exact Or.inr rfl
      · exact Or.inl ⟨hl, hp⟩
  form x n hx := by
    rw [get?_create h.wellFormed.stocked] at hx
    rw [List.mem_append, List.mem_singleton]
    split at hx
    · next heq =>
      cases hx
      exact ⟨fun _ => Or.inr heq, fun _ => rfl⟩
    · next hne =>
      rw [h.form x n hx]
      exact ⟨Or.inl, fun hm => hm.resolve_right hne⟩

/-- New nodes below a live one, none of them the top of a sheet. -/
theorem planted {parent : NodeId} {labels : List Node} (hp : Planted doc g parent labels)
    (hform : ∀ n ∈ labels, n.isRoot = false) : Tidy g roots where
  wellFormed := hp.wellFormed
  nodup := h.nodup
  rooted x := by
    rw [h.rooted]
    constructor
    · intro hboth
      obtain ⟨hl, hn⟩ := hboth
      exact ⟨hp.grown.live x hl, by rw [hp.grown.parent x hl, hn]⟩
    · intro hboth
      obtain ⟨hl, hn⟩ := hboth
      cases hf : doc.contains x with
      | true => exact ⟨rfl, by rw [← hp.grown.parent x hf, hn]⟩
      | false =>
        obtain ⟨⟨p, hpp, -⟩, -⟩ := hp.fresh x hl hf
        rw [hn] at hpp
        cases hpp
  form x n hx := by
    cases hf : doc.contains x with
    | true => exact h.form x n (by rw [← hp.grown.data x hf, hx])
    | false =>
      obtain ⟨-, data, hd, hx'⟩ := hp.fresh x (contains_iff_get?.mpr ⟨n, hx⟩) hf
      rw [hx] at hx'
      cases hx'
      have hout : x ∉ roots := fun hr => by rw [h.live hr] at hf; cases hf
      simp [hform n hd, hout]

theorem gathered {top : NodeId} {nodes lined : List NodeId} (hg : Gathered doc g top nodes lined)
    (hout : ∀ x ∈ nodes, x ∉ roots) : Tidy g roots where
  wellFormed := hg.wellFormed
  nodup := h.nodup
  rooted x := by
    rw [hg.live, hg.parent, h.rooted]
    by_cases hx : x ∈ nodes
    · have hr : x ∉ roots := hout x hx
      rw [h.rooted] at hr
      simpa [hx] using hr
    · simp [hx]
  form x n hx := h.form x n (by rw [← hg.data, hx])

theorem remove (id : NodeId) : Tidy (doc.remove id) (roots.filter (· != id)) where
  wellFormed := h.wellFormed.remove id
  nodup := h.nodup.filter _
  rooted x := by
    rw [List.mem_filter, bne_iff_ne, h.rooted, contains_remove h.wellFormed]
    constructor
    · intro hboth
      obtain ⟨⟨hl, hn⟩, hne⟩ := hboth
      have hx : ¬ doc.Within id x := fun hw => hne (hw.eq_of_parent?_eq_none hn)
      exact ⟨⟨hl, hx⟩, by rw [parent?_remove h.wellFormed id hx, hn]⟩
    · intro hboth
      obtain ⟨⟨hl, hx⟩, hn⟩ := hboth
      rw [parent?_remove h.wellFormed id hx] at hn
      exact ⟨⟨hl, hn⟩, fun heq => hx (heq ▸ Within.refl _)⟩
  form x n hx := by
    have hl := contains_iff_get?.mpr ⟨n, hx⟩
    obtain ⟨-, hw⟩ := (contains_remove h.wellFormed id x).mp hl
    rw [get?_remove h.wellFormed id hw] at hx
    rw [h.form x n hx, List.mem_filter, bne_iff_ne]
    exact ⟨fun hr => ⟨hr, fun heq => hw (heq ▸ Within.refl _)⟩, fun hr => hr.1⟩

/-- No root is among the nodes that go. -/
theorem thinned {gone : NodeId → Prop} (ht : Thinned doc g gone)
    (hdata : ∀ x, g.contains x = true → g.get? x = doc.get? x)
    (hgone : ∀ id, gone id → id ∉ roots) : Tidy g roots where
  wellFormed := ht.wellFormed
  nodup := h.nodup
  rooted x := by
    rw [h.rooted, ht.live]
    constructor
    · intro hboth
      obtain ⟨hl, hn⟩ := hboth
      have hout : ∀ id, gone id → ¬ doc.Within id x := by
        intro id hid hw
        have heq := hw.eq_of_parent?_eq_none hn
        exact hgone id hid (heq ▸ (h.rooted x).mpr ⟨hl, hn⟩)
      exact ⟨⟨hl, hout⟩, by rw [ht.parent x ((ht.live x).mpr ⟨hl, hout⟩), hn]⟩
    · intro hboth
      obtain ⟨hl, hn⟩ := hboth
      rw [ht.parent x ((ht.live x).mpr hl)] at hn
      exact ⟨hl.1, hn⟩
  form x n hx := by
    rw [hdata x (contains_iff_get?.mpr ⟨n, hx⟩)] at hx
    exact h.form x n hx

theorem update (id : NodeId) (change : Node → Node)
    (hkeep : ∀ n, (change n).isRoot = n.isRoot) : Tidy (doc.update id change) roots where
  wellFormed := h.wellFormed.update id change
  nodup := h.nodup
  rooted x := by rw [h.rooted, contains_update, parent?_update]
  form x n hx := by
    rw [get?_update] at hx
    split at hx
    · next heq =>
      obtain ⟨m, hm, rfl⟩ := Option.map_eq_some_iff.mp hx
      rw [hkeep, h.form id m hm, heq]
    · exact h.form x n hx

/-! ### Printed sheets -/

/-- A sheet that prints only blanks has nothing below its root. -/
theorem children_eq_nil_of_blank {root : NodeId} (hr : root ∈ roots)
    (hblank : ¬ Css.Visible (doc.css root)) : doc.children root = [] := by
  obtain ⟨n, hn⟩ := contains_iff_get?.mp (h.live hr)
  have hroot : n.isRoot = true := (h.form root n hn).mpr hr
  by_contra hne
  obtain ⟨c, cs, hc⟩ := List.exists_cons_of_ne_nil hne
  have hmem : c ∈ doc.children root := hc ▸ List.mem_cons_self ..
  have hparent := (h.wellFormed.listed c root).mp hmem
  obtain ⟨m, hm⟩ := contains_iff_get?.mp (contains_of_parent? hparent)
  have hform : m.isRoot = false := by
    cases hf : m.isRoot with
    | false => rfl
    | true => exact absurd ((h.form c m hm).mp hf) (h.not_root_of_parent? hparent)
  -- There is a slot, so the reading below the root gets to its first child.
  obtain ⟨e, he⟩ := contains_iff.mp (contains_of_parent? hparent)
  obtain ⟨k, hk⟩ := Nat.exists_eq_succ_of_ne_zero (Nat.pos_iff_ne_zero.mp (Nat.zero_lt_of_lt (slot_lt_size he)))
  apply hblank
  simp only [css, hn, hroot, if_true, grove, hk, hc, Css.print]
  simp only [groveOf, List.foldr_cons, hm]
  exact Css.visible_printAt 0 m _ _ hform

end Tidy

end Strata.Document
