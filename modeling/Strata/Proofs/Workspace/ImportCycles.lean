import Mathlib.Data.List.Chain
import Strata.Proofs.Workspace.Ancestors

/-! What a search for ancestors reports, and what it cannot miss.

The stylesheets that a search names when it meets one of its own path are a `Round`: each is a parent
of the next, and the last is the first. No cycle is missed: a stylesheet that the search is done with
has only parents that it is done with, and none of them is above itself (`Finished`). So the ancestors
of a stylesheet are found, each once, exactly when no cycle is above it (`ancestors_exact`). -/
namespace Strata.Workspace

variable {w : Workspace} {path parents seen found : List SheetId} {parent id : SheetId}
  {result : Except MigrationError (List SheetId)}

/-! ### Rounds of imports -/

/-- Stylesheets each of which is a parent of the next, from one of them back to it. -/
structure Round (w : Workspace) (ids : List SheetId) : Prop where
  long : 2 ≤ ids.length
  closed : ids.head? = ids.getLast?
  apart : ids.dropLast.Nodup
  linked : ids.IsChain fun importer imported => w.ParentOf imported importer

/-- A stylesheet that is above itself is `id` or above it. -/
def LeadsToCycle (w : Workspace) (id : SheetId) : Prop :=
  ∃ top, Relation.ReflTransGen w.ParentOf id top ∧ w.Above top top

theorem prefix_of_mem {a : SheetId} {ids : List SheetId} (h : a ∈ ids) :
    ids.takeWhile (· != a) ++ [a] <+: ids := by
  induction ids with
  | nil => cases h
  | cons b ids ih =>
    by_cases hb : b = a
    · subst hb
      simp
    · have hpass : (b != a) = true := bne_iff_ne.mpr hb
      rw [List.takeWhile_cons, if_pos hpass, List.cons_append, List.prefix_cons_inj]
      exact ih ((List.mem_cons.mp h).resolve_left (Ne.symm hb))

/-- A parent on the path closes a round. -/
theorem Trail.round (h : Trail w path (parent :: parents)) (hpath : parent ∈ path) :
    w.Round (parent :: (path.takeWhile (· != parent) ++ [parent])) where
  long := by simp
  closed := by rw [← List.cons_append, List.getLast?_concat, List.cons_append, List.head?_cons]
  apart := by
    have hnot : parent ∉ path.takeWhile (· != parent) := fun hm =>
      bne_iff_ne.mp (List.mem_takeWhile_imp (p := (· != parent)) hm) rfl
    rw [← List.cons_append, List.dropLast_concat]
    exact List.nodup_cons.mpr ⟨hnot, h.nodup.sublist (List.takeWhile_sublist _)⟩
  linked := by
    obtain ⟨rest, hrest⟩ := prefix_of_mem hpath
    have hlinked := h.linked parent (List.mem_cons_self ..)
    rw [← hrest, ← List.cons_append] at hlinked
    exact hlinked.left_of_append

/-- The error of a search names a round that is above all of the path. -/
theorem Searches.round (h : w.Searches path parents seen result) (hc : w.Closed)
    (ht : Trail w path parents) (hvalid : ∀ p ∈ parents, p < w.sheets.size) (hid : id ∈ path)
    {e : MigrationError} (he : result = .error e) :
    ∃ top ids, e = .importCycle (ids.map fun a => (w.get? a).bind Sheet.file) ∧ w.Round ids ∧
      w.Above id top ∧ w.Above top top := by
  induction h with
  | done => cases he
  | closes hpath =>
    cases he
    exact ⟨_, _, rfl, ht.round hpath, ht.above hid, ht.above hpath⟩
  | known _ _ _ ih => exact ih ht.tail (fun p hp => hvalid p (List.mem_cons_of_mem _ hp)) hid he
  | @missing _ _ _ parent _ _ hnone =>
    obtain ⟨s, hs⟩ := get?_isSome.mpr (hvalid parent (List.mem_cons_self ..))
    cases hnone.symm.trans hs
  | @fails _ _ _ parent s _ hpath _ hs _ ih =>
    exact ih (ht.inner hpath hs) (fun p hp => hc parent p ⟨s, hs, hp⟩) (List.mem_cons_of_mem _ hid) he
  | visits _ _ _ _ _ _ ih =>
    exact ih ht.tail (fun p hp => hvalid p (List.mem_cons_of_mem _ hp)) hid he

/-! ### What is done with -/

/-- The search is done with the stylesheets it has seen, those of its path apart. -/
structure Finished (w : Workspace) (path seen : List SheetId) : Prop where
  closed : ∀ v ∈ seen, v ∉ path → ∀ p, w.ParentOf v p → p ∈ seen ∧ p ∉ path
  acyclic : ∀ v ∈ seen, v ∉ path → ¬ w.Above v v

namespace Finished

theorem nil (w : Workspace) (path : List SheetId) : Finished w path [] := by
  constructor <;> exact fun v hv => absurd hv List.not_mem_nil

/-- All above a stylesheet that is done with is done with. -/
theorem above (h : Finished w path seen) {v top : SheetId} (hv : v ∈ seen) (hpath : v ∉ path)
    (ha : w.Above v top) : top ∈ seen ∧ top ∉ path := by
  induction ha with
  | single hp => exact h.closed v hv hpath _ hp
  | tail _ hp ih => exact h.closed _ ih.1 ih.2 _ hp

/-- One more stylesheet is seen and gets onto the path. -/
theorem enter (h : Finished w path seen) (hseen : parent ∉ seen) :
    Finished w (parent :: path) (seen ++ [parent]) := by
  have hold : ∀ v ∈ seen ++ [parent], v ∉ parent :: path → v ∈ seen ∧ v ∉ path := by
    intro v hv hpath
    rw [List.mem_cons, not_or] at hpath
    exact ⟨(List.mem_append.mp hv).resolve_right fun hm => hpath.1 (List.mem_singleton.mp hm),
      hpath.2⟩
  refine ⟨fun v hv hpath p hp => ?_, fun v hv hpath => ?_⟩
  · obtain ⟨hv, hpath⟩ := hold v hv hpath
    obtain ⟨hpseen, hppath⟩ := h.closed v hv hpath p hp
    refine ⟨List.mem_append_left _ hpseen, fun hm => hppath ((List.mem_cons.mp hm).resolve_left ?_)⟩
    rintro rfl
    exact hseen hpseen
  · obtain ⟨hv, hpath⟩ := hold v hv hpath
    exact h.acyclic v hv hpath

/-- A stylesheet leaves the path once all above it has been visited. None of that is on the path, so
it is not above itself. -/
theorem leave {s : Sheet} (h : Finished w (parent :: path) found) (hs : w.get? parent = some s)
    (hmet : ∀ p ∈ s.parents, p ∈ found ∧ p ∉ parent :: path) : Finished w path found := by
  have hparents : ∀ p, w.ParentOf parent p → p ∈ found ∧ p ∉ parent :: path := by
    rintro p ⟨t, ht, hp⟩
    cases hs.symm.trans ht
    exact hmet p hp
  refine ⟨fun v hv hpath p hp => ?_, fun v hv hpath ha => ?_⟩
  · have hout : p ∈ found ∧ p ∉ parent :: path := by
      by_cases hvp : v = parent
      · exact hparents p (hvp ▸ hp)
      · exact h.closed v hv (by simp [hvp, hpath]) p hp
    exact ⟨hout.1, fun hm => hout.2 (List.mem_cons_of_mem _ hm)⟩
  · by_cases hvp : v = parent
    · subst hvp
      obtain ⟨p, hp, hrest⟩ := Relation.TransGen.head'_iff.mp ha
      obtain ⟨hpfound, hppath⟩ := hparents p hp
      rcases Relation.reflTransGen_iff_eq_or_transGen.mp hrest with rfl | hback
      · exact hppath (List.mem_cons_self ..)
      · exact (h.above hpfound hppath hback).2 (List.mem_cons_self ..)
    · exact h.acyclic v hv (by simp [hvp, hpath]) ha

end Finished

/-- Whatever a search that ends well has seen, it is done with, and has it once. -/
theorem Searches.finished (h : w.Searches path parents seen (.ok found)) (hf : Finished w path seen)
    (hn : seen.Nodup) : Finished w path found ∧ found.Nodup := by
  generalize hr : Except.ok found = result at h
  induction h generalizing found with
  | done =>
    cases hr
    exact ⟨hf, hn⟩
  | closes | missing | fails => cases hr
  | known _ _ _ ih => exact ih hf hn hr
  | visits _ hseen hs hi _ ihi iho =>
    have hfresh := List.nodup_append'.mpr
      ⟨hn, List.nodup_singleton _, List.disjoint_singleton.mpr hseen⟩
    obtain ⟨hfinished, hnodup⟩ := ihi (hf.enter hseen) hfresh rfl
    exact iho (hfinished.leave hs hi.climbed.met) hnodup hr

/-- A search that ends well has met no cycle. -/
theorem not_leadsToCycle (hc : w.Closed) (h : w.ancestors id = .ok found) :
    ¬ w.LeadsToCycle id := by
  rintro ⟨top, hreach, hcycle⟩
  have hself : ¬ w.Above id id := fun ha => (mem_ancestors_of_above h ha).2 rfl
  rcases Relation.reflTransGen_iff_eq_or_transGen.mp hreach with rfl | habove
  · exact hself hcycle
  · obtain ⟨s, hs, -⟩ := climbed_ancestors h
    have hsearch := searches_ancestors hc hs
    rw [h] at hsearch
    obtain ⟨hfinished, -⟩ := hsearch.finished (.nil w _) List.nodup_nil
    obtain ⟨hfound, hne⟩ := mem_ancestors_of_above h habove
    exact hfinished.acyclic top hfound (by simpa using hne) hcycle

/-- **The search for ancestors is exact.** It comes to an end. It fails exactly when a cycle is `id` or
above it, and then names a round of parents; otherwise it finds what is above `id`, each once. -/
theorem ancestors_exact (hc : w.Closed) (hid : id < w.sheets.size) :
    (∃ s, w.get? id = some s ∧ w.Searches [id] s.parents [] (w.ancestors id)) ∧
    ((∃ chain, w.ancestors id = .error (.importCycle chain)) ↔ w.LeadsToCycle id) ∧
    (∀ e, w.ancestors id = .error e →
      ∃ ids, e = .importCycle (ids.map fun a => (w.get? a).bind Sheet.file) ∧ w.Round ids) ∧
    (¬ w.LeadsToCycle id → ∃ found, w.ancestors id = .ok found) ∧
    ∀ found, w.ancestors id = .ok found →
      found.Nodup ∧ id ∉ found ∧ ∀ top, top ∈ found ↔ w.Above id top := by
  obtain ⟨s, hs⟩ := get?_isSome.mpr hid
  have hsearch := searches_ancestors hc hs
  have hround : ∀ e, w.ancestors id = .error e → ∃ top ids,
      e = .importCycle (ids.map fun a => (w.get? a).bind Sheet.file) ∧ w.Round ids ∧
        w.Above id top ∧ w.Above top top := fun e he =>
    hsearch.round hc (.start hs) (fun p hp => hc id p ⟨s, hs, hp⟩) (List.mem_singleton_self id) he
  have hok : ¬ w.LeadsToCycle id → ∃ found, w.ancestors id = .ok found := by
    intro hno
    cases hres : w.ancestors id with
    | ok found => exact ⟨found, rfl⟩
    | error e =>
      obtain ⟨top, -, -, -, habove, hcycle⟩ := hround e hres
      exact (hno ⟨top, habove.to_reflTransGen, hcycle⟩).elim
  refine ⟨⟨s, hs, hsearch⟩, ⟨fun ⟨chain, he⟩ => ?_, fun hleads => ?_⟩, fun e he => ?_, hok,
    fun found hfound => ⟨?_, fun hm => ?_, fun top => mem_ancestors hfound⟩⟩
  · obtain ⟨top, -, -, -, habove, hcycle⟩ := hround _ he
    exact ⟨top, habove.to_reflTransGen, hcycle⟩
  · cases hres : w.ancestors id with
    | ok found => exact (not_leadsToCycle hc hres hleads).elim
    | error e =>
      obtain ⟨-, ids, rfl, -⟩ := hround e hres
      exact ⟨_, rfl⟩
  · obtain ⟨-, ids, he, hids, -⟩ := hround e he
    exact ⟨ids, he, hids⟩
  · rw [hfound] at hsearch
    exact (hsearch.finished (.nil w _) List.nodup_nil).2
  · exact (mem_ancestors_of_above hfound ((mem_ancestors hfound).mp hm)).2 rfl

/-- A stylesheet below two others, of which the first goes round with a fourth. -/
def looped : Workspace where
  sheets := #[
    { Sheet.new (some ⟨"a.css"⟩) "" ⟨0, 0⟩ with parents := [1, 2] },
    { Sheet.new (some ⟨"b.css"⟩) "" ⟨1, 0⟩ with parents := [3] },
    { Sheet.new (some ⟨"c.css"⟩) "" ⟨2, 0⟩ with parents := [3] },
    { Sheet.new (some ⟨"d.css"⟩) "" ⟨3, 0⟩ with parents := [1] }]

theorem ancestors_of_looped : looped.Closed ∧ 0 < looped.sheets.size ∧
    looped.ancestors 0 = .error (.importCycle [some ⟨"b.css"⟩, some ⟨"d.css"⟩, some ⟨"b.css"⟩]) ∧
    looped.LeadsToCycle 0 ∧ ∃ ids, looped.Round ids ∧
      ids.map (fun a => (looped.get? a).bind Sheet.file) =
        [some ⟨"b.css"⟩, some ⟨"d.css"⟩, some ⟨"b.css"⟩] := by
  have hclosed : looped.Closed := by
    rintro id parent ⟨s, hs, hp⟩
    have hread : ∀ id < 4, ∀ s ∈ looped.get? id, ∀ parent ∈ s.parents, parent < 4 := by decide
    exact hread id (lt_size hs) s hs parent hp
  have hid : 0 < looped.sheets.size := by decide
  have hcycle : looped.ancestors 0 =
      .error (.importCycle [some ⟨"b.css"⟩, some ⟨"d.css"⟩, some ⟨"b.css"⟩]) := by rfl
  obtain ⟨-, hleads, hnames, -⟩ := ancestors_exact hclosed hid
  obtain ⟨ids, hids, hround⟩ := hnames _ hcycle
  exact ⟨hclosed, hid, hcycle, hleads.mp ⟨_, hcycle⟩, ids, hround,
    (MigrationError.importCycle.inj hids).symm⟩

end Strata.Workspace
