import Strata.Proofs.Workspace.Ownership
import Strata.Workspace.Ancestors

/-! The search for ancestors finds them all, or finds a cycle.

`Searches` is the search as it goes, with no bound on its steps. When it ends well, what it adds is
closed under parents and holds no stylesheet of the path it came by (`Searches.climbed`). The steps
that are given suffice for it (`searches_climb`), and it ends well unless there is a cycle
(`Searches.ends`). So the ancestors of every stylesheet can be told exactly when no stylesheet is above
itself (`ancestors_ok_iff`). -/
namespace Strata.Workspace

variable {w : Workspace}

/-- `parent` is one of the stylesheets that `id` keeps as its importers. -/
def ParentOf (w : Workspace) (id parent : SheetId) : Prop :=
  ∃ s, w.get? id = some s ∧ parent ∈ s.parents

/-- `top` is an ancestor of `id`: a parent, or a parent of one. -/
def Above (w : Workspace) (id top : SheetId) : Prop := Relation.TransGen w.ParentOf id top

/-! ### The search as it goes -/

/-- A search along `path` through some parents of its first stylesheet, with no bound on its steps,
and what it ends with. -/
inductive Searches (w : Workspace) :
    (path parents seen : List SheetId) → Except MigrationError (List SheetId) → Prop where
  | done {path seen} : Searches w path [] seen (.ok seen)
  | closes {path parents seen parent} : parent ∈ path →
      Searches w path (parent :: parents) seen (.error (.importCycle (w.cycle path parent)))
  | known {path parents seen parent result} : parent ∉ path → parent ∈ seen →
      Searches w path parents seen result → Searches w path (parent :: parents) seen result
  | missing {path parents seen parent} : parent ∉ path → parent ∉ seen → w.get? parent = none →
      Searches w path (parent :: parents) seen (.error .unknownSheet)
  | fails {path parents seen parent s e} : parent ∉ path → parent ∉ seen →
      w.get? parent = some s →
      Searches w (parent :: path) s.parents (seen ++ [parent]) (.error e) →
      Searches w path (parent :: parents) seen (.error e)
  | visits {path parents seen parent s inner result} : parent ∉ path → parent ∉ seen →
      w.get? parent = some s →
      Searches w (parent :: path) s.parents (seen ++ [parent]) (.ok inner) →
      Searches w path parents inner result → Searches w path (parent :: parents) seen result

/-- What a search along `path` through some parents makes of the stylesheets seen before. -/
structure Climbed (w : Workspace) (path parents seen found : List SheetId) : Prop where
  grows : ∀ v ∈ seen, v ∈ found
  met : ∀ p ∈ parents, p ∈ found ∧ p ∉ path
  closed : ∀ v ∈ found, v ∉ seen → ∀ p, w.ParentOf v p → p ∈ found ∧ p ∉ path
  reached : ∀ v ∈ found, v ∈ seen ∨ ∃ p ∈ parents, Relation.ReflTransGen w.ParentOf p v

namespace Climbed

variable {path parents seen found : List SheetId}

theorem nil : Climbed w path [] seen seen where
  grows _ hv := hv
  met _ hp := absurd hp List.not_mem_nil
  closed _ hv hn := absurd hv hn
  reached _ hv := Or.inl hv

theorem skip {parent : SheetId} (h : Climbed w path parents seen found) (hpath : parent ∉ path)
    (hseen : parent ∈ seen) : Climbed w path (parent :: parents) seen found where
  grows := h.grows
  met p hp := by
    rcases List.mem_cons.mp hp with rfl | hp
    · exact ⟨h.grows _ hseen, hpath⟩
    · exact h.met p hp
  closed := h.closed
  reached v hv := (h.reached v hv).imp_right fun ⟨p, hp, hr⟩ => ⟨p, List.mem_cons_of_mem _ hp, hr⟩

/-- A parent not seen before is seen with all above it, and then the other parents. -/
theorem visit {parent : SheetId} {s : Sheet} {inner : List SheetId} (hs : w.get? parent = some s)
    (hpath : parent ∉ path)
    (hi : Climbed w (parent :: path) s.parents (seen ++ [parent]) inner)
    (ho : Climbed w path parents inner found) :
    Climbed w path (parent :: parents) seen found := by
  have hparent : parent ∈ inner := hi.grows parent (by simp)
  refine ⟨fun v hv => ho.grows v (hi.grows v (List.mem_append_left _ hv)), fun p hp => ?_,
    fun v hv hn p hp => ?_, fun v hv => ?_⟩
  · rcases List.mem_cons.mp hp with rfl | hp
    · exact ⟨ho.grows _ hparent, hpath⟩
    · exact ho.met p hp
  · by_cases hvi : v ∈ inner
    · have hpi : p ∈ inner ∧ p ∉ parent :: path := by
        by_cases hvp : v = parent
        · subst hvp
          obtain ⟨t, ht, hpt⟩ := hp
          rw [hs] at ht
          cases ht
          exact hi.met p hpt
        · exact hi.closed v hvi (by simp [hn, hvp]) p hp
      exact ⟨ho.grows p hpi.1, fun hm => hpi.2 (List.mem_cons_of_mem _ hm)⟩
    · exact ho.closed v hv hvi p hp
  · rcases ho.reached v hv with hvi | ⟨p, hp, hr⟩
    · rcases hi.reached v hvi with hvs | ⟨p, hp, hr⟩
      · rcases List.mem_append.mp hvs with hvs | hvp
        · exact Or.inl hvs
        · rw [List.mem_singleton.mp hvp]
          exact Or.inr ⟨parent, List.mem_cons_self .., .refl⟩
      · exact Or.inr ⟨parent, List.mem_cons_self .., .head ⟨s, hs, hp⟩ hr⟩
    · exact Or.inr ⟨p, List.mem_cons_of_mem _ hp, hr⟩

end Climbed

theorem Searches.climbed {path parents seen found : List SheetId}
    (h : w.Searches path parents seen (.ok found)) : Climbed w path parents seen found := by
  generalize hr : Except.ok found = result at h
  induction h generalizing found with
  | done =>
    cases hr
    exact .nil
  | closes | missing | fails => cases hr
  | known hpath hseen _ ih => exact (ih hr).skip hpath hseen
  | visits hpath _ hs _ _ ihi iho => exact .visit hs hpath (ihi rfl) (iho hr)

theorem searches_of_foldlM {onward : List SheetId → List SheetId → List SheetId →
      Except MigrationError (List SheetId)}
    (honward : ∀ path parents seen found, onward path parents seen = .ok found →
      w.Searches path parents seen (.ok found)) (path parents seen found : List SheetId)
    (h : parents.foldlM (w.meet onward path) seen = .ok found) :
    w.Searches path parents seen (.ok found) := by
  induction parents generalizing seen with
  | nil =>
    cases h
    exact .done
  | cons parent parents ih =>
    rw [List.foldlM_cons] at h
    cases hm : w.meet onward path seen parent with
    | error e =>
      rw [hm] at h
      cases h
    | ok next =>
      rw [hm] at h
      have hrest := ih next h
      unfold meet at hm
      split at hm
      · cases hm
      · next hpath =>
        split at hm
        · next hseen =>
          cases hm
          exact .known hpath hseen hrest
        · next hseen =>
          split at hm
          · cases hm
          · next s hs => exact .visits hpath hseen (sheet_eq_ok.mp hs) (honward _ _ _ _ hm) hrest

theorem searches_of_climb (fuel : Nat) (path parents seen found : List SheetId)
    (h : w.climb fuel path parents seen = .ok found) : w.Searches path parents seen (.ok found) := by
  induction fuel generalizing path parents seen found with
  | zero => exact searches_of_foldlM (fun _ _ _ _ h => by cases h) path parents seen found h
  | succ fuel ih => exact searches_of_foldlM ih path parents seen found h

/-! ### The steps suffice -/

/-- Every parent is a stylesheet. -/
def Closed (w : Workspace) : Prop := ∀ id parent, w.ParentOf id parent → parent < w.sheets.size

/-- Some parents that a search along `path` can go to, with steps left for them. -/
structure Climbable (w : Workspace) (fuel : Nat) (path parents : List SheetId) : Prop where
  nodup : path.Nodup
  valid : ∀ a ∈ path, a < w.sheets.size
  valid_parents : ∀ p ∈ parents, p < w.sheets.size
  /-- Steps and path cover the stylesheets. -/
  room : w.sheets.size ≤ fuel + path.length

namespace Climbable

variable {fuel : Nat} {path parents : List SheetId} {parent : SheetId}

theorem tail (h : Climbable w fuel path (parent :: parents)) : Climbable w fuel path parents :=
  ⟨h.nodup, h.valid, fun p hp => h.valid_parents p (List.mem_cons_of_mem _ hp), h.room⟩

theorem inner {s : Sheet} (h : Climbable w (fuel + 1) path (parent :: parents)) (hc : w.Closed)
    (hs : w.get? parent = some s) (hpath : parent ∉ path) :
    Climbable w fuel (parent :: path) s.parents where
  nodup := List.nodup_cons.mpr ⟨hpath, h.nodup⟩
  valid a ha := by
    rcases List.mem_cons.mp ha with rfl | ha
    · exact h.valid_parents a (List.mem_cons_self ..)
    · exact h.valid a ha
  valid_parents p hp := hc parent p ⟨s, hs, hp⟩
  room := by
    have := h.room
    rw [List.length_cons]
    omega

/-- A path that leaves a stylesheet out is shorter than the number of stylesheets. -/
theorem fuel_pos (h : Climbable w 0 path (parent :: parents)) (hpath : parent ∉ path) : False := by
  have hsub : parent :: path ⊆ List.range w.sheets.size := by
    intro a ha
    rw [List.mem_range]
    rcases List.mem_cons.mp ha with rfl | ha
    · exact h.valid_parents a (List.mem_cons_self ..)
    · exact h.valid a ha
  have hlen := ((List.nodup_cons.mpr ⟨hpath, h.nodup⟩).subperm hsub).length_le
  have hroom := h.room
  rw [List.length_cons, List.length_range] at hlen
  omega

end Climbable

theorem searches_foldlM {fuel : Nat} {path : List SheetId} {onward : List SheetId →
      List SheetId → List SheetId → Except MigrationError (List SheetId)}
    (honward : ∀ parent parents s seen, Climbable w fuel path (parent :: parents) →
      parent ∉ path → w.get? parent = some s → w.Searches (parent :: path) s.parents
        (seen ++ [parent]) (onward (parent :: path) s.parents (seen ++ [parent])))
    (parents seen : List SheetId) (h : Climbable w fuel path parents) :
    w.Searches path parents seen (parents.foldlM (w.meet onward path) seen) := by
  induction parents generalizing seen with
  | nil => exact .done
  | cons parent parents ih =>
    rw [List.foldlM_cons]
    unfold meet
    split
    · next hpath => exact .closes hpath
    · next hpath =>
      split
      · next hseen => exact .known hpath hseen (ih seen h.tail)
      · next hseen =>
        obtain ⟨s, hs⟩ := get?_isSome.mpr (h.valid_parents parent (List.mem_cons_self ..))
        have hinner := honward parent parents s seen h hpath hs
        rw [sheet_eq_ok.mpr hs]
        simp only
        generalize onward (parent :: path) s.parents (seen ++ [parent]) = result at hinner ⊢
        cases result with
        | error e => exact .fails hpath hseen hs hinner
        | ok inner => exact .visits hpath hseen hs hinner (ih inner h.tail)

/-- The steps that are given suffice. -/
theorem searches_climb (hc : w.Closed) (fuel : Nat) (path parents seen : List SheetId)
    (h : Climbable w fuel path parents) :
    w.Searches path parents seen (w.climb fuel path parents seen) := by
  induction fuel generalizing path parents seen with
  | zero =>
    exact searches_foldlM (fun _ _ _ _ hclimb hpath _ => (hclimb.fuel_pos hpath).elim) parents seen h
  | succ fuel ih =>
    exact searches_foldlM
      (fun _ _ s seen hclimb hpath hs => ih _ s.parents _ (hclimb.inner hc hs hpath)) parents seen h

/-! ### How searches end -/

/-- Each stylesheet on a path is a parent of the next, and so are some parents of the first. -/
structure Trail (w : Workspace) (path parents : List SheetId) : Prop where
  nodup : path.Nodup
  linked : ∀ p ∈ parents, (p :: path).IsChain fun top id => w.ParentOf id top

namespace Trail

variable {path parents : List SheetId} {parent : SheetId}

theorem start {id : SheetId} {s : Sheet} (hs : w.get? id = some s) : Trail w [id] s.parents :=
  ⟨List.nodup_singleton id, fun _ hp => .cons_cons ⟨s, hs, hp⟩ (.singleton id)⟩

theorem tail (h : Trail w path (parent :: parents)) : Trail w path parents :=
  ⟨h.nodup, fun p hp => h.linked p (List.mem_cons_of_mem _ hp)⟩

theorem inner {s : Sheet} (h : Trail w path (parent :: parents)) (hpath : parent ∉ path)
    (hs : w.get? parent = some s) : Trail w (parent :: path) s.parents where
  nodup := List.nodup_cons.mpr ⟨hpath, h.nodup⟩
  linked _ hp := .cons_cons ⟨s, hs, hp⟩ (h.linked parent (List.mem_cons_self ..))

/-- What a path leads to is above all of the path. -/
theorem above (h : Trail w path (parent :: parents)) {a : SheetId} (ha : a ∈ path) :
    w.Above a parent := by
  have hchain : (parent :: path).IsChain fun top id => w.Above id top :=
    (h.linked parent (List.mem_cons_self ..)).imp fun _ _ hp => .single hp
  have : IsTrans SheetId fun top id => w.Above id top := ⟨fun _ _ _ hab hbc => hbc.trans hab⟩
  exact (List.pairwise_cons.mp hchain.pairwise).1 a ha

end Trail

/-- A search finds something, or meets a stylesheet that is above itself. -/
def Ends (w : Workspace) (result : Except MigrationError (List SheetId)) : Prop :=
  (∃ found, result = .ok found) ∨
    ∃ chain top, result = .error (.importCycle chain) ∧ w.Above top top

/-- No parent is missing: a search fails only at a cycle. -/
theorem Searches.ends {path parents seen : List SheetId}
    {result : Except MigrationError (List SheetId)} (h : w.Searches path parents seen result)
    (hc : w.Closed) (ht : Trail w path parents) (hvalid : ∀ p ∈ parents, p < w.sheets.size) :
    w.Ends result := by
  induction h with
  | done => exact Or.inl ⟨_, rfl⟩
  | closes hpath => exact Or.inr ⟨_, _, rfl, ht.above hpath⟩
  | known _ _ _ ih => exact ih ht.tail fun p hp => hvalid p (List.mem_cons_of_mem _ hp)
  | @missing _ _ _ parent _ _ hnone =>
    obtain ⟨s, hs⟩ := get?_isSome.mpr (hvalid parent (List.mem_cons_self ..))
    cases hnone.symm.trans hs
  | @fails _ _ _ parent s _ hpath _ hs _ ih =>
    exact ih (ht.inner hpath hs) fun p hp => hc parent p ⟨s, hs, hp⟩
  | visits _ _ _ _ _ _ ih => exact ih ht.tail fun p hp => hvalid p (List.mem_cons_of_mem _ hp)

/-! ### Ancestors -/

theorem ancestors_eq {id : SheetId} {s : Sheet} (hs : w.get? id = some s) :
    w.ancestors id = w.climb w.sheets.size [id] s.parents [] := by
  unfold ancestors
  rw [sheet_eq_ok.mpr hs]
  rfl

section ancestors

variable {id : SheetId} {found : List SheetId} (h : w.ancestors id = .ok found)
include h

theorem climbed_ancestors : ∃ s, w.get? id = some s ∧ Climbed w [id] s.parents [] found := by
  cases hs : w.get? id with
  | none =>
    unfold ancestors sheet at h
    rw [hs] at h
    cases h
  | some s =>
    rw [ancestors_eq hs] at h
    exact ⟨s, rfl, (searches_of_climb _ _ _ _ _ h).climbed⟩

theorem mem_ancestors_of_above {top : SheetId} (ha : w.Above id top) : top ∈ found ∧ top ≠ id := by
  obtain ⟨s, hs, hc⟩ := climbed_ancestors h
  induction ha with
  | single hp =>
    obtain ⟨t, ht, hp⟩ := hp
    rw [hs] at ht
    cases ht
    simpa using hc.met _ hp
  | tail _ hp ih => simpa using hc.closed _ ih.1 List.not_mem_nil _ hp

/-- **The ancestors that are found are all there are.** -/
theorem mem_ancestors {top : SheetId} : top ∈ found ↔ w.Above id top := by
  refine ⟨fun hm => ?_, fun ha => (mem_ancestors_of_above h ha).1⟩
  obtain ⟨s, hs, hc⟩ := climbed_ancestors h
  obtain ⟨p, hp, hr⟩ := (hc.reached top hm).resolve_left List.not_mem_nil
  exact Relation.TransGen.head' ⟨s, hs, hp⟩ hr

end ancestors

/-- The search for ancestors comes to an end. -/
theorem searches_ancestors (hc : w.Closed) {id : SheetId} {s : Sheet} (hs : w.get? id = some s) :
    w.Searches [id] s.parents [] (w.ancestors id) := by
  rw [ancestors_eq hs]
  refine searches_climb hc _ _ _ _ ⟨List.nodup_singleton id, ?_, ?_, Nat.le_add_right ..⟩
  · simpa using lt_size hs
  · exact fun p hp => hc id p ⟨s, hs, hp⟩

theorem ancestors_ends (hc : w.Closed) {id : SheetId} (hid : id < w.sheets.size) :
    w.Ends (w.ancestors id) := by
  obtain ⟨s, hs⟩ := get?_isSome.mpr hid
  exact (searches_ancestors hc hs).ends hc (.start hs) fun p hp => hc id p ⟨s, hs, hp⟩

/-- **The ancestors of every stylesheet can be told exactly when none is above itself.** -/
theorem ancestors_ok_iff (hc : w.Closed) :
    (∀ id < w.sheets.size, ∃ found, w.ancestors id = .ok found) ↔ ∀ id, ¬ w.Above id id := by
  constructor
  · intro hok id ha
    obtain ⟨p, ⟨s, hs, -⟩, -⟩ := Relation.TransGen.head'_iff.mp ha
    obtain ⟨found, hf⟩ := hok id (get?_isSome.mp ⟨s, hs⟩)
    exact (mem_ancestors_of_above hf ha).2 rfl
  · intro hacyclic id hid
    exact (ancestors_ends hc hid).resolve_right fun ⟨_, top, _, habove⟩ => hacyclic top habove

/-! ### The same ancestors -/

/-- A search reads no more of a stylesheet than its file and its parents. -/
theorem climb_congr {v : Workspace} (h : ∀ id, (v.get? id).map (fun s => (s.file, s.parents)) =
    (w.get? id).map fun s => (s.file, s.parents)) (fuel : Nat) : v.climb fuel = w.climb fuel := by
  have hcycle : v.cycle = w.cycle := by
    funext path parent
    refine List.map_congr_left fun id _ => ?_
    have hfile := congrArg (Option.map Prod.fst) (h id)
    rw [Option.map_map, Option.map_map] at hfile
    cases hv : v.get? id <;> cases hw : w.get? id <;> simp_all
  have hmeet : ∀ onward, v.meet onward = w.meet onward := by
    intro onward
    funext path seen parent
    have hparent := h parent
    unfold meet sheet
    rw [hcycle]
    cases hv : v.get? parent <;> cases hw : w.get? parent <;> simp_all
  induction fuel with
  | zero => funext path parents seen; rw [climb, climb, hmeet]
  | succ fuel ih => funext path parents seen; rw [climb, climb, hmeet, ih]

theorem ancestors_congr {v : Workspace} (hsize : v.sheets.size = w.sheets.size)
    (h : ∀ id, (v.get? id).map (fun s => (s.file, s.parents)) =
      (w.get? id).map fun s => (s.file, s.parents)) : v.ancestors = w.ancestors := by
  funext id
  have hid := h id
  unfold ancestors sheet
  rw [hsize, climb_congr h]
  cases hv : v.get? id <;> cases hw : w.get? id <;> simp_all [bind, Except.bind]

end Strata.Workspace
