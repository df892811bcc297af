import Strata.Cleanup
import Strata.Proofs.Analysis

/-! What a cleanup changes.

A cleanup discards emptied stylesheets, and what it removes is the imports of
these (`Pruned`): all else that lives stays where it is. Then some derived
stylesheets take over a path, for which their imports get other parameters
(`Readdressed`). `Cleaned` has both in one. -/
namespace Strata

namespace Workspace

open Forest

variable {u w : Workspace}

/-! ### Emptied stylesheets -/

/-- No stylesheet is discarded, and no root is an import. -/
structure Standing (u : Workspace) : Prop where
  tidy : u.Tidy
  kept : ∀ id s, u.get? id = some s → s.discarded = false
  rules : ∀ id s rule, u.get? id = some s → rule ∈ s.inbound → rule ∉ u.roots

/-- An import of a stylesheet that `w` has discarded. -/
def Unlinked (u w : Workspace) (rule : NodeId) : Prop :=
  ∃ id s t, u.get? id = some s ∧ w.get? id = some t ∧ t.discarded = true ∧ rule ∈ s.inbound

structure Pruned (u w : Workspace) : Prop where
  thinned : Thinned u.doc w.doc (Unlinked u w)
  data : ∀ x, w.doc.contains x = true → w.doc.get? x = u.doc.get? x
  size : w.sheets.size = u.sheets.size
  sheet : ∀ id t, w.get? id = some t → ∃ s, u.get? id = some s ∧
    (t = s ∨ t = { s with discarded := true, inbound := [] })
  emptied : ∀ id t, w.get? id = some t → t.discarded = true → w.doc.children t.root = []

theorem pruned_refl (hu : u.Standing) : Pruned u u where
  thinned := by
    refine (thinned_nothing hu.tidy.wellFormed).congr fun rule => iff_of_false ?_ id
    intro hex
    obtain ⟨id, s, t, -, ht, hd, -⟩ := hex
    rw [hu.kept id t ht] at hd
    cases hd
  data _ _ := rfl
  size := rfl
  sheet id t ht := ⟨t, ht, Or.inl rfl⟩
  emptied id t ht hd := by
    rw [hu.kept id t ht] at hd
    cases hd

section discard

variable {id : SheetId} {t : Sheet} (ht : w.get? id = some t)
include ht

theorem discard_eq : w.discard id =
    { w with doc := t.inbound.foldl (fun doc rule => doc.remove rule) w.doc }.modify id
      fun s => { s with discarded := true, inbound := [] } := by
  unfold Workspace.discard
  rw [ht]

theorem doc_discard : (w.discard id).doc =
    t.inbound.foldl (fun doc rule => doc.remove rule) w.doc := by
  rw [discard_eq ht]
  rfl

theorem thinned_discard (h : w.doc.WellFormed) :
    Thinned w.doc (w.discard id).doc (· ∈ t.inbound) := by
  rw [doc_discard ht]
  exact thinned_foldl h t.inbound

/-- What has no children gets none. -/
theorem children_discard (h : w.doc.WellFormed) {x : NodeId} (hempty : w.doc.children x = []) :
    (w.discard id).doc.children x = [] := by
  cases hlive : (w.discard id).doc.contains x with
  | false => exact children_eq_nil hlive
  | true => rw [(thinned_discard ht h).children x hlive, hempty, List.filter_nil]

end discard

theorem get?_discard (w : Workspace) (id x : SheetId) : (w.discard id).get? x =
    if x = id then (w.get? x).map fun s => { s with discarded := true, inbound := [] }
    else w.get? x := by
  cases ht : w.get? id with
  | some t =>
    rw [discard_eq ht, get?_modify]
    rfl
  | none =>
    have hsame : w.discard id = w := by rw [discard, ht]
    rw [hsame]
    split
    · next heq => rw [heq, ht]; rfl
    · rfl

namespace Pruned

variable (h : Pruned u w)
include h

theorem root {id : SheetId} {t : Sheet} (ht : w.get? id = some t) :
    ∃ s, u.get? id = some s ∧ t.root = s.root := by
  obtain ⟨s, hs, rfl | rfl⟩ := h.sheet id t ht
  · exact ⟨t, hs, rfl⟩
  · exact ⟨s, hs, rfl⟩

theorem get?_of_left {id : SheetId} {s : Sheet} (hs : u.get? id = some s) :
    ∃ t, w.get? id = some t ∧ t.root = s.root := by
  obtain ⟨t, ht⟩ := get?_isSome.mpr (h.size.symm ▸ lt_size hs)
  obtain ⟨s', hs', hroot⟩ := h.root ht
  cases hs.symm.trans hs'
  exact ⟨t, ht, hroot⟩

theorem roots : w.roots = u.roots := roots_congr h.size fun _ _ ht => h.root ht

variable (hu : u.Standing)
include hu

theorem tidy : w.Tidy := by
  rw [Tidy, h.roots]
  refine Document.Tidy.thinned hu.tidy h.thinned h.data ?_
  rintro rule ⟨id, s, t, hs, -, -, hr⟩
  exact hu.rules id s rule hs hr

omit hu in
/-- A stylesheet that is discarded unlinks its imports. -/
theorem unlinked_discard {id : SheetId} {t : Sheet} (ht : w.get? id = some t) (rule : NodeId) :
    Unlinked u (w.discard id) rule ↔ Unlinked u w rule ∨ rule ∈ t.inbound := by
  have hget := get?_discard w id
  obtain ⟨s, hs, hst⟩ := h.sheet id t ht
  constructor
  · intro hex
    obtain ⟨x, s', t', hs', ht', hd, hr⟩ := hex
    rw [hget] at ht'
    split at ht'
    · next hx =>
      subst hx
      rw [hs] at hs'
      cases hs'
      rcases hst with rfl | rfl
      · exact Or.inr hr
      · exact Or.inl ⟨x, s, _, hs, ht, rfl, hr⟩
    · exact Or.inl ⟨x, s', t', hs', ht', hd, hr⟩
  · rintro (⟨x, s', t', hs', ht', hd, hr⟩ | hr)
    · by_cases hx : x = id
      · refine ⟨x, s', { t' with discarded := true, inbound := [] }, hs', ?_, rfl, hr⟩
        rw [hget, if_pos hx, ht']
        rfl
      · exact ⟨x, s', t', hs', by rw [hget, if_neg hx, ht'], hd, hr⟩
    · rcases hst with rfl | rfl
      · refine ⟨id, t, { t with discarded := true, inbound := [] }, hs, ?_, rfl, hr⟩
        rw [hget, if_pos rfl, ht]
        rfl
      · cases hr

/-- A stylesheet whose tree has nothing but its root is discarded. -/
theorem discard {id : SheetId} {t : Sheet} (ht : w.get? id = some t)
    (hempty : w.doc.children t.root = []) : Pruned u (w.discard id) := by
  have hwf := (h.tidy hu).wellFormed
  have hget := get?_discard w id
  obtain ⟨s, hs, hst⟩ := h.sheet id t ht
  have hroot : ∀ x t', (w.discard id).get? x = some t' →
      ∃ t, w.get? x = some t ∧ t'.root = t.root ∧ (t' = t ∨ x = id) := by
    intro x t' ht'
    rw [hget] at ht'
    split at ht'
    · next hx =>
      obtain ⟨t, ht, rfl⟩ := Option.map_eq_some_iff.mp ht'
      exact ⟨t, ht, rfl, Or.inr hx⟩
    · exact ⟨t', ht', rfl, Or.inl rfl⟩
  refine ⟨?_, fun x hx => ?_, ?_, fun x t' ht' => ?_, fun x t' ht' hd => ?_⟩
  · exact (h.thinned.trans hu.tidy.wellFormed (thinned_discard ht hwf)).congr
      (h.unlinked_discard ht)
  · have hbefore := (thinned_discard ht hwf).live_before hx
    rw [doc_discard ht] at hx ⊢
    rw [get?_foldl_remove hwf t.inbound hx, h.data x hbefore]
  · rw [discard_eq ht, size_modify]
    exact h.size
  · rw [hget] at ht'
    split at ht'
    · next hx =>
      subst hx
      rw [ht] at ht'
      cases ht'
      refine ⟨s, hs, Or.inr ?_⟩
      rcases hst with rfl | rfl <;> rfl
    · exact h.sheet x t' ht'
  · obtain ⟨t₀, ht₀, hroot, hcase⟩ := hroot x t' ht'
    have hbefore : w.doc.children t₀.root = [] := by
      rcases hcase with rfl | rfl
      · exact h.emptied x _ ht₀ hd
      · rw [ht] at ht₀
        cases ht₀
        exact hempty
    rw [hroot]
    exact children_discard ht hwf hbefore

end Pruned

theorem pruned_foldl (hu : u.Standing) (ids : List SheetId) (h : Pruned u w)
    (hids : ∀ id ∈ ids, ∃ s, u.get? id = some s ∧ w.doc.children s.root = []) :
    Pruned u (ids.foldl Workspace.discard w) := by
  induction ids generalizing w with
  | nil => exact h
  | cons id ids ih =>
    obtain ⟨s, hs, hempty⟩ := hids id (List.mem_cons_self ..)
    obtain ⟨t, ht, hroot⟩ := h.get?_of_left hs
    have hstep := h.discard hu ht (hroot ▸ hempty)
    refine ih hstep fun x hx => ?_
    obtain ⟨sx, hsx, hemptyx⟩ := hids x (List.mem_cons_of_mem _ hx)
    exact ⟨sx, hsx, children_discard ht (h.tidy hu).wellFormed hemptyx⟩

/-- Blank text shows nothing. -/
theorem not_visible_of_isBlankText {s : String} (h : isBlankText s = true) : ¬ Css.Visible s := by
  intro hex
  obtain ⟨c, hc, hb⟩ := hex
  rw [List.all_eq_true.mp h c hc] at hb
  cases hb

theorem css_eq_empty {id : SheetId} {s : Sheet} (hs : w.get? id = some s)
    (hempty : w.doc.children s.root = [])
    (hroot : ∀ n, w.doc.get? s.root = some n → n.isRoot = true) : w.css id = "" := by
  rw [css, hs]
  unfold Document.css
  simp only
  split
  · rfl
  · next n hn =>
    rw [if_pos (hroot n hn), grove, hempty]
    cases w.doc.slots.size <;> rfl

/-- **A stylesheet prints as nothing exactly when nothing is below its root.** -/
theorem isBlankText_css_iff (h : w.Tidy) {id : SheetId} {s : Sheet} (hs : w.get? id = some s) :
    isBlankText (w.css id) = true ↔ w.doc.children s.root = [] := by
  constructor
  · intro hblank
    refine Document.Tidy.children_eq_nil_of_blank h (root_mem_roots hs) ?_
    rw [css, hs] at hblank
    exact not_visible_of_isBlankText hblank
  · intro hempty
    rw [css_eq_empty hs hempty fun n hn =>
      (Document.Tidy.form h s.root n hn).mpr (root_mem_roots hs)]
    rfl

theorem isEmptied_iff (h : w.Tidy) {id : SheetId} {s : Sheet} (hs : w.get? id = some s) :
    w.isEmptied id = true ↔ s.discarded = false ∧ isBlankText s.content = false ∧
      w.doc.children s.root = [] := by
  rw [isEmptied, hs, Option.any_some, Bool.and_eq_true, Bool.and_eq_true, Bool.not_eq_true',
    Bool.not_eq_true', isBlankText_css_iff h hs, and_assoc]

/-- An emptied stylesheet has nothing below its root. -/
theorem Pruned.children_of_isEmptied (h : Pruned u w) (hu : u.Standing) {id : SheetId}
    (he : w.isEmptied id = true) : ∃ s, u.get? id = some s ∧ w.doc.children s.root = [] := by
  obtain ⟨t, ht, -⟩ := (Option.any_eq_true _ _).mp he
  obtain ⟨s, hs, hroot⟩ := h.root ht
  exact ⟨s, hs, hroot ▸ ((isEmptied_iff (h.tidy hu) ht).mp he).2.2⟩

theorem pruned_discardEmptied (hu : u.Standing) (fuel : Nat) (done : Cleanup) (h : Pruned u w) :
    Pruned u (discardEmptied fuel w done).1 := by
  induction fuel generalizing w done with
  | zero => exact h
  | succ fuel ih =>
    unfold discardEmptied
    simp only
    split
    · exact h
    · exact ih _ (pruned_foldl hu _ h fun _ hid =>
        h.children_of_isEmptied hu (List.mem_filter.mp hid).2)

/-! ### Vacated paths -/

end Workspace

namespace Node

theorem isRoot_withParams (params : String) (n : Node) : (n.withParams params).isRoot = n.isRoot := by
  rcases n with ⟨form, span, origin⟩
  cases form <;> rfl

theorem isAt_withParams (name params : String) (n : Node) :
    (n.withParams params).isAt name = n.isAt name := by
  rcases n with ⟨form, span, origin⟩
  cases form <;> rfl

theorem isImportRule_withParams (params : String) (n : Node) :
    (n.withParams params).isImportRule = n.isImportRule :=
  isAt_withParams "import" params n

theorem isAdded_withParams (params : String) (n : Node) :
    (n.withParams params).isAdded = n.isAdded := by
  rcases n with ⟨form, span, origin⟩
  cases form <;> rfl

theorem withParams_withParams (params params' : String) (n : Node) :
    (n.withParams params).withParams params' = n.withParams params' := by
  rcases n with ⟨form, span, origin⟩
  cases form <;> rfl

end Node

/-- The same stylesheet, on another path perhaps. -/
def Sheet.Refiled (s t : Sheet) : Prop := t = { s with file := t.file, holdsFile := t.holdsFile }

namespace Sheet.Refiled

variable {s t r : Sheet}

theorem trans (h : Refiled s t) (h' : Refiled t r) : Refiled s r := by
  unfold Refiled at *
  rw [h', h]

/-- A path that goes to another stylesheet is not held any more. -/
theorem release (s : Sheet) (path : FilePath) :
    Refiled s (if s.file = some path then { s with holdsFile := false } else s) := by
  split
  · rfl
  · rfl

theorem root (h : Refiled s t) : t.root = s.root := by rw [h]
theorem derived (h : Refiled s t) : t.derived = s.derived := by rw [h]
theorem inbound (h : Refiled s t) : t.inbound = s.inbound := by rw [h]
theorem parents (h : Refiled s t) : t.parents = s.parents := by rw [h]
theorem layers (h : Refiled s t) : t.layers = s.layers := by rw [h]
theorem discarded (h : Refiled s t) : t.discarded = s.discarded := by rw [h]

end Sheet.Refiled

/-- `t` is what a cleanup leaves of `s`. -/
structure Sheet.Leaves (s t : Sheet) : Prop where
  root : t.root = s.root
  derived : t.derived = s.derived
  parents : t.parents = s.parents
  layers : t.layers = s.layers
  inbound : t.inbound = if t.discarded then [] else s.inbound

theorem Sheet.Leaves.subset {s t : Sheet} (h : s.Leaves t) : t.inbound ⊆ s.inbound := by
  rw [h.inbound]
  split
  · exact List.nil_subset _
  · exact List.Subset.refl _

namespace Workspace

open Forest

variable {u w : Workspace} {pairs : List (SheetId × SheetId)}

/-- A rule that points at the derived stylesheet of one of some pairs. -/
def PointsAtDerived (u : Workspace) (pairs : List (SheetId × SheetId)) (rule : NodeId) : Prop :=
  ∃ donor derived s, (donor, derived) ∈ pairs ∧ u.get? derived = some s ∧ rule ∈ s.inbound

/-- Some derived stylesheets have taken over paths. -/
structure Readdressed (u : Workspace) (pairs : List (SheetId × SheetId)) (w : Workspace) : Prop where
  tidy : w.Tidy
  live : ∀ x, w.doc.contains x = u.doc.contains x
  parent : ∀ x, w.doc.parent? x = u.doc.parent? x
  children : ∀ x, w.doc.children x = u.doc.children x
  data : ∀ x, w.doc.get? x = u.doc.get? x ∨ u.PointsAtDerived pairs x ∧
    ∃ n params, u.doc.get? x = some n ∧ w.doc.get? x = some (n.withParams params)
  size : w.sheets.size = u.sheets.size
  sheet : ∀ id t, w.get? id = some t → ∃ s, u.get? id = some s ∧ s.Refiled t

theorem readdressed_refl (hu : u.Tidy) : Readdressed u pairs u where
  tidy := hu
  live _ := rfl
  parent _ := rfl
  children _ := rfl
  data _ := Or.inl rfl
  size := rfl
  sheet _ t ht := ⟨t, ht, rfl⟩

/-- A rule gets other parameters, or nothing happens. -/
theorem readdress_cases (donor : SheetId) (file : FilePath) (w : Workspace) (rule : NodeId) :
    readdress donor file w rule = w ∨
      ∃ params, readdress donor file w rule =
        { w with doc := w.doc.update rule (Node.withParams params) } := by
  unfold readdress
  simp only
  split
  · exact Or.inl rfl
  · next params _ => exact Or.inr ⟨params, rfl⟩

/-- A path is assigned to a stylesheet of its own. -/
theorem assignFile_ok {id : SheetId} {path : FilePath} {v : Workspace}
    (h : w.assignFile id path = .ok v) : v.doc = w.doc ∧ v.sheets.size = w.sheets.size ∧
      ∀ x t, v.get? x = some t → ∃ s, w.get? x = some s ∧ s.Refiled t := by
  unfold assignFile at h
  simp only at h
  split at h
  · cases h
  · cases h
    refine ⟨rfl, by simp [modify], fun x t ht => ?_⟩
    rw [get?_modify] at ht
    have hget : ∀ release : Sheet → Sheet,
        get? { w with sheets := w.sheets.map release } x = (w.get? x).map release := fun _ => by
      simp [get?]
    rw [hget] at ht
    cases hs : w.get? x with
    | none =>
      rw [hs] at ht
      split at ht <;> cases ht
    | some s =>
      rw [hs] at ht
      refine ⟨s, rfl, ?_⟩
      split at ht
      · cases ht
        exact (Sheet.Refiled.release s path.normalize).trans rfl
      · cases ht
        exact Sheet.Refiled.release s path.normalize

namespace Readdressed

variable (h : Readdressed u pairs w)
include h

theorem update {rule : NodeId} (hr : u.PointsAtDerived pairs rule) (params : String) :
    Readdressed u pairs { w with doc := w.doc.update rule (Node.withParams params) } where
  tidy := Document.Tidy.update h.tidy rule _ (Node.isRoot_withParams params)
  live x := (contains_update rule _ x).trans (h.live x)
  parent x := (parent?_update rule _ x).trans (h.parent x)
  children x := (children_update rule _ x).trans (h.children x)
  data x := by
    show Forest.get? (w.doc.update rule _) x = _ ∨ _
    rw [get?_update]
    split
    · next heq =>
      subst heq
      rcases h.data x with hd | ⟨-, n, params', hn, hd⟩
      · cases hn : u.doc.get? x with
        | none => exact Or.inl (by rw [hd, hn]; rfl)
        | some n => exact Or.inr ⟨hr, n, params, rfl, by rw [hd, hn]; rfl⟩
      · refine Or.inr ⟨hr, n, params, hn, ?_⟩
        rw [hd, Option.map_some, Node.withParams_withParams]
    · exact h.data x
  size := h.size
  sheet := h.sheet

theorem foldl (donor : SheetId) (file : FilePath) (rules : List NodeId)
    (hr : ∀ rule ∈ rules, u.PointsAtDerived pairs rule) :
    Readdressed u pairs (rules.foldl (readdress donor file) w) := by
  induction rules generalizing w with
  | nil => exact h
  | cons rule rules ih =>
    have hrest : ∀ rule ∈ rules, u.PointsAtDerived pairs rule := fun r hm =>
      hr r (List.mem_cons_of_mem _ hm)
    rcases readdress_cases donor file w rule with heq | ⟨params, heq⟩
    · rw [List.foldl_cons, heq]
      exact ih h hrest
    · rw [List.foldl_cons, heq]
      exact ih (h.update (hr rule (List.mem_cons_self ..)) params) hrest

theorem assign {id : SheetId} {path : FilePath} {v : Workspace}
    (hv : w.assignFile id path = .ok v) : Readdressed u pairs v := by
  obtain ⟨hdoc, hsize, hsheet⟩ := assignFile_ok hv
  have hroots : v.roots = w.roots := by
    refine roots_congr hsize fun x t ht => ?_
    obtain ⟨s, hs, hst⟩ := hsheet x t ht
    exact ⟨s, hs, hst.root⟩
  refine ⟨?_, ?_, ?_, ?_, ?_, hsize.trans h.size, fun x t ht => ?_⟩
  · rw [Tidy, hdoc, hroots]
    exact h.tidy
  · rw [hdoc]
    exact h.live
  · rw [hdoc]
    exact h.parent
  · rw [hdoc]
    exact h.children
  · rw [hdoc]
    exact h.data
  · obtain ⟨s, hs, hst⟩ := hsheet x t ht
    obtain ⟨r, hr, hrs⟩ := h.sheet x s hs
    exact ⟨r, hr, hrs.trans hst⟩

theorem takeOver (done : Cleanup) {pair : SheetId × SheetId} (hp : pair ∈ pairs) :
    Readdressed u pairs (Workspace.takeOver (w, done) pair).1 := by
  obtain ⟨donor, derived⟩ := pair
  unfold Workspace.takeOver
  simp only
  split
  · next o t _ ht =>
    split
    · exact h
    · next file _ =>
      split
      · have hrules : ∀ rule ∈ t.inbound, u.PointsAtDerived pairs rule := by
          intro rule hm
          obtain ⟨s, hs, hst⟩ := h.sheet derived t ht
          exact ⟨donor, derived, s, hp, hs, hst.inbound ▸ hm⟩
        have hfold := h.foldl donor file t.inbound hrules
        split
        · exact h
        · next hassign => exact hfold.assign hassign
      · exact h
  · exact h

theorem foldl_takeOver (done : Cleanup) (some : List (SheetId × SheetId)) (hs : some ⊆ pairs) :
    Readdressed u pairs (some.foldl Workspace.takeOver (w, done)).1 := by
  induction some generalizing w done with
  | nil => exact h
  | cons pair some ih =>
    exact ih (h.takeOver done (hs (List.mem_cons_self ..))) _
      fun _ hm => hs (List.mem_cons_of_mem _ hm)

end Readdressed

/-! ### Both -/

/-- `z` is left of `u` when emptied stylesheets have gone and paths were taken over. -/
structure Cleaned (u : Workspace) (pairs : List (SheetId × SheetId)) (z : Workspace) : Prop where
  tidy : z.Tidy
  thinned : Thinned u.doc z.doc (Unlinked u z)
  data : ∀ x, z.doc.contains x = true → z.doc.get? x = u.doc.get? x ∨
    u.PointsAtDerived pairs x ∧
      ∃ n params, u.doc.get? x = some n ∧ z.doc.get? x = some (n.withParams params)
  size : z.sheets.size = u.sheets.size
  sheet : ∀ id t, z.get? id = some t → ∃ s, u.get? id = some s ∧ s.Leaves t
  emptied : ∀ id t, z.get? id = some t → t.discarded = true → z.doc.children t.root = []

theorem cleaned_of {z : Workspace} (hu : u.Standing) (hp : Pruned u w) (hr : Readdressed w pairs z) :
    Cleaned u pairs z := by
  have hgone : ∀ rule, Unlinked u z rule ↔ Unlinked u w rule := by
    intro rule
    constructor
    · intro hex
      obtain ⟨id, s, t, hs, ht, hd, hm⟩ := hex
      obtain ⟨r, hr, hrt⟩ := hr.sheet id t ht
      exact ⟨id, s, r, hs, hr, hrt.discarded ▸ hd, hm⟩
    · intro hex
      obtain ⟨id, s, r, hs, hget, hd, hm⟩ := hex
      obtain ⟨t, ht⟩ := get?_isSome.mpr (hr.size.symm ▸ lt_size hget)
      obtain ⟨r', hr', hrt⟩ := hr.sheet id t ht
      rw [hget] at hr'
      cases hr'
      exact ⟨id, s, t, hs, ht, hrt.discarded.trans hd, hm⟩
  have hthinned : Thinned u.doc z.doc (Unlinked u w) := by
    refine ⟨hr.tidy.wellFormed, fun x => ?_, fun x hx => ?_, fun x hx => ?_⟩
    · rw [hr.live, hp.thinned.live]
    · rw [hr.parent, hp.thinned.parent x (hr.live x ▸ hx)]
    · rw [hr.children, hp.thinned.children x (hr.live x ▸ hx)]
      exact List.filter_congr fun c _ => (hr.live c).symm
  refine ⟨hr.tidy, hthinned.congr hgone, fun x hx => ?_, hr.size.trans hp.size, fun id t ht => ?_,
    fun id t ht hd => ?_⟩
  · have hbefore := hp.data x (hr.live x ▸ hx)
    rcases hr.data x with heq | ⟨⟨donor, derived, r, hpair, hget, hm⟩, n, params, hn, hz⟩
    · exact Or.inl (heq.trans hbefore)
    · refine Or.inr ⟨?_, n, params, hbefore ▸ hn, hz⟩
      obtain ⟨s, hs, rfl | rfl⟩ := hp.sheet derived r hget
      · exact ⟨donor, derived, r, hpair, hs, hm⟩
      · cases hm
  · obtain ⟨r, hget, hrt⟩ := hr.sheet id t ht
    have hinbound := hrt.inbound
    obtain ⟨s, hs, rfl | rfl⟩ := hp.sheet id r hget
    · refine ⟨r, hs, hrt.root, hrt.derived, hrt.parents, hrt.layers, ?_⟩
      rw [hinbound, hrt.discarded, hu.kept id r hs]
      rfl
    · refine ⟨s, hs, hrt.root, hrt.derived, hrt.parents, hrt.layers, ?_⟩
      rw [hinbound, hrt.discarded]
      rfl
  · obtain ⟨r, hget, hrt⟩ := hr.sheet id t ht
    rw [hr.children, hrt.root]
    exact hp.emptied id r hget (hrt.discarded ▸ hd)

/-- **A cleanup removes the imports of emptied stylesheets and nothing else.** -/
theorem cleaned_cleanUp (hu : u.Standing) (d : Derivations) :
    Cleaned u d.pairs (u.cleanUp d).1 := by
  have hp := pruned_discardEmptied hu (u.sheets.size + 1) {} (pruned_refl hu)
  refine cleaned_of hu hp ?_
  exact (readdressed_refl (hp.tidy hu)).foldl_takeOver _ d.pairs fun _ hm => hm

namespace Cleaned

variable {z : Workspace} (h : Cleaned u pairs z)
include h

theorem get?_of_left {id : SheetId} {s : Sheet} (hs : u.get? id = some s) :
    ∃ t, z.get? id = some t ∧ s.Leaves t := by
  obtain ⟨t, ht⟩ := get?_isSome.mpr (h.size.symm ▸ lt_size hs)
  obtain ⟨s', hs', hst⟩ := h.sheet id t ht
  rw [hs] at hs'
  cases hs'
  exact ⟨t, ht, hst⟩

/-- What is left stays in its stylesheet. -/
theorem sheetOf?_eq (hu : u.Tidy) {x : NodeId} (hx : z.doc.contains x = true) :
    z.sheetOf? x = u.sheetOf? x := by
  obtain ⟨id, s, hid, hs, hw⟩ := hu.exists_sheetOf? (h.thinned.live_before hx)
  obtain ⟨t, ht, hst⟩ := h.get?_of_left hs
  rw [hid, h.tidy.sheetOf?_eq_some]
  exact ⟨hx, t, ht, hst.root ▸ h.thinned.within hu.wellFormed hx hw⟩

/-- A stylesheet that more than the root is left of is not discarded. -/
theorem not_discarded {x : NodeId} {id : SheetId} {t : Sheet} (hx : z.sheetOf? x = some id)
    (ht : z.get? id = some t) (hne : x ≠ t.root) : t.discarded = false := by
  obtain ⟨-, t', ht', hw⟩ := h.tidy.sheetOf?_eq_some.mp hx
  rw [ht] at ht'
  cases ht'
  obtain ⟨c, hc⟩ := ((within_iff.mp hw).resolve_left hne).exists_child
  have hmem := (h.tidy.wellFormed.listed c t.root).mpr hc
  cases hd : t.discarded with
  | false => rfl
  | true =>
    rw [h.emptied id t ht hd] at hmem
    cases hmem

/-- An import that was kept at a stylesheet leads to it still if it lives and so does that. -/
theorem imports_of_imports {x y : SheetId} {s : Sheet} {rule : NodeId} (hu : u.Tidy)
    (hs : u.get? y = some s) (hr : rule ∈ s.inbound) (hx : u.sheetOf? rule = some x)
    (hlive : z.doc.contains rule = true)
    (hkept : ∀ t, z.get? y = some t → t.discarded = false) : z.Imports x y := by
  obtain ⟨t, ht, hst⟩ := h.get?_of_left hs
  have hinbound := hst.inbound
  rw [hkept t ht] at hinbound
  exact ⟨t, rule, ht, hinbound ▸ hr, (h.sheetOf?_eq hu hlive).trans hx⟩

theorem imports {x y : SheetId} (hu : u.Tidy) (hi : z.Imports x y) : u.Imports x y := by
  obtain ⟨t, rule, ht, hr, hx⟩ := hi
  obtain ⟨s, hs, hst⟩ := h.sheet y t ht
  rw [hst.inbound] at hr
  obtain ⟨hlive, -⟩ := h.tidy.sheetOf?_eq_some.mp hx
  refine ⟨s, rule, hs, ?_, (h.sheetOf?_eq hu hlive).symm.trans hx⟩
  split at hr
  · cases hr
  · exact hr

theorem parentOf_iff {id parent : SheetId} : z.ParentOf id parent ↔ u.ParentOf id parent := by
  constructor
  · intro hex
    obtain ⟨t, ht, hp⟩ := hex
    obtain ⟨s, hs, hst⟩ := h.sheet id t ht
    exact ⟨s, hs, hst.parents ▸ hp⟩
  · intro hex
    obtain ⟨s, hs, hp⟩ := hex
    obtain ⟨t, ht, hst⟩ := h.get?_of_left hs
    exact ⟨t, ht, hst.parents.symm ▸ hp⟩

end Cleaned

end Workspace

end Strata
