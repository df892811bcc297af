import Strata.Proofs.Path.Directory

/-! The normal form is canonical.

A path in normal form is a dot or holds none, has no way up from the root, and in a relative path has
all ways up in front (`IsNormal`). `normalize` gives such a path, leaves one as it is, and keeps a path
absolute or relative. The components of a joined path are folded on top of those of the first path, so
the joined path depends on the normal form of the first one only (`normalize_join`). -/
namespace Strata.FilePath

open Component

variable {p q : FilePath} {c : Component} {cs : List Component}

/-- A path in normal form. -/
structure IsNormal (p : FilePath) : Prop where
  filled : p.components ≠ []
  undotted : .current ∈ p.components → p = ⟨"."⟩
  rooted : p.isAbsolute = true → .parent ∉ p.components
  upFirst : p.isAbsolute = false → p.components.Pairwise fun c d => d = .parent → c = .parent

/-! ### What is folded -/

theorem normalize_congr (h : p.components.foldl fold [] = q.components.foldl fold []) :
    p.normalize = q.normalize := by
  unfold normalize normalComponents
  rw [h]

theorem foldl_normalize (p : FilePath) :
    p.normalize.components.foldl fold [] = p.components.foldl fold [] :=
  List.reverse_injective (normalComponents_normalize p)

/-- Only the pieces between the slashes of a relative path are left when it is folded. -/
theorem spelled_of_mem_foldl (hp : p.isAbsolute = false) (hc : c ∈ p.components.foldl fold []) :
    c.Spelled := by
  rw [foldl_components, hp] at hc
  rcases mem_foldl_fold hc with hnil | hinner
  · cases hnil
  · exact spelled_inner hinner

theorem Folded.upLast (h : Folded cs) : cs.Pairwise fun c d => c = .parent → d = .parent := by
  induction h with
  | nil => exact List.Pairwise.nil
  | root => exact List.pairwise_singleton _ _
  | @parent cs hall =>
    refine List.pairwise_cons.mpr ⟨fun d hd _ => hall d hd, ?_⟩
    exact List.pairwise_of_forall_mem_list fun c hc d hd _ => hall d hd
  | name _ _ ih => exact List.pairwise_cons.mpr ⟨fun d _ hname => (nomatch hname), ih⟩

theorem folded_of_upLast (hcs : ∀ c ∈ cs, c.Spelled)
    (h : cs.Pairwise fun c d => c = .parent → d = .parent) : Folded cs := by
  induction cs with
  | nil => exact .nil
  | cons c cs ih =>
    obtain ⟨hc, hrest⟩ := List.forall_mem_cons.mp hcs
    obtain ⟨hbelow, hpairs⟩ := List.pairwise_cons.mp h
    cases c with
    | root => cases hc
    | current => cases hc
    | parent => exact .parent fun d hd => hbelow d hd rfl
    | name s => exact .name hc (ih hrest hpairs)

/-! ### The normal form of a path -/

theorem isAbsolute_normalize (p : FilePath) : p.normalize.isAbsolute = p.isAbsolute := by
  cases hp : p.isAbsolute with
  | true =>
    obtain ⟨names, -, -, hnormal⟩ := exists_ofNames hp
    rw [hnormal, isAbsolute_ofNames]
  | false =>
    cases hread : p.components.foldl fold [] with
    | nil =>
      rw [normalize_of_folded_nil hread]
      decide
    | cons c cs =>
      rw [← Bool.not_eq_true]
      intro habs
      have hroot : Component.root ∈ p.normalize.components := by
        rw [components_of_absolute habs]
        exact List.mem_cons_self ..
      rw [components_normalize hread, ← List.reverse_cons, List.mem_reverse, ← hread] at hroot
      exact spelled_of_mem_foldl hp hroot

/-- **What is joined to a path is joined to its normal form.** -/
theorem normalize_join (p q : FilePath) : (p.join q).normalize = (p.normalize.join q).normalize := by
  cases hq : q.isAbsolute with
  | true =>
    unfold join
    rw [if_pos hq, if_pos hq]
  | false =>
    obtain ⟨habs, hinner⟩ := join_of_relative p hq
    obtain ⟨habs', hinner'⟩ := join_of_relative p.normalize hq
    have hread := foldl_normalize p
    refine normalize_congr ?_
    rw [foldl_components, ← inner] at hread ⊢
    rw [foldl_components p, ← inner] at hread
    rw [foldl_components, ← inner, habs, hinner, habs', hinner', List.foldl_append,
      List.foldl_append, hread]

theorem isNormal_normalize (p : FilePath) : p.normalize.IsNormal := by
  cases hread : p.components.foldl fold [] with
  | nil =>
    rw [normalize_of_folded_nil hread]
    exact ⟨by decide, fun _ => rfl, by decide, fun _ => List.pairwise_singleton _ _⟩
  | cons c cs =>
    have hcomponents := components_normalize hread
    rw [← List.reverse_cons, ← hread] at hcomponents
    refine ⟨?_, fun hdot => ?_, fun habs => ?_, fun _ => ?_⟩
    · rw [hcomponents, hread]
      simp
    · rw [hcomponents, List.mem_reverse] at hdot
      cases hp : p.isAbsolute with
      | false => exact absurd (spelled_of_mem_foldl hp hdot) id
      | true =>
        obtain ⟨names, -, hfold, -⟩ := exists_ofNames hp
        rw [components_of_absolute hp, List.foldl_cons] at hdot
        have hstacked : Component.current ∈ stacked names := hfold ▸ hdot
        simp [stacked] at hstacked
    · rw [isAbsolute_normalize] at habs
      obtain ⟨names, hnames, -, hnormal⟩ := exists_ofNames habs
      rw [hnormal, components_ofNames hnames]
      simp
    · rw [hcomponents, List.pairwise_reverse]
      exact (folded_components p).upLast

/-! ### Paths in normal form -/

theorem exists_map_name (hcs : ∀ c ∈ cs, c.Spelled) (h : .parent ∉ cs) :
    ∃ names : List String, cs = names.map .name := by
  induction cs with
  | nil => exact ⟨[], rfl⟩
  | cons c cs ih =>
    obtain ⟨hc, hrest⟩ := List.forall_mem_cons.mp hcs
    rw [List.mem_cons, not_or] at h
    obtain ⟨names, rfl⟩ := ih hrest h.2
    cases c with
    | root => cases hc
    | current => cases hc
    | parent => exact absurd rfl h.1
    | name s => exact ⟨s :: names, rfl⟩

/-- Nothing is cancelled in a normal form. -/
theorem IsNormal.foldl_eq (h : p.IsNormal) (hdot : .current ∉ p.components) :
    p.components.foldl fold [] = p.components.reverse := by
  cases hp : p.isAbsolute with
  | true =>
    have hcomponents := components_of_absolute hp
    have hparent := h.rooted hp
    rw [hcomponents, List.mem_cons, not_or] at hparent
    obtain ⟨names, hnames⟩ := exists_map_name (fun c hc => spelled_of_mem_inner hc) hparent.2
    rw [hcomponents, hnames, List.foldl_cons, List.reverse_cons]
    exact foldl_names names [.root]
  | false =>
    have hcomponents : p.components = p.inner := by
      unfold components at hdot ⊢
      simp only [hp, Bool.false_eq_true, if_false] at hdot ⊢
      split
      · next hcurrent =>
        rw [if_pos hcurrent] at hdot
        exact absurd (List.mem_cons_self ..) hdot
      · rfl
    have hfolded : Folded p.components.reverse := by
      refine folded_of_upLast (fun c hc => ?_) (List.pairwise_reverse.mpr (h.upFirst hp))
      rw [hcomponents, List.mem_reverse] at hc
      exact spelled_of_mem_inner hc
    have hfold := hfolded.foldl_reverse
    rwa [List.reverse_reverse] at hfold

theorem IsNormal.same_normalize (h : p.IsNormal) : p.normalize.same p = true := by
  by_cases hdot : .current ∈ p.components
  · rw [h.undotted hdot]
    decide
  · have hread := h.foldl_eq hdot
    rw [same, beq_iff_eq]
    cases hreverse : p.components.reverse with
    | nil => exact absurd (List.reverse_eq_nil_iff.mp hreverse) h.filled
    | cons c cs =>
      rw [components_normalize (hread.trans hreverse), ← List.reverse_cons, ← hreverse,
        List.reverse_reverse]

/-- **`normalize` gives a canonical form that is compatible with `join`.** Once is enough, the result
is absolute exactly when the path is, it is in normal form, and a path in normal form stays. -/
theorem normalize_canonical (p q : FilePath) :
    p.normalize.normalize = p.normalize ∧
      (p.join q).normalize = (p.normalize.join q).normalize ∧
      p.normalize.isAbsolute = p.isAbsolute ∧ p.normalize.IsNormal ∧
      (p.IsNormal → p.normalize.same p = true) :=
  ⟨normalize_normalize p, normalize_join p q, isAbsolute_normalize p, isNormal_normalize p,
    IsNormal.same_normalize⟩

end Strata.FilePath
