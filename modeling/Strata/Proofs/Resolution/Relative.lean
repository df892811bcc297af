import Strata.Proofs.Resolution

/-! Relative specifiers lead back.

The specifier that is made for a path, seen from a directory, leads from there to the path. It is the
text of a relative path, and so resolves to the path where this is known, except when the path is
below the directory and the first name on the way starts like the way up: the two dots of such a
name are taken for the way up, and no dot and slash are put in front (`leads_back_iff`). -/
namespace Strata.Resolution

open FilePath Component

variable {files : List FilePath} {specifier : String} {dir target : FilePath}

/-- The path is below the directory, and the first name on the way down starts like the way up. -/
def EntersDotted (dir target : FilePath) : Prop :=
  ∃ s more, target.normalComponents = dir.normalComponents ++ .name s :: more ∧ Dotted s

theorem entersDotted_iff {start goal : List String}
    (hdir : dir.normalComponents = .root :: start.map .name)
    (htarget : target.normalComponents = .root :: goal.map .name) :
    EntersDotted dir target ↔ ∃ s, (route start goal).head? = some (.name s) ∧ Dotted s := by
  simp only [EntersDotted, head?_route, hdir, htarget, List.cons_append, List.cons.injEq, true_and]
  constructor
  · rintro ⟨s, more, heq, hs⟩
    obtain ⟨front, back, rfl, hfront, hback⟩ := List.map_eq_append_iff.mp heq
    obtain ⟨t, back, rfl, ht, -⟩ := List.map_eq_cons_iff.mp hback
    refine ⟨s, ⟨back, ?_⟩, hs⟩
    rw [List.map_injective_iff.mpr (fun _ _ => Component.name.inj) hfront, Component.name.inj ht]
  · rintro ⟨s, ⟨more, rfl⟩, hs⟩
    exact ⟨s, more.map .name, by simp, hs⟩

/-- The written way between absolute paths is no absolute path. -/
theorem isPath_written_iff {cs : List Component} (h : ∀ c ∈ cs, c.Spelled) :
    isPath (written cs) = true ↔ IsRelative (written cs) := by
  rw [isPath_iff, or_iff_left_iff_imp]
  rintro ⟨rest, hrest⟩
  have hrelative := (inner_written h).2
  rw [isAbsolute, ← hrest] at hrelative
  cases hrelative

/-- **The specifier made for a path, seen from a directory, leads back to the path, and it is relative
and resolves to the path where that is known, just when the way to the path does not start with a
name that starts like the way up.** -/
theorem leads_back_iff {dir target : FilePath} (hdir : dir.isAbsolute = true)
    (htarget : target.isAbsolute = true) :
    (dir.join ⟨specifierTo dir target⟩).normalize = target.normalize ∧
      (IsRelative (specifierTo dir target) ↔ ¬ EntersDotted dir target) ∧
      ∀ files : List FilePath, target.normalize ∈ files.map FilePath.normalize →
        (known files (specifierTo dir target) dir = some target.normalize ↔
          ¬ EntersDotted dir target) := by
  obtain ⟨start, -, hread, -⟩ := exists_ofNames hdir
  obtain ⟨goal, hgoal, hreadGoal, hnormal⟩ := exists_ofNames htarget
  have hstart := (normalize_of_foldl hdir hread).2
  have hcomponents := (normalize_of_foldl htarget hreadGoal).2
  have hspelled := spelled_route start hgoal
  have hjoin := normalize_join_written hdir hread hgoal
  have hrelative : IsRelative (written (route start goal)) ↔ ¬ EntersDotted dir target := by
    rw [isRelative_written_iff hspelled, entersDotted_iff hstart hcomponents]
    push Not
    rfl
  rw [specifierTo_eq_written hstart hcomponents, hnormal]
  refine ⟨hjoin, hrelative, fun files hmem => ⟨fun hknown => ?_, fun hplain => ?_⟩⟩
  · rw [← hrelative, ← isPath_written_iff hspelled]
    by_contra hpath
    rw [known_eq_none (Bool.eq_false_iff.mpr hpath)] at hknown
    cases hknown
  · exact known_of_isRelative (hrelative.mpr hplain) hjoin hmem

/-- Out of a directory and into one beside it, a name may start like the way up. -/
theorem leads_back_to_dotted : isAbsolute ⟨"/p/./x/"⟩ = true ∧
    isAbsolute ⟨"/p/z/y/../..a.css"⟩ = true ∧
    specifierTo ⟨"/p/./x/"⟩ ⟨"/p/z/y/../..a.css"⟩ = "../z/..a.css" ∧
    (join ⟨"/p/./x/"⟩ ⟨"../z/..a.css"⟩).normalize = ⟨"/p/z/..a.css"⟩ ∧
    known [⟨"/p/z/..a.css"⟩, ⟨"/p/x/z/..a.css"⟩] "../z/..a.css" ⟨"/p/./x/"⟩ =
      some ⟨"/p/z/..a.css"⟩ := by
  have hspecifier : specifierTo ⟨"/p/./x/"⟩ ⟨"/p/z/y/../..a.css"⟩ = "../z/..a.css" := by
    decide +kernel
  have hnormal : (FilePath.mk "/p/z/y/../..a.css").normalize = ⟨"/p/z/..a.css"⟩ := by decide +kernel
  have hdir : isAbsolute ⟨"/p/./x/"⟩ = true := by decide
  have htarget : isAbsolute ⟨"/p/z/y/../..a.css"⟩ = true := by decide
  obtain ⟨hjoin, hrelative, hknown⟩ := leads_back_iff hdir htarget
  rw [hspecifier] at hjoin hrelative hknown
  rw [hnormal] at hjoin hknown
  exact ⟨hdir, htarget, hspecifier, hjoin,
    (hknown _ (by decide +kernel)).mpr (hrelative.mp (by decide))⟩

/-- A file whose name starts with two dots is named without a dot and a slash in front. -/
theorem not_always_relative : ¬ ∀ dir target : FilePath, dir.isAbsolute = true →
    target.isAbsolute = true → target.normalize ≠ ⟨"/"⟩ →
    IsRelative (specifierTo dir target) ∧ ∀ files : List FilePath, target ∈ files →
      known files (specifierTo dir target) dir = some target.normalize := by
  intro hall
  have hno : ¬ IsRelative (specifierTo ⟨"/p"⟩ ⟨"/p/..a.css"⟩) := by decide +kernel
  exact hno (hall ⟨"/p"⟩ ⟨"/p/..a.css"⟩ (by decide) (by decide) (by decide +kernel)).1

end Strata.Resolution
