import Mathlib.Tactic.IntervalCases
import Strata.Proofs.Path.Absolute
import Strata.Proofs.Path.Uses

/-! Files beside a file.

A name in the directory of a normal path leads to a path in that directory. A dot leads to the
directory itself, which is in itself only when it is empty (`parent?_join_directory`). A derived name
is a dot when it is made of nothing, the suffix being empty too (`eq_of_component?_derivedName`). -/
namespace Strata.FilePath

open Component

variable {p : FilePath} {c : Component} {cs : List Component} {name suffix piece : String}
  {fallback : Option String}

/-- The directory that holds a path, the empty one when it is in none. -/
def directory (p : FilePath) : FilePath := p.parent?.getD ⟨""⟩

/-! ### Folded components that are written -/

theorem ofComponents_ne_empty (h : Folded cs) (hne : cs ≠ []) :
    (ofComponents cs.reverse).text ≠ "" := by
  intro hempty
  have hcs := components_ofComponents h hne
  rw [show ofComponents cs.reverse = ⟨""⟩ from congrArg FilePath.mk hempty] at hcs
  exact hne (List.reverse_eq_nil_iff.mp hcs.symm)

theorem foldl_ofComponents (h : Folded cs) :
    (ofComponents cs.reverse).components.foldl fold [] = cs := by
  rcases eq_or_ne cs [] with rfl | hne
  · rfl
  · rw [components_ofComponents h hne, h.foldl_reverse]

theorem normalize_of_folded (h : p.components.foldl fold [] = cs) (hne : cs ≠ []) :
    p.normalize = ofComponents cs.reverse := by
  unfold normalize
  split
  · next hnil =>
    rw [normalComponents, h] at hnil
    exact absurd (List.reverse_eq_nil_iff.mp hnil) hne
  · rw [normalComponents, h]

theorem normalize_of_folded_nil (h : p.components.foldl fold [] = []) : p.normalize = ⟨"."⟩ := by
  unfold normalize
  rw [normalComponents, h]
  rfl

theorem components_normalize (h : p.components.foldl fold [] = c :: cs) :
    p.normalize.components = cs.reverse ++ [c] := by
  rw [normalize_of_folded h (List.cons_ne_nil _ _),
    components_ofComponents (h ▸ folded_components p) (List.cons_ne_nil _ _), List.reverse_cons]

theorem parent?_normalize (hc : c ≠ .root) (h : p.components.foldl fold [] = c :: cs) :
    p.normalize.parent? = some (ofComponents cs.reverse) := by
  unfold parent?
  rw [components_normalize h, List.getLast?_concat, List.dropLast_concat]
  cases c with
  | root => exact absurd rfl hc
  | _ => rfl

/-! ### Directories of normal paths -/

/-- The directory of a normal path is normal or empty, and without a file name on top the way up is
all there is. -/
theorem exists_directory (hp : p.normalize = p) : ∃ cs, Folded cs ∧
    p.directory = ofComponents cs.reverse ∧ (p.fileName? = none → ∀ c ∈ cs, c = .parent) := by
  have hfolded := folded_components p
  cases hread : p.components.foldl fold [] with
  | nil =>
    rw [← hp, normalize_of_folded_nil hread]
    exact ⟨[], .nil, rfl, by simp⟩
  | cons c cs =>
    rw [hread] at hfolded
    have hparent := @parent?_normalize p c cs
    have hcomponents := components_normalize hread
    rw [hp] at hparent hcomponents
    cases hfolded with
    | root =>
      refine ⟨[], .nil, ?_, by simp⟩
      rw [directory, parent?, hcomponents]
      rfl
    | parent hall =>
      refine ⟨cs, ?_, by rw [directory, hparent (by simp) hread]; rfl, fun _ => hall⟩
      cases cs with
      | nil => exact .nil
      | cons d cs =>
        rw [hall d (List.mem_cons_self ..)]
        exact .parent fun c hc => hall c (List.mem_cons_of_mem _ hc)
    | name _ hcs =>
      refine ⟨cs, hcs, by rw [directory, hparent (by simp) hread]; rfl, fun hno => ?_⟩
      rw [fileName?, hcomponents, List.getLast?_concat] at hno
      cases hno

/-- What is read of a piece that is joined to a directory. -/
theorem foldl_join_piece (h : Folded cs) (hpiece : '/' ∉ piece.toList) :
    ((ofComponents cs.reverse).join ⟨piece⟩).components.foldl fold [] =
      (component? piece.toList).elim cs (fold cs) := by
  have hrelative : isAbsolute ⟨piece⟩ = false := by
    rw [isAbsolute, beq_eq_false_iff_ne]
    exact fun heq => hpiece (List.mem_of_head? heq)
  obtain ⟨habs, hinner⟩ := join_of_relative (ofComponents cs.reverse) hrelative
  have hread := foldl_ofComponents h
  rw [foldl_components, ← inner] at hread ⊢
  rw [habs, hinner, List.foldl_append, hread, inner, Text.splitAll_of_not_mem hpiece]
  cases hc : component? piece.toList <;> simp [hc]

/-- **A piece without slashes leads to a path in the directory, or to the directory itself.** -/
theorem parent?_join_directory (hp : p.normalize = p) (hpiece : '/' ∉ piece.toList)
    (hup : component? piece.toList = some .parent → p.fileName? = none) :
    (p.directory.join ⟨piece⟩).normalize.parent? = some p.directory ∨
      component? piece.toList = none ∧ p.directory.text ≠ "" ∧
        (p.directory.join ⟨piece⟩).normalize = p.directory := by
  obtain ⟨cs, hfolded, hdir, hups⟩ := exists_directory hp
  have hread := foldl_join_piece hfolded hpiece
  rw [hdir]
  cases hc : component? piece.toList with
  | none =>
    rw [hc, Option.elim_none] at hread
    cases cs with
    | nil =>
      left
      rw [normalize_of_folded_nil hread]
      rfl
    | cons d cs =>
      exact Or.inr ⟨rfl, ofComponents_ne_empty hfolded (List.cons_ne_nil _ _),
        normalize_of_folded hread (List.cons_ne_nil _ _)⟩
  | some c =>
    left
    rw [hc, Option.elim_some] at hread
    have hspelled := spelled_of_component? hpiece hc
    cases c with
    | root => cases hspelled
    | current => cases hspelled
    | name s => exact parent?_normalize (by simp) hread
    | parent =>
      -- There is nothing that the way up could cancel.
      have hfold : fold cs .parent = .parent :: cs := by
        cases cs with
        | nil => rfl
        | cons d cs =>
          rw [hups (hup hc) d (List.mem_cons_self ..)]
          rfl
      rw [hfold] at hread
      exact parent?_normalize (by simp) hread

/-- A name leads to a path of that name. -/
theorem fileName?_join_directory (hp : p.normalize = p) (hname : Named name) :
    (p.directory.join ⟨name⟩).normalize.fileName? = some name := by
  obtain ⟨cs, hfolded, hdir, -⟩ := exists_directory hp
  have hread := foldl_join_piece hfolded hname.1
  have hcomponent : component? name.toList = some (.name name) := component?_text hname
  rw [hcomponent, Option.elim_some] at hread
  rw [hdir, fileName?, components_normalize hread, List.getLast?_concat]

/-! ### Derived names -/

/-- A derived name is a name, unless it is made of nothing. -/
theorem eq_of_component?_derivedName (hdot : name ≠ ".") (attempt : Nat)
    (h : ∀ s, component? (derivedName name suffix fallback attempt).toList ≠ some (.name s)) :
    name = "" ∧ (component? (derivedName name suffix fallback attempt).toList = none →
      suffix = "") := by
  obtain ⟨stem, rest, htext, hlen, hstem⟩ := exists_stem name suffix fallback attempt
  rw [htext] at h ⊢
  cases stem with
  | nil =>
    have hname : name = "" := by
      rcases hstem with hnil | ⟨hne, -⟩
      · exact String.toList_eq_nil_iff.mp hnil.symm
      · exact absurd rfl hne
    refine ⟨hname, fun hnone => ?_⟩
    have hrest : rest = [] := by
      unfold component? at hnone
      split at hnone
      · next hfiller => simpa using hfiller
      · split at hnone <;> cases hnone
    rw [hrest, List.length_nil] at hlen
    exact String.toList_eq_nil_iff.mp (List.length_eq_zero_iff.mp (Nat.le_zero.mp hlen))
  | cons a stem =>
    exfalso
    by_cases hlong : 2 < (a :: stem ++ '.' :: rest).length
    · exact h _ (component?_of_length hlong)
    · have hshort : stem = [] ∧ rest = [] := by
        simp only [List.length_append, List.length_cons, Nat.not_lt] at hlong
        constructor <;> exact List.length_eq_zero_iff.mp (by omega)
      obtain ⟨rfl, rfl⟩ := hshort
      have ha : a ≠ '.' := by
        rintro rfl
        rcases hstem with hname | ⟨-, hne, -⟩
        · exact hdot (String.toList_injective hname.symm)
        · exact hne rfl
      exact h (.ofList [a, '.']) (by simp [component?, ha])

/-- With a suffix of some length a derived name is a name. -/
theorem named_derivedName (hname : '/' ∉ name.toList)
    (hsuffix : '/' ∉ suffix.toList) (hlong : 1 < suffix.toList.length)
    (hfallback : ∀ s, fallback = some s → '/' ∉ s.toList) (attempt : Nat) :
    Named (derivedName name suffix fallback attempt) := by
  refine spelled_of_component? (slash_not_mem_derivedName hname hsuffix hfallback attempt)
    ((component?_of_length ?_).trans (by rw [String.ofList_toList]))
  obtain ⟨stem, rest, htext, hlen, -⟩ := exists_stem name suffix fallback attempt
  rw [htext, List.length_append, List.length_cons]
  omega

/-- A derived name is not that of an index, whose extension is shorter than the suffix. -/
theorem derivedName_ne_index (hlong : "css".toList.length < suffix.toList.length) (attempt : Nat) :
    derivedName name suffix fallback attempt ≠ "index.css" := by
  intro hindex
  obtain ⟨stem, rest, htext, hlen, -⟩ := exists_stem name suffix fallback attempt
  rw [hindex] at htext
  have hcount := congrArg List.length htext
  have hdot := congrArg (fun cs => cs[stem.length]?) htext
  have hcss : "css".toList.length = 3 := rfl
  rw [show "index.css".toList.length = 9 from rfl, List.length_append, List.length_cons] at hcount
  simp only [List.getElem?_append_right (Nat.le_refl _), Nat.sub_self,
    List.getElem?_cons_zero] at hdot
  -- The dot of the name of an index stands further behind.
  have hfront : stem.length < 5 := by omega
  revert hdot
  generalize stem.length = n at hfront
  interval_cases n <;> decide

end Strata.FilePath
