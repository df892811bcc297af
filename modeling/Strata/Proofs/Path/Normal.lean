import Mathlib.Data.List.Basic
import Strata.Path.Normal

/-! Normal paths are read back as they are written.

The components of a normal form are folded: names on top of the root, or on top
of dots that lead out of the directory (`Folded`). Such components survive being
written and read (`components_ofComponents`), so `normalize` needs to be done once
only, and two paths have one normal form only when they have the same components
in it. -/
namespace Strata

namespace Text

theorem splitAll_of_not_mem {sep : Char} {cs : List Char} (h : sep ∉ cs) : splitAll sep cs = [cs] := by
  induction cs with
  | nil => rfl
  | cons c cs ih =>
    rw [List.mem_cons, not_or] at h
    rw [splitAll, if_neg (Ne.symm h.1), ih h.2]

theorem splitAll_append {sep : Char} {cs : List Char} (h : sep ∉ cs) (ds : List Char) :
    splitAll sep (cs ++ sep :: ds) = cs :: splitAll sep ds := by
  induction cs with
  | nil => simp [splitAll]
  | cons c cs ih =>
    rw [List.mem_cons, not_or] at h
    rw [List.cons_append, splitAll, if_neg (Ne.symm h.1), ih h.2]

/-- Pieces without the separator are found again between separators. -/
theorem splitAll_intercalate {sep : Char} {pieces : List (List Char)} (hne : pieces ≠ [])
    (h : ∀ p ∈ pieces, sep ∉ p) : splitAll sep ([sep].intercalate pieces) = pieces := by
  induction pieces with
  | nil => exact absurd rfl hne
  | cons p pieces ih =>
    have hp := h p (List.mem_cons_self ..)
    cases pieces with
    | nil => simpa [List.intercalate] using splitAll_of_not_mem hp
    | cons q pieces =>
      have hrest := ih (by simp) fun r hr => h r (List.mem_cons_of_mem _ hr)
      have hsplit := splitAll_append hp ([sep].intercalate (q :: pieces))
      rw [hrest] at hsplit
      simpa [List.intercalate, List.intersperse] using hsplit

end Text

namespace Component

/-- A component that a text between slashes can spell. -/
def Spelled : Component → Prop
  | root | current => False
  | parent => True
  | name s => '/' ∉ s.toList ∧ s.toList ≠ [] ∧ s.toList ≠ ['.'] ∧ s.toList ≠ ['.', '.']

theorem spelled_of_component? {piece : List Char} {c : Component} (hslash : '/' ∉ piece)
    (h : FilePath.component? piece = some c) : c.Spelled := by
  unfold FilePath.component? at h
  split at h
  · cases h
  · next hfiller =>
    split at h
    · cases h
      trivial
    · next hparent =>
      cases h
      rw [not_or] at hfiller
      simpa [Spelled] using ⟨hslash, hfiller.1, hfiller.2, hparent⟩

theorem component?_text {c : Component} (h : c.Spelled) :
    FilePath.component? c.text.toList = some c := by
  cases c with
  | root => cases h
  | current => cases h
  | parent => rfl
  | name s =>
    obtain ⟨-, hne, hdot, hdots⟩ := h
    simp [FilePath.component?, text, hne, hdot, hdots]

theorem slash_not_mem_text {c : Component} (h : c.Spelled) : '/' ∉ c.text.toList := by
  cases c with
  | root => cases h
  | current => cases h
  | parent => decide
  | name s => exact h.1

theorem text_ne_nil {c : Component} (h : c.Spelled) : c.text.toList ≠ [] := by
  cases c with
  | root => cases h
  | current => cases h
  | parent => decide
  | name s => exact h.2.1

theorem text_ne_dot {c : Component} (h : c.Spelled) : c.text.toList ≠ ['.'] := by
  cases c with
  | root => cases h
  | current => cases h
  | parent => decide
  | name s => exact h.2.2.1

end Component

namespace FilePath

open Component

/-! ### Components of a written path -/

theorem filterMap_component? {cs : List Component} (h : ∀ c ∈ cs, c.Spelled) :
    (cs.map fun c => c.text.toList).filterMap component? = cs := by
  induction cs with
  | nil => rfl
  | cons c cs ih =>
    rw [List.map_cons, List.filterMap_cons, component?_text (h c (List.mem_cons_self ..))]
    simp [ih fun d hd => h d (List.mem_cons_of_mem _ hd)]

theorem toList_joined (cs : List Component) :
    ("/".intercalate (cs.map Component.text)).toList =
      ['/'].intercalate (cs.map fun c => c.text.toList) := by
  rw [String.toList_intercalate, List.map_map]
  rfl

theorem splitAll_joined {cs : List Component} (hne : cs ≠ []) (h : ∀ c ∈ cs, c.Spelled) :
    Text.splitAll '/' ("/".intercalate (cs.map Component.text)).toList =
      cs.map fun c => c.text.toList := by
  rw [toList_joined]
  refine Text.splitAll_intercalate (by simpa using hne) fun p hp => ?_
  obtain ⟨c, hc, rfl⟩ := List.mem_map.mp hp
  exact slash_not_mem_text (h c hc)

theorem head_joined {c : Component} {cs : List Component} (h : c.Spelled) :
    ("/".intercalate ((c :: cs).map Component.text)).toList.head? = c.text.toList.head? := by
  rw [toList_joined]
  obtain ⟨a, as, ha⟩ := List.exists_cons_of_ne_nil (text_ne_nil h)
  cases cs <;> simp [List.intercalate, ha]

/-- Components that are written are read back. -/
theorem components_ofComponents_relative {cs : List Component} (hne : cs ≠ [])
    (h : ∀ c ∈ cs, c.Spelled) : (ofComponents cs).components = cs := by
  obtain ⟨c, rest, rfl⟩ := List.exists_cons_of_ne_nil hne
  have hc := h c (List.mem_cons_self ..)
  have htext : (ofComponents (c :: rest)).text =
      "/".intercalate ((c :: rest).map Component.text) := by
    cases c <;> first | rfl | cases hc
  have habsolute : (ofComponents (c :: rest)).isAbsolute = false := by
    rw [isAbsolute, htext, head_joined hc, beq_eq_false_iff_ne]
    intro heq
    exact slash_not_mem_text hc (List.mem_of_head? heq)
  have hcurrent : (Text.splitAll '/' (ofComponents (c :: rest)).text.toList).head? ≠ some ['.'] := by
    rw [htext, splitAll_joined hne h, List.map_cons, List.head?_cons]
    intro heq
    exact text_ne_dot hc (Option.some.inj heq)
  simp only [components, habsolute, Bool.false_eq_true, if_false]
  rw [if_neg hcurrent, htext, splitAll_joined hne h, filterMap_component? h]

theorem components_ofComponents_absolute {cs : List Component} (h : ∀ c ∈ cs, c.Spelled) :
    (ofComponents (.root :: cs)).components = .root :: cs := by
  have htext : (ofComponents (.root :: cs)).text.toList =
      '/' :: ("/".intercalate (cs.map Component.text)).toList := by
    simp [ofComponents, String.toList_append]
  have habsolute : (ofComponents (.root :: cs)).isAbsolute = true := by
    simp [isAbsolute, htext]
  simp only [components, habsolute, if_true, htext, Text.splitAll]
  cases cs with
  | nil => rfl
  | cons c cs =>
    rw [splitAll_joined (by simp) h]
    show Component.root :: (([] :: _).filterMap component?) = _
    rw [List.filterMap_cons_none (by rfl), filterMap_component? h]

/-! ### Folded components -/

/-- Components of a normal form, the last one first: names on top of the root or of dots. -/
inductive Folded : List Component → Prop where
  | nil : Folded []
  | root : Folded [.root]
  | parent {cs} : (∀ c ∈ cs, c = .parent) → Folded (.parent :: cs)
  | name {s cs} : (Component.name s).Spelled → Folded cs → Folded (.name s :: cs)

theorem Folded.fold {seen : List Component} (h : Folded seen) {c : Component} (hc : c.Spelled) :
    Folded (fold seen c) := by
  cases c with
  | root => cases hc
  | current => cases hc
  | name s => exact .name hc h
  | parent =>
    cases h with
    | nil => exact .parent (by simp)
    | root => exact .root
    | parent hall => exact .parent (by simpa using hall)
    | name _ hcs => exact hcs

theorem folded_foldl {seen cs : List Component} (h : Folded seen) (hcs : ∀ c ∈ cs, c.Spelled) :
    Folded (cs.foldl FilePath.fold seen) := by
  induction cs generalizing seen with
  | nil => exact h
  | cons c cs ih =>
    exact ih (h.fold (hcs c (List.mem_cons_self ..))) fun d hd => hcs d (List.mem_cons_of_mem _ hd)

/-- What is folded stays when it is folded again. -/
theorem Folded.foldl_reverse {cs : List Component} (h : Folded cs) :
    cs.reverse.foldl FilePath.fold [] = cs := by
  induction h with
  | nil => rfl
  | root => rfl
  | @parent cs hall =>
    rw [List.reverse_cons, List.foldl_append]
    have hcs : cs = List.replicate cs.length .parent := List.eq_replicate_iff.mpr ⟨rfl, hall⟩
    have hfold : ∀ n, (List.replicate n Component.parent).foldl FilePath.fold [] =
        List.replicate n .parent := by
      intro n
      induction n with
      | zero => rfl
      | succ n ih =>
        rw [List.replicate_succ', List.foldl_append, ih, ← List.replicate_succ',
          List.replicate_succ]
        cases n <;> rfl
    rw [hcs, List.reverse_replicate, hfold]
    cases cs.length <;> rfl
  | name _ _ ih =>
    rw [List.reverse_cons, List.foldl_append, ih]
    rfl

/-- Below the root a folded path has no other root. -/
theorem Folded.cases_reverse {cs : List Component} (h : Folded cs) :
    (∀ c ∈ cs, c.Spelled) ∨ ∃ names, cs = names ++ [.root] ∧ ∀ c ∈ names, c.Spelled := by
  induction h with
  | nil => exact Or.inl (by simp)
  | root => exact Or.inr ⟨[], rfl, by simp⟩
  | parent hall =>
    refine Or.inl fun c hc => ?_
    rcases List.mem_cons.mp hc with rfl | hc
    · trivial
    · rw [hall c hc]
      trivial
  | @name s cs hs _ ih =>
    rcases ih with hall | ⟨names, rfl, hall⟩
    · refine Or.inl fun c hc => ?_
      rcases List.mem_cons.mp hc with rfl | hc
      · exact hs
      · exact hall c hc
    · refine Or.inr ⟨.name s :: names, rfl, fun c hc => ?_⟩
      rcases List.mem_cons.mp hc with rfl | hc
      · exact hs
      · exact hall c hc

theorem components_ofComponents {cs : List Component} (h : Folded cs) (hne : cs ≠ []) :
    (ofComponents cs.reverse).components = cs.reverse := by
  rcases h.cases_reverse with hall | ⟨names, rfl, hall⟩
  · exact components_ofComponents_relative (by simpa using hne) fun c hc =>
      hall c (List.mem_reverse.mp hc)
  · rw [List.reverse_append, List.reverse_singleton, List.singleton_append]
    exact components_ofComponents_absolute fun c hc => hall c (List.mem_reverse.mp hc)

/-! ### Normal forms -/

/-- The pieces between slashes hold none. -/
theorem slash_not_mem_piece {cs piece : List Char} (h : piece ∈ Text.splitAll '/' cs) :
    '/' ∉ piece := by
  induction cs generalizing piece with
  | nil => simp_all [Text.splitAll]
  | cons c cs ih =>
    rw [Text.splitAll] at h
    split at h
    · rcases List.mem_cons.mp h with rfl | h
      · simp
      · exact ih h
    · next hc =>
      split at h
      · next hnil => exact absurd hnil (Text.splitAll_ne_nil '/' cs)
      · next p ps hp =>
        rcases List.mem_cons.mp h with rfl | h
        · have := ih (hp ▸ List.mem_cons_self .. : p ∈ Text.splitAll '/' cs)
          simp [this, Ne.symm hc]
        · exact ih (hp ▸ List.mem_cons_of_mem _ h)

theorem spelled_inner {cs : List Char} {c : Component}
    (h : c ∈ (Text.splitAll '/' cs).filterMap component?) : c.Spelled := by
  obtain ⟨piece, hp, hc⟩ := List.mem_filterMap.mp h
  exact spelled_of_component? (slash_not_mem_piece hp) hc

theorem folded_components (p : FilePath) : Folded (p.components.foldl FilePath.fold []) := by
  unfold components
  simp only
  split
  · rw [List.foldl_cons]
    exact folded_foldl .root fun c hc => spelled_inner hc
  · split
    · rw [List.foldl_cons]
      exact folded_foldl .nil fun c hc => spelled_inner hc
    · exact folded_foldl .nil fun c hc => spelled_inner hc

/-- **The components of a normal form are read back from it.** -/
theorem normalComponents_normalize (p : FilePath) :
    p.normalize.normalComponents = p.normalComponents := by
  have hf := folded_components p
  have hp : p.normalComponents = (p.components.foldl FilePath.fold []).reverse := rfl
  unfold normalize
  split
  · next hnil =>
    rw [hnil]
    rfl
  · next hne =>
    have hne : p.components.foldl FilePath.fold [] ≠ [] := fun h => hne (by rw [hp, h]; rfl)
    rw [hp, normalComponents, components_ofComponents hf hne, hf.foldl_reverse]

theorem normalize_normalize (p : FilePath) : p.normalize.normalize = p.normalize := by
  have h := normalComponents_normalize p
  rw [normalize, h]
  rfl

theorem normalize_eq_of_same {p q : FilePath} (h : p.same q = true) : p.normalize = q.normalize := by
  unfold same at h
  unfold normalize normalComponents
  rw [beq_iff_eq.mp h]

theorem normalComponents_eq_of_normalize_eq {p q : FilePath} (h : p.normalize = q.normalize) :
    p.normalComponents = q.normalComponents := by
  rw [← normalComponents_normalize p, h, normalComponents_normalize]

end FilePath

end Strata
