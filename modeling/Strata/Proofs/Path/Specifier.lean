import Strata.Path.Specifier
import Strata.Proofs.Path.Normal

/-! Names of derived files.

The names that are tried for a derived file differ in a counter within the last
name of the path. No two of them have one normal form, so as many files as there
are names to try cannot take them all. -/
namespace Strata

namespace Text

theorem splitLast?_eq_none {sep : Char} {cs : List Char} (h : splitLast? sep cs = none) :
    sep ∉ cs := by
  induction cs with
  | nil => simp
  | cons c cs ih =>
    unfold splitLast? at h
    split at h
    · cases h
    · next hrest =>
      split at h
      · cases h
      · next hc => simp [Ne.symm hc, ih hrest]

theorem splitLast?_eq_some {sep : Char} {cs before after : List Char}
    (h : splitLast? sep cs = some (before, after)) :
    cs = before ++ sep :: after ∧ sep ∉ after := by
  induction cs generalizing before after with
  | nil => cases h
  | cons c cs ih =>
    unfold splitLast? at h
    split at h
    · next b a hrest =>
      cases h
      obtain ⟨rfl, hnot⟩ := ih hrest
      exact ⟨rfl, hnot⟩
    · next hrest =>
      split at h
      · next hc =>
        cases h
        exact ⟨by rw [hc]; rfl, splitLast?_eq_none hrest⟩
      · cases h

/-- A text without the separators at its end, and these. -/
theorem exists_dropEndChar (sep : Char) (cs : List Char) :
    ∃ seps : List Char, cs = dropEndChar sep cs ++ seps ∧ ∀ c ∈ seps, c = sep := by
  refine ⟨(cs.reverse.takeWhile (· == sep)).reverse, ?_, fun c hc => ?_⟩
  · rw [dropEndChar, ← List.reverse_append, List.takeWhile_append_dropWhile, List.reverse_reverse]
  · have hall := List.all_takeWhile (p := (· == sep)) (l := cs.reverse)
    exact beq_iff_eq.mp (List.all_eq_true.mp hall c (List.mem_reverse.mp hc))

/-- What is put behind a text without the separator continues its last piece. -/
theorem splitAll_extend (sep : Char) (cs : List Char) :
    ∃ init last, ∀ more, sep ∉ more → splitAll sep (cs ++ more) = init ++ [last ++ more] := by
  induction cs with
  | nil => exact ⟨[], [], fun more h => by simpa using splitAll_of_not_mem h⟩
  | cons c cs ih =>
    obtain ⟨init, last, hsplit⟩ := ih
    by_cases hc : c = sep
    · refine ⟨[] :: init, last, fun more h => ?_⟩
      rw [List.cons_append, splitAll, if_pos hc, hsplit more h]
      rfl
    · cases init with
      | nil =>
        refine ⟨[], c :: last, fun more h => ?_⟩
        rw [List.cons_append, splitAll, if_neg hc, hsplit more h]
        rfl
      | cons p init =>
        refine ⟨(c :: p) :: init, last, fun more h => ?_⟩
        rw [List.cons_append, splitAll, if_neg hc, hsplit more h]
        rfl

end Text

namespace FilePath

/-! ### Names without slashes -/

theorem spelled_fileName {p : FilePath} {s : String} (h : p.fileName? = some s) :
    (Component.name s).Spelled := by
  unfold fileName? at h
  split at h
  · next t hlast =>
    cases h
    have hmem := List.mem_of_getLast? hlast
    unfold components at hmem
    simp only at hmem
    split at hmem
    · exact spelled_inner ((List.mem_cons.mp hmem).resolve_left (by simp))
    · split at hmem
      · exact spelled_inner ((List.mem_cons.mp hmem).resolve_left (by simp))
      · exact spelled_inner hmem
  · cases h

theorem slash_not_mem_fileName {p : FilePath} {s : String} (h : p.fileName? = some s) :
    '/' ∉ s.toList :=
  (spelled_fileName h).1

theorem slash_not_mem_extension {p : FilePath} {s : String} (h : p.extension? = some s) :
    '/' ∉ s.toList := by
  unfold extension? at h
  obtain ⟨name, hname, h⟩ := Option.bind_eq_some_iff.mp h
  split at h
  · cases h
  · cases h
  · next stem ext hsplit =>
    cases h
    obtain ⟨heq, -⟩ := Text.splitLast?_eq_some hsplit
    have hslash := slash_not_mem_fileName hname
    rw [heq] at hslash
    rw [String.toList_ofList]
    exact fun hm => hslash (List.mem_append_right _ (List.mem_cons_of_mem _ hm))

theorem slash_not_mem_specifierName (specifier : String) :
    '/' ∉ (specifierName specifier).toList := by
  unfold specifierName
  simp only
  split
  · next hsplit =>
    rw [String.toList_ofList]
    exact (Text.splitLast?_eq_some hsplit).2
  · next hsplit =>
    rw [String.toList_ofList]
    exact Text.splitLast?_eq_none hsplit

/-! ### Counted names -/

/-- The counter in the name of a derived file. -/
def counter (attempt : Nat) : List Char :=
  if attempt = 0 then [] else '.' :: Nat.toDigits 10 attempt

theorem slash_not_mem_counter (attempt : Nat) : '/' ∉ counter attempt := by
  unfold counter
  split
  · simp
  · intro h
    rcases List.mem_cons.mp h with h | h
    · cases h
    · have := Nat.isDigit_of_mem_toDigits (by decide) (by decide) h
      revert this
      decide

theorem counter_injective {j k : Nat} (h : counter j = counter k) : j = k := by
  unfold counter at h
  by_cases hj : j = 0 <;> by_cases hk : k = 0
  · rw [hj, hk]
  · simp [hj, hk] at h
  · simp [hj, hk] at h
  · rw [if_neg hj, if_neg hk] at h
    have hdigits := (List.cons.inj h).2
    have hvalue := congrArg (Nat.ofDigitChars 10 · 0) hdigits
    simpa [Nat.ofDigitChars_toDigits] using hvalue

/-- The names that are tried differ in the counter only, and no slash follows that. -/
theorem derivedName_text (name suffix : String) (fallback : Option String)
    (hname : '/' ∉ name.toList) (hfallback : ∀ s, fallback = some s → '/' ∉ s.toList) :
    ∃ head ending : List Char, head ≠ [] ∧ '/' ∉ ending ∧ ∀ attempt,
      (derivedName name suffix fallback attempt).toList = head ++ (counter attempt ++ ending) := by
  have htext : ∀ (stem : String) (ext : Option String), (∀ s, ext = some s → '/' ∉ s.toList) →
      ∃ head ending : List Char, head ≠ [] ∧ '/' ∉ ending ∧ ∀ attempt,
        (stem ++ "." ++ suffix ++ (if attempt = 0 then "" else "." ++ toString attempt) ++
          ext.elim "" fun ext => "." ++ ext).toList =
            head ++ (counter attempt ++ ending) := by
    intro stem ext hext
    refine ⟨(stem ++ "." ++ suffix).toList,
      (ext.elim "" fun ext => "." ++ ext).toList, ?_, ?_, ?_⟩
    · simp
    · cases ext with
      | none => simp
      | some s => simpa using hext s rfl
    · intro attempt
      by_cases ha : attempt = 0 <;> cases ext <;>
        simp [counter, ha, String.toList_append, Nat.toString_eq_repr, Nat.toList_repr]
  unfold derivedName
  split
  next parts stem ext hparts =>
    have hext : ∀ s, ext = some s → '/' ∉ s.toList := by
      intro s hs
      split at hparts
      · next s' stem' e' ext' hsplit =>
        cases hparts
        cases hs
        rw [(Text.splitLast?_eq_some hsplit).1] at hname
        rw [String.toList_ofList]
        exact fun hm => hname (List.mem_append_right _ (List.mem_cons_of_mem _ hm))
      · cases hparts
        exact hfallback s hs
    obtain ⟨head, ending, hhead, hending, hlist⟩ := htext stem ext hext
    refine ⟨head, ending, hhead, hending, fun attempt => ?_⟩
    rw [← hlist attempt]
    cases ext <;> rfl

/-- The name of a derived file starts with the name it is made of, up to the extension perhaps. -/
theorem exists_stem (name suffix : String) (fallback : Option String) (attempt : Nat) :
    ∃ stem rest, (derivedName name suffix fallback attempt).toList = stem ++ '.' :: rest ∧
      suffix.toList.length ≤ rest.length ∧
      (stem = name.toList ∨ stem ≠ [] ∧ rest ≠ [] ∧ ∃ ext, name.toList = stem ++ '.' :: ext) := by
  unfold derivedName
  split
  next parts stem ext hparts =>
    refine ⟨stem.toList, suffix.toList ++ (if attempt = 0 then "" else "." ++ toString attempt).toList ++
      (ext.elim "" fun ext => "." ++ ext).toList, ?_, by simp, ?_⟩
    · cases ext <;> simp [String.toList_append]
    · split at hparts
      · next s stem' e ext' hsplit =>
        cases hparts
        right
        rw [String.toList_ofList]
        exact ⟨by simp, by simp, _, (Text.splitLast?_eq_some hsplit).1⟩
      · cases hparts
        exact Or.inl rfl

/-! ### Distinct normal forms -/

/-- A dot in front folds away, so only the root and the pieces between slashes count. -/
theorem foldl_components (p : FilePath) :
    p.components.foldl FilePath.fold [] =
      ((Text.splitAll '/' p.text.toList).filterMap component?).foldl FilePath.fold
        (if p.isAbsolute then [.root] else []) := by
  unfold components
  simp only
  split
  · rfl
  · split <;> rfl

theorem component?_counted {last ending : List Char} {attempt : Nat} (h : attempt ≠ 0) :
    component? (last ++ (counter attempt ++ ending)) =
      some (.name (.ofList (last ++ (counter attempt ++ ending)))) := by
  have hne : Nat.toDigits 10 attempt ≠ [] := Nat.toDigits_ne_nil
  obtain ⟨d, ds, hd⟩ := List.exists_cons_of_ne_nil hne
  have hdigit : d ≠ '.' := by
    have := Nat.isDigit_of_mem_toDigits (by decide) (by decide) (hd ▸ List.mem_cons_self ..)
    rintro rfl
    revert this
    decide
  have hmem : d ∈ last ++ (counter attempt ++ ending) := by
    simp [counter, h, hd]
  have hdots : ∀ ps : List Char, (∀ c ∈ ps, c = '.') → last ++ (counter attempt ++ ending) ≠ ps :=
    fun ps hps heq => hdigit (hps d (heq ▸ hmem))
  simp only [component?, hdots [] (by simp), hdots ['.'] (by simp), hdots ['.', '.'] (by simp),
    or_self, if_false]

/-- A name on top is found again only in what that name was put on. -/
theorem fold_ne_name {seen : List Component} {c : Component} {s : String} (h : c ≠ .name s) :
    FilePath.fold seen c ≠ .name s :: seen := by
  intro heq
  have hlen := congrArg List.length heq
  cases c with
  | current => simp [FilePath.fold] at hlen
  | root => simp [FilePath.fold] at heq
  | name t =>
    simp only [FilePath.fold, List.cons.injEq, and_true] at heq
    exact h heq
  | parent =>
    cases seen with
    | nil => cases heq
    | cons top seen =>
      cases top with
      | name t =>
        simp only [FilePath.fold, List.length_cons] at hlen
        omega
      | _ => cases heq

/-- **Paths that differ in a counter within the last name have different normal forms.** -/
theorem normalComponents_counted {head ending : List Char} {p : Nat → FilePath} (hhead : head ≠ [])
    (hending : '/' ∉ ending) (htext : ∀ k, (p k).text.toList = head ++ (counter k ++ ending))
    {j k : Nat} (hjk : j ≠ k) : (p j).normalComponents ≠ (p k).normalComponents := by
  obtain ⟨init, last, hsplit⟩ := Text.splitAll_extend '/' head
  obtain ⟨c, cs, rfl⟩ := List.exists_cons_of_ne_nil hhead
  -- Up to the last name the paths are the same.
  let seen := (init.filterMap component?).foldl FilePath.fold (if c = '/' then [.root] else [])
  have hread : ∀ k, (p k).components.foldl FilePath.fold [] =
      (component? (last ++ (counter k ++ ending))).elim seen (FilePath.fold seen) := by
    intro k
    have hslash : '/' ∉ counter k ++ ending := by
      simp [slash_not_mem_counter, hending]
    have habs : (p k).isAbsolute = true ↔ c = '/' := by
      simp [isAbsolute, htext]
    rw [foldl_components, htext, hsplit _ hslash, List.filterMap_append, List.foldl_append]
    simp only [habs]
    rw [List.filterMap_cons, List.filterMap_nil]
    cases component? (last ++ (counter k ++ ending)) <;> rfl
  have hlater : ∀ j k, j ≠ k → k ≠ 0 → (p j).normalComponents ≠ (p k).normalComponents := by
    intro j k hjk hk heq
    have hrev := List.reverse_inj.mp heq
    rw [hread j, hread k, component?_counted hk] at hrev
    cases hc : component? (last ++ (counter j ++ ending)) with
    | none =>
      rw [hc] at hrev
      have hlen := congrArg List.length hrev
      simp [FilePath.fold] at hlen
    | some d =>
      rw [hc] at hrev
      refine fold_ne_name ?_ hrev
      rintro rfl
      unfold component? at hc
      split at hc
      · cases hc
      · split at hc
        · cases hc
        · have htexts := Component.name.inj (Option.some.inj hc)
          have hchars := String.ofList_injective htexts
          exact hjk (counter_injective (List.append_cancel_right (List.append_cancel_left hchars)))
  by_cases hk : k = 0
  · have hj : j ≠ 0 := fun h => hjk (h.trans hk.symm)
    exact (hlater k j (Ne.symm hjk) hj).symm
  · exact hlater j k hjk hk

end FilePath

end Strata
