import Strata.Css.ImportParams
import Strata.Proofs.Css.Pieces

/-! Plain imports are read as they are written.

A text without quotes and backslashes stands for itself between quotes
(`Literal`). Such a specifier in quotes is one piece, and that piece is the whole
target, so it is found again, and another specifier can be put in its place. -/
namespace Strata.Css

open Text

variable {q : Char} {s : String} {cs : List Char}

/-- The text has no quote and no backslash. -/
abbrev Literal (s : String) : Prop := Uses isLiteral s.toList

/-- The parameters are a specifier in quotes, and nothing else. -/
def Quoted (params : String) : Prop := ∃ s q, Literal s ∧ isQuote q = true ∧ params = plainImport s q

theorem toList_plainImport : (plainImport s q).toList = q :: (s.toList ++ [q]) := by
  simp [plainImport, Char.toString, String.toList_append]

/-! ### Quotes -/

theorem isBlank_of_isQuote (hq : isQuote q = true) : isBlank q = false := by
  rcases isQuote_iff.mp hq with rfl | rfl <;> decide

theorem unquote?_quoted (hq : isQuote q = true) (cs : List Char) :
    unquote? (q :: (cs ++ [q])) = some (q, cs) := by
  obtain ⟨c, more, hmore⟩ := List.exists_cons_of_ne_nil (List.append_ne_nil_of_right_ne_nil cs
    (List.cons_ne_nil q []))
  unfold unquote?
  rw [hmore]
  simp only
  rw [← hmore]
  simp [hq]

theorem isQuote_of_unquote? {inner : List Char} (h : unquote? cs = some (q, inner)) :
    isQuote q = true := by
  unfold unquote? at h
  split at h
  · split at h
    · next hcond =>
      cases h
      exact (Bool.and_eq_true _ _ ▸ hcond).1
    · cases h
  · cases h

theorem trim_quoted (hq : isQuote q = true) (cs : List Char) :
    trim (q :: (cs ++ [q])) = q :: (cs ++ [q]) := by
  have hb := isBlank_of_isQuote hq
  simp [trim, dropStart, dropEnd, hb]

/-! ### Targets -/

theorem pieces_quoted (hq : isQuote q = true) (hcs : Uses isLiteral cs) :
    pieces (q :: (cs ++ [q])) = [q :: (cs ++ [q])] := by
  have hheads : Heads (q :: (cs ++ [q])) [] :=
    ⟨(passes_quoted hq hcs 0).solid, List.cons_ne_nil _ _, by simp⟩
  have hcut := hheads.pieces_append
  rwa [List.append_nil] at hcut

/-- **A literal specifier in quotes is read back, with nothing behind it.** -/
theorem importTarget?_plainImport (hq : isQuote q = true) (hs : Literal s) :
    importTarget? (plainImport s q) = some ⟨.quoted q, s.toList, []⟩ := by
  have hread : readTarget? (q :: (s.toList ++ [q])) = some (.quoted q, s.toList) := by
    rw [readTarget?, unquote?_quoted hq]
  simp [importTarget?, toList_plainImport, trim_quoted hq, pieces_quoted hq hs, hread]

theorem specifier?_plainImport (hq : isQuote q = true) (hs : Literal s) :
    specifier? (plainImport s q) = if s.isEmpty then none else some s := by
  simp [specifier?, importTarget?_plainImport hq hs]

theorem replaceTarget?_plainImport (hq : isQuote q = true) (hs : Literal s) (t : String) :
    replaceTarget? (plainImport s q) t = some (plainImport t q) := by
  simp [replaceTarget?, importTarget?_plainImport hq hs, TargetForm.write]

theorem isQuote_of_readTarget? {piece inner : List Char} {form : TargetForm}
    (h : readTarget? piece = some (form, inner)) :
    form = .quoted q ∨ form = .url (some q) → isQuote q = true := by
  unfold readTarget? at h
  split at h
  · next hunquote =>
    cases h
    rintro (heq | heq)
    · cases heq
      exact isQuote_of_unquote? hunquote
    · cases heq
  · split at h
    · cases h
    · split at h
      · next hunquote =>
        cases h
        rintro (heq | heq)
        · cases heq
        · cases heq
          exact isQuote_of_unquote? hunquote
      · split at h
        · cases h
        · cases h
          rintro (heq | heq) <;> cases heq

theorem isQuote_importQuote (params : String) : isQuote (importQuote params) = true := by
  unfold importQuote
  cases ht : importTarget? params with
  | none => decide
  | some target =>
    have hform : ∃ piece inner, readTarget? piece = some (target.form, inner) := by
      unfold importTarget? at ht
      obtain ⟨first, -, ht⟩ := Option.bind_eq_some_iff.mp ht
      obtain ⟨⟨form, specifier⟩, hread, ht⟩ := Option.bind_eq_some_iff.mp ht
      cases ht
      exact ⟨first, specifier, hread⟩
    obtain ⟨piece, inner, hread⟩ := hform
    rcases target with ⟨form, specifier, modifiers⟩
    cases form with
    | quoted q => exact isQuote_of_readTarget? hread (Or.inl rfl)
    | url quote =>
      cases quote with
      | none =>
        show isQuote '"' = true
        decide
      | some q => exact isQuote_of_readTarget? hread (Or.inr rfl)

/-! ### Plain imports -/

theorem quoted_plainImport (hs : Literal s) (params : String) :
    Quoted (plainImport s (importQuote params)) :=
  ⟨s, _, hs, isQuote_importQuote params, rfl⟩

/-- The specifier of a plain import is replaced. -/
theorem Quoted.replaceTarget? {params changed t : String} (h : Quoted params) (ht : Literal t)
    (hc : Css.replaceTarget? params t = some changed) : Quoted changed := by
  obtain ⟨s, q, hs, hq, rfl⟩ := h
  rw [replaceTarget?_plainImport hq hs] at hc
  cases hc
  exact ⟨t, q, ht, hq, rfl⟩

theorem Quoted.literal_specifier {params : String} (h : Quoted params)
    (hs : Css.specifier? params = some s) : Literal s := by
  obtain ⟨t, q, ht, hq, rfl⟩ := h
  rw [specifier?_plainImport hq ht] at hs
  split at hs
  · cases hs
  · cases hs
    exact ht

end Strata.Css
