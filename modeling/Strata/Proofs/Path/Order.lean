import Strata.Path.Basic
import Strata.Proofs.Ordered

/-! The order of paths.

Components are in a total order, and paths come in the order of the first component in which they
differ. So of two paths with different components just one comes first. -/
namespace Strata

namespace Component

/-- The order of kinds, and of texts within one kind. -/
theorem before_iff {a b : Component} : a.before b = true ↔
    before.rank a < before.rank b ∨ before.rank a = before.rank b ∧ a.text < b.text := by
  cases a <;> cases b <;> simp [before, before.rank, text]

theorem total_before : Ordered.Total before where
  trans hab hbc := by
    rw [before_iff] at *
    rcases hab with hab | ⟨hab, htext⟩ <;> rcases hbc with hbc | ⟨hbc, htext'⟩
    · exact Or.inl (Nat.lt_trans hab hbc)
    · exact Or.inl (hbc ▸ hab)
    · exact Or.inl (hab ▸ hbc)
    · exact Or.inr ⟨hab.trans hbc, String.lt_trans htext htext'⟩
  asymm hab hba := by
    rw [before_iff] at *
    rcases hab with hab | ⟨hab, htext⟩ <;> rcases hba with hba | ⟨hba, htext'⟩
    · omega
    · omega
    · omega
    · exact String.lt_asymm htext htext'
  total {a b} hne hab := by
    cases a with
    | name s =>
      cases b with
      | name t =>
        refine Ordered.total_lt_string.total (fun heq => hne ?_) hab
        rw [heq]
      | _ => rfl
    | _ => cases b <;> first | rfl | exact absurd rfl hne | exact absurd rfl hab

end Component

namespace FilePath

theorem listBefore_cons (a b : Component) (as bs : List Component) :
    listBefore (a :: as) (b :: bs) = if a = b then listBefore as bs else a.before b := rfl

theorem listBefore_trans {as bs cs : List Component} (hab : listBefore as bs = true)
    (hbc : listBefore bs cs = true) : listBefore as cs = true := by
  induction as generalizing bs cs with
  | nil =>
    cases cs with
    | nil => cases bs <;> cases hbc
    | cons => rfl
  | cons a as ih =>
    cases bs with
    | nil => cases hab
    | cons b bs =>
      cases cs with
      | nil => cases hbc
      | cons c cs =>
        rw [listBefore_cons] at hab hbc ⊢
        by_cases h : a = b
        · subst h
          rw [if_pos rfl] at hab
          split
          · next h =>
            rw [if_pos h] at hbc
            exact ih hab hbc
          · next h => rwa [if_neg h] at hbc
        · rw [if_neg h] at hab
          by_cases h' : b = c
          · subst h'
            rwa [if_neg h]
          · rw [if_neg h'] at hbc
            have hne : a ≠ c := fun heq => Component.total_before.asymm (heq ▸ hab) hbc
            rw [if_neg hne]
            exact Component.total_before.trans hab hbc

theorem listBefore_irrefl (as : List Component) : listBefore as as = false := by
  induction as with
  | nil => rfl
  | cons a as ih => rw [listBefore, if_pos rfl, ih]

theorem listBefore_total {as bs : List Component} (hne : as ≠ bs) (hab : ¬ listBefore as bs = true) :
    listBefore bs as = true := by
  induction as generalizing bs with
  | nil =>
    cases bs with
    | nil => exact absurd rfl hne
    | cons => exact absurd rfl hab
  | cons a as ih =>
    cases bs with
    | nil => rfl
    | cons b bs =>
      rw [listBefore_cons] at hab ⊢
      by_cases h : a = b
      · subst h
        rw [if_pos rfl] at hab ⊢
        exact ih (fun heq => hne (by rw [heq])) hab
      · rw [if_neg h] at hab
        rw [if_neg (Ne.symm h)]
        exact Component.total_before.total h hab

end FilePath

end Strata
