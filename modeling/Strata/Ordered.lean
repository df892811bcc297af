/-! Sets as lists in increasing order. -/
namespace Strata.Ordered

variable {α : Type} [DecidableEq α] (before : α → α → Bool)

/-- The set with one more member. -/
def insert (a : α) : List α → List α
  | [] => [a]
  | b :: bs =>
    if a = b then b :: bs
    else if before a b then a :: b :: bs
    else b :: insert a bs

/-- The set with more members. -/
def insertAll (as : List α) (set : List α) : List α :=
  as.foldl (fun set a => insert before a set) set

theorem mem_insert (a x : α) (set : List α) : x ∈ insert before a set ↔ x = a ∨ x ∈ set := by
  induction set with
  | nil => simp [insert]
  | cons b bs ih =>
    simp only [insert]
    split
    · next h => subst h; simp
    · split
      · simp
      · simp only [List.mem_cons, ih]
        exact or_left_comm

theorem mem_insertAll (as set : List α) (x : α) :
    x ∈ insertAll before as set ↔ x ∈ as ∨ x ∈ set := by
  induction as generalizing set with
  | nil => simp [insertAll]
  | cons a as ih =>
    rw [show insertAll before (a :: as) set = insertAll before as (insert before a set) from rfl, ih,
      mem_insert, List.mem_cons, or_assoc]
    exact or_left_comm

end Strata.Ordered
