import Strata.Forest.Basic
import Strata.Ordered

/-! Lists in increasing order.

Inserting keeps the order, and a member that is there is not inserted again. So two such lists
with the same members are one (`eq_of_pairwise`), and the first hit in one is the least
(`findSome?_eq_some`). -/
namespace Strata

namespace Ordered

variable {α : Type} [DecidableEq α] (before : α → α → Bool)

/-- Of two members just one comes before the other, as in a row. -/
structure Total : Prop where
  trans : ∀ {a b c}, before a b = true → before b c = true → before a c = true
  asymm : ∀ {a b}, before a b = true → before b a = true → False
  total : ∀ {a b}, a ≠ b → ¬ before a b = true → before b a = true

section total

variable {before} (h : Total before) {set : List α} (hset : set.Pairwise (before · · = true))
include h hset

theorem pairwise_insert (a : α) : (insert before a set).Pairwise (before · · = true) := by
  induction set with
  | nil => exact List.pairwise_singleton _ _
  | cons b bs ih =>
    obtain ⟨hb, hbs⟩ := List.pairwise_cons.mp hset
    simp only [insert]
    split
    · exact hset
    · next hne =>
      split
      · next hab =>
        refine List.pairwise_cons.mpr ⟨fun x hx => ?_, hset⟩
        rcases List.mem_cons.mp hx with rfl | hx
        · exact hab
        · exact h.trans hab (hb x hx)
      · next hab =>
        refine List.pairwise_cons.mpr ⟨fun x hx => ?_, ih hbs⟩
        rcases (mem_insert before a x bs).mp hx with rfl | hx
        · exact h.total hne hab
        · exact hb x hx

/-- A member that is there is not inserted again. -/
theorem insert_eq_self {a : α} (ha : a ∈ set) : insert before a set = set := by
  induction set with
  | nil => cases ha
  | cons b bs ih =>
    obtain ⟨hb, hbs⟩ := List.pairwise_cons.mp hset
    simp only [insert]
    split
    · rfl
    · next hne =>
      have hmem := (List.mem_cons.mp ha).resolve_left hne
      rw [if_neg fun hab => h.asymm hab (hb a hmem), ih hbs hmem]

theorem pairwise_insertAll (as : List α) :
    (insertAll before as set).Pairwise (before · · = true) := by
  induction as generalizing set with
  | nil => exact hset
  | cons a as ih => exact ih (pairwise_insert h hset a)

theorem insertAll_eq_self {as : List α} (has : ∀ a ∈ as, a ∈ set) :
    insertAll before as set = set := by
  induction as with
  | nil => rfl
  | cons a as ih =>
    have hrest := ih fun b hb => has b (List.mem_cons_of_mem _ hb)
    rwa [insertAll, List.foldl_cons, insert_eq_self h hset (has a (List.mem_cons_self ..))]

omit [DecidableEq α] in
theorem nodup_of_pairwise : set.Nodup :=
  hset.imp fun hab heq => by
    subst heq
    exact h.asymm hab hab

omit [DecidableEq α] in
/-- In order there is one list of some members. -/
theorem eq_of_pairwise {more : List α} (hmore : more.Pairwise (before · · = true))
    (hsame : ∀ a, a ∈ set ↔ a ∈ more) : set = more :=
  ((List.perm_ext_iff_of_nodup (nodup_of_pairwise h hset) (nodup_of_pairwise h hmore)).mpr
    hsame).eq_of_pairwise (fun _ _ _ _ hab hba => (h.asymm hab hba).elim) hset hmore

omit [DecidableEq α] in
/-- In order the first hit is the least. -/
theorem findSome?_eq_some {β : Type} {f : α → Option β} {b : β} :
    set.findSome? f = some b ↔ ∃ a ∈ set, f a = some b ∧
      ∀ x ∈ set, (f x).isSome = true → x ≠ a → before a x = true := by
  rw [List.findSome?_eq_some_iff]
  constructor
  · rintro ⟨ahead, a, behind, rfl, hfound, hnone⟩
    refine ⟨a, List.mem_append_right _ (List.mem_cons_self ..), hfound, fun x hx hsome hne => ?_⟩
    have hbehind := (List.pairwise_append.mp hset).2.1
    rcases List.mem_append.mp hx with hx | hx
    · rw [hnone x hx] at hsome
      cases hsome
    · exact (List.pairwise_cons.mp hbehind).1 x ((List.mem_cons.mp hx).resolve_left hne)
  · rintro ⟨a, ha, hfound, hleast⟩
    obtain ⟨ahead, behind, rfl⟩ := List.append_of_mem ha
    refine ⟨ahead, a, behind, rfl, hfound, fun x hx => ?_⟩
    rw [← Option.not_isSome_iff_eq_none]
    intro hsome
    have hxa := (List.pairwise_append.mp hset).2.2 x hx a (List.mem_cons_self ..)
    have hne : x ≠ a := fun heq => h.asymm (heq ▸ hxa) (heq ▸ hxa)
    exact h.asymm hxa (hleast x (List.mem_append_left _ hx) hsome hne)

end total

theorem total_lt_nat : Total fun a b : Nat => decide (a < b) where
  trans hab hbc := by simp at *; omega
  asymm hab hba := by simp at *; omega
  total hne hab := by simp at *; omega

theorem total_lt_string : Total fun a b : String => decide (a < b) where
  trans hab hbc := decide_eq_true (String.lt_trans (of_decide_eq_true hab) (of_decide_eq_true hbc))
  asymm hab hba := String.lt_asymm (of_decide_eq_true hab) (of_decide_eq_true hba)
  total hne hab := decide_eq_true <| Decidable.byContradiction fun hba => hne <|
    String.le_antisymm (String.not_lt.mp hba) (String.not_lt.mp fun hlt => hab (decide_eq_true hlt))

end Ordered

theorem NodeId.total_before : Ordered.Total NodeId.before where
  trans hab hbc := by simp [NodeId.before] at *; omega
  asymm hab hba := by simp [NodeId.before] at *; omega
  total {a b} hne hab := by
    have hparts : ¬ (a.slot = b.slot ∧ a.version = b.version) := by
      rintro ⟨hslot, hversion⟩
      cases a
      cases b
      exact hne (congr (congrArg NodeId.mk hslot) hversion)
    simp [NodeId.before] at *
    omega

end Strata
