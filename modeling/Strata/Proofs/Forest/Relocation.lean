import Strata.Proofs.Forest.Edits

/-! Nodes that move below a top.

Some nodes move, one after another, below a node that is within none of them:
behind the children it has, or in front of them. Either way `Gathered` holds, which
says where each node ends up and in what order. -/
namespace Strata.Forest

variable {α : Type} {f g : Forest α}

/-- A node stays within a top as long as nothing between the two gets another parent. -/
theorem within_of_kept {top id : NodeId} (hw : f.Within top id)
    (hkept : ∀ a, f.Below top a → f.Within a id → g.parent? a = f.parent? a) :
    g.Within top id := by
  induction hw using Relation.ReflTransGen.head_induction_on with
  | refl => exact Within.refl _
  | @head a c hac hct ih =>
    refine Within.step ?_ (ih fun x hb hx => hkept x hb (Within.trans hx (Within.of_parent hac)))
    rw [hkept a ⟨c, hac, hct⟩ (Within.refl a), hac]

/-- `nodes` have moved below `top`, in their order; `lined` are its children now. -/
structure Gathered (f g : Forest α) (top : NodeId) (nodes lined : List NodeId) : Prop where
  wellFormed : WellFormed g
  live : ∀ x, g.contains x = f.contains x
  data : ∀ x, g.get? x = f.get? x
  parent : ∀ x, g.parent? x = if x ∈ nodes then some top else f.parent? x
  children : ∀ x, g.children x =
    if x = top then lined else (f.children x).filter fun c => c ∉ nodes

/-- A node without a parent is within nothing else. -/
theorem not_within_top {id top : NodeId} (hnone : f.parent? top = none) (hne : id ≠ top) :
    ¬ f.Within id top :=
  fun hw => hne (hw.eq_of_parent?_eq_none hnone).symm

theorem gathered_nil (h : WellFormed f) (top : NodeId) :
    Gathered f f top [] (f.children top) where
  wellFormed := h
  live _ := rfl
  data _ := rfl
  parent x := by simp
  children x := by
    split
    · next heq => rw [heq]
    · simp

theorem Gathered.cons {k : Forest α} {id top : NodeId} {nodes lined : List NodeId} {index : Nat}
    (h : WellFormed f) (hm : f.Movable id top)
    (hg : Gathered (f.move id top index) k top nodes lined) :
    Gathered f k top (id :: nodes) lined where
  wellFormed := hg.wellFormed
  live x := by rw [hg.live, contains_move h]
  data x := by rw [hg.data, get?_move h hm]
  parent x := by
    rw [hg.parent, parent?_move h hm]
    by_cases hx : x = id <;> simp [hx]
  children x := by
    rw [hg.children, children_move h hm]
    split
    · rfl
    · next hx =>
      rw [List.filter_filter]
      refine List.filter_congr fun c _ => ?_
      rw [Bool.eq_iff_iff]
      simp [not_or, and_comm]

/-- Nodes that can move below a top one after another. -/
structure Gatherable (f : Forest α) (top : NodeId) (nodes : List NodeId) : Prop where
  wellFormed : WellFormed f
  top_live : f.contains top = true
  live : ∀ id ∈ nodes, f.contains id = true
  nodup : nodes.Nodup
  outside : ∀ id ∈ nodes, f.parent? id ≠ some top
  free : ∀ id ∈ nodes, ¬ f.Within id top

namespace Gatherable

variable {id top : NodeId} {nodes : List NodeId} (h : Gatherable f top (id :: nodes))
include h

theorem movable : f.Movable id top :=
  ⟨h.live id (List.mem_cons_self ..), h.top_live, h.free id (List.mem_cons_self ..)⟩

theorem not_child : id ∉ f.children top := fun hc =>
  h.outside id (List.mem_cons_self ..) ((h.wellFormed.listed id top).mp hc)

theorem move (index : Nat) : Gatherable (f.move id top index) top nodes where
  wellFormed := h.wellFormed.move h.movable index
  top_live := by rw [contains_move h.wellFormed, h.top_live]
  live x hx := by
    rw [contains_move h.wellFormed]
    exact h.live x (List.mem_cons_of_mem _ hx)
  nodup := (List.nodup_cons.mp h.nodup).2
  outside x hx := by
    have hne : x ≠ id := fun heq => (List.nodup_cons.mp h.nodup).1 (heq ▸ hx)
    rw [parent?_move h.wellFormed h.movable, if_neg hne]
    exact h.outside x (List.mem_cons_of_mem _ hx)
  free x hx hw := by
    -- The first node is not above the top, so what is above the top now was so before.
    have hbefore : ∀ y, (f.move id top index).Within x y → f.Within y top → f.Within x top := by
      intro y hy
      induction hy using Relation.ReflTransGen.head_induction_on with
      | refl => exact fun hw => hw
      | @head b c hbc _ ih =>
        intro hb
        have hne : b ≠ id := fun heq => h.movable.not_within (heq ▸ hb)
        rw [parent?_move h.wellFormed h.movable, if_neg hne] at hbc
        exact ih (Within.trans (Within.of_parent hbc) hb)
    exact h.free x (List.mem_cons_of_mem _ hx) (hbefore top hw (Within.refl _))

theorem children_move_top (index : Nat) :
    (f.move id top index).children top =
      (f.children top).insertIdx (min index (f.children top).length) id := by
  have hothers : (f.children top).filter (· != id) = f.children top := by
    refine List.filter_eq_self.mpr fun c hc => bne_iff_ne.mpr ?_
    rintro rfl
    exact h.not_child hc
  rw [children_move h.wellFormed h.movable, if_pos rfl, hothers]

end Gatherable

/-- Each of some nodes moves behind the children that `top` has. -/
theorem gathered_moveLast {top : NodeId} {nodes : List NodeId} (h : Gatherable f top nodes) :
    Gathered f (nodes.foldl (fun f id => f.moveLast id top) f) top nodes
      (f.children top ++ nodes) := by
  induction nodes generalizing f with
  | nil => simpa using gathered_nil h.wellFormed top
  | cons id nodes ih =>
    have hrest := ih (h.move (f.children top).length)
    rw [h.children_move_top, Nat.min_self, List.insertIdx_length_self, List.append_assoc] at hrest
    exact hrest.cons h.wellFormed h.movable

theorem insertIdx_behind (ahead behind : List NodeId) (id : NodeId) :
    (ahead ++ behind).insertIdx ahead.length id = ahead ++ id :: behind := by
  induction ahead with
  | nil => simp
  | cons a ahead ih => simp [ih]

/-- Each of some nodes moves behind the first `ahead.length` children that `top` has, and behind
those moved before. -/
theorem gathered_move {top : NodeId} {nodes ahead behind : List NodeId}
    (h : Gatherable f top nodes) (hc : f.children top = ahead ++ behind) :
    Gathered f
      ((nodes.zipIdx ahead.length).foldl (fun f (id, index) => f.move id top index) f) top nodes
      (ahead ++ nodes ++ behind) := by
  induction nodes generalizing f ahead with
  | nil => simpa [hc] using gathered_nil h.wellFormed top
  | cons id nodes ih =>
    have hmoved : (f.move id top ahead.length).children top = (ahead ++ [id]) ++ behind := by
      rw [h.children_move_top, hc, List.length_append, Nat.min_eq_left (Nat.le_add_right ..),
        insertIdx_behind, List.append_assoc]
      rfl
    have hrest := ih (h.move ahead.length) hmoved
    rw [List.length_append, List.append_assoc ahead] at hrest
    exact hrest.cons h.wellFormed h.movable

end Strata.Forest
