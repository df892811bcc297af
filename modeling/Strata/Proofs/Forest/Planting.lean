import Strata.Proofs.Forest.Growth

/-! Planted groves are read back.

`Bears f own ids g` says that the nodes `ids` of `f` carry the trees of the grove `g`, and that
`own` holds of every node of them. A grove that is planted below a node is borne by new children of
it (`bears_plant`), and what some nodes bear is what reading them gives: a node at depth `n` has `n`
nodes above it, so the fuel is never short (`Bears.groveOf`). -/
namespace Strata.Forest

variable {α : Type} {f g : Forest α} {own : NodeId → Prop} {ids : List NodeId} {grove : Grove α}

inductive Bears (f : Forest α) (own : NodeId → Prop) : List NodeId → Grove α → Prop where
  | nil : Bears f own [] .nil
  | cons {id ids top below rest} : own id → f.get? id = some top →
      Bears f own (f.children id) below → Bears f own ids rest →
      Bears f own (id :: ids) (.cons top below rest)

namespace Bears

/-- What some nodes bear depends on these only. -/
theorem congr {more : NodeId → Prop} (h : f.Bears own ids grove)
    (hsame : ∀ x, own x → more x ∧ g.get? x = f.get? x ∧ g.children x = f.children x) :
    g.Bears more ids grove := by
  induction h with
  | nil => exact .nil
  | cons hown htop _ _ ihb ihr =>
    obtain ⟨hmore, hget, hchildren⟩ := hsame _ hown
    exact .cons hmore (hget.trans htop) (hchildren ▸ ihb) ihr

/-- All that is met from nodes that bear a grove is theirs. -/
theorem own_of_met (h : f.Bears own ids grove) {met : List NodeId}
    (hv : Visits f.children ids met) {x : NodeId} (hx : x ∈ met) : own x := by
  induction h generalizing met with
  | nil =>
    cases hv
    cases hx
  | cons hown _ _ _ ihb ihr =>
    cases hv with
    | cons hinner houter =>
      rcases List.mem_cons.mp hx with rfl | hx
      · exact hown
      · exact (List.mem_append.mp hx).elim (ihb hinner) (ihr houter)

/-- What some nodes bear is read back, as long as the fuel and what is above them fill the slots. -/
theorem groveOf (hf : WellFormed f) (h : f.Bears own ids grove) (fuel : Nat)
    (hfuel : ∀ id ∈ ids, f.slots.size < fuel + (f.lineage id).length) :
    f.groveOf fuel ids = grove := by
  induction h generalizing fuel with
  | nil => cases fuel <;> rfl
  | @cons id ids top below rest _ htop _ _ ihb ihr =>
    have hlive := contains_iff_get?.mpr ⟨top, htop⟩
    have hshort := hf.ascent_length_le (hf.ascent_lineage id) hlive
    have hid := hfuel id (List.mem_cons_self ..)
    obtain ⟨k, rfl⟩ := Nat.exists_eq_succ_of_ne_zero (n := fuel) (by omega)
    have hbelow : f.groveOf k (f.children id) = below := by
      refine ihb k fun c hc => ?_
      rw [hf.lineage_of_parent? ((hf.listed c id).mp hc), List.length_cons]
      omega
    have hrest : f.groveOf (k + 1) ids = rest := ihr (k + 1) fun c hc =>
      hfuel c (List.mem_cons_of_mem _ hc)
    unfold Forest.groveOf at hrest ⊢
    rw [List.foldr_cons, htop, hrest, hbelow]

end Bears

/-- A root with the trees of a grove below it gives the grove. -/
theorem WellFormed.grove_eq (hf : WellFormed f) {root : NodeId}
    (h : f.Bears own (f.children root) grove) : f.grove root = grove := by
  refine h.groveOf hf _ fun c hc => ?_
  rw [hf.lineage_of_parent? ((hf.listed c root).mp hc)]
  have habove := List.length_pos_of_mem (hf.mem_lineage.mpr (Within.refl root))
  rw [List.length_cons]
  omega

/-! ### Planting -/

section append

variable (h : WellFormed f) {parent : NodeId} (hp : f.contains parent = true) (data : α)
include h

theorem not_contains_appended : f.contains (f.append parent data).1 = false :=
  not_contains_created h.stocked data

include hp

theorem planted_append : Planted f (f.append parent data).2 parent [data] :=
  planted_insertChild h hp _ data

theorem get?_appended : (f.append parent data).2.get? (f.append parent data).1 = some data :=
  (get?_insertChild h hp _ data _).trans (if_pos rfl)

theorem children_append (x : NodeId) : (f.append parent data).2.children x =
    if x = parent then f.children parent ++ [(f.append parent data).1] else f.children x := by
  refine (children_insertChild h hp _ data x).trans ?_
  rw [Nat.min_self, List.insertIdx_length_self]
  rfl

end append

/-- A tree and the trees behind it are planted one after another. -/
theorem plant_cons (f : Forest α) (parent : NodeId) (top : α) (below rest : Grove α) :
    (f.plant parent (.cons top below rest)).2 =
      (((f.append parent top).2.plant (f.append parent top).1 below).2.plant parent rest).2 := rfl

/-- Its nodes come in document order. -/
theorem plant_cons_fst (f : Forest α) (parent : NodeId) (top : α) (below rest : Grove α) :
    (f.plant parent (.cons top below rest)).1 =
      (f.append parent top).1 ::
        (((f.append parent top).2.plant (f.append parent top).1 below).1 ++
          (((f.append parent top).2.plant (f.append parent top).1 below).2.plant parent rest).1) := rfl

/-- Planting below a node leaves the children of all others. -/
theorem children_plant (h : WellFormed f) {parent : NodeId} (hp : f.contains parent = true)
    (grove : Grove α) {x : NodeId} (hx : f.contains x = true) (hne : x ≠ parent) :
    (f.plant parent grove).2.children x = f.children x := by
  induction grove generalizing f parent with
  | nil => rfl
  | cons top below rest ihb ihr =>
    have htop := planted_append h hp top
    have hchild := contains_of_parent? (append_fst_child h hp top)
    have hnew : x ≠ (f.append parent top).1 := by
      rintro rfl
      rw [not_contains_appended h] at hx
      cases hx
    have hinner := planted_plant htop.wellFormed hchild below
    rw [plant_cons, ihr hinner.wellFormed (hinner.grown.live _ (htop.grown.live parent hp))
      (hinner.grown.live x (htop.grown.live x hx)) hne,
      ihb htop.wellFormed hchild (htop.grown.live x hx) hnew, children_append h hp, if_neg hne]

/-- **A planted grove is borne by new children of its parent**, and its nodes come in document
order. -/
theorem exists_planted (h : WellFormed f) {parent : NodeId} (hp : f.contains parent = true)
    (grove : Grove α) : ∃ tops,
      (f.plant parent grove).2.children parent = f.children parent ++ tops ∧
      (f.plant parent grove).2.Bears (fun x => f.contains x = false ∧
        (f.plant parent grove).2.contains x = true) tops grove ∧
      Visits (f.plant parent grove).2.children tops (f.plant parent grove).1 := by
  induction grove generalizing f parent with
  | nil => exact ⟨[], (List.append_nil _).symm, .nil, .nil⟩
  | cons top below rest ihb ihr =>
    have htop := planted_append h hp top
    have hnew : f.contains (f.append parent top).1 = false := not_contains_appended h top
    have hget := get?_appended h hp top
    have hchild := contains_of_parent? (append_fst_child h hp top)
    have hline := children_append h hp top
    have hne : parent ≠ (f.append parent top).1 := by
      intro heq
      rw [← heq, hp] at hnew
      cases hnew
    rw [plant_cons, plant_cons_fst]
    generalize f.append parent top = made at *
    obtain ⟨id, f₁⟩ := made
    have hinner := planted_plant htop.wellFormed hchild below
    have hlive := hinner.grown.live parent (htop.grown.live parent hp)
    have houter := planted_plant hinner.wellFormed hlive rest
    obtain ⟨inner, hbare, hbelow, hmetb⟩ := ihb htop.wellFormed hchild
    obtain ⟨outer, hlast, hrest, hmetr⟩ := ihr hinner.wellFormed hlive
    rw [hline, if_neg hne.symm, children_eq_nil hnew, List.nil_append] at hbare
    have hfirst : (f₁.plant id below).2.children parent = f.children parent ++ [id] := by
      rw [children_plant htop.wellFormed hchild below (htop.grown.live parent hp) hne, hline,
        if_pos rfl]
    have hdead : ∀ {x}, f₁.contains x = false → f.contains x = false := fun {x} hx => by
      cases hf : f.contains x with
      | false => rfl
      | true => rw [htop.grown.live x hf] at hx; cases hx
    -- What comes behind leaves the children of the nodes that are there.
    have hsame : ∀ x, f₁.contains x = false ∧ (f₁.plant id below).2.contains x = true →
        ((f₁.plant id below).2.plant parent rest).2.children x =
          (f₁.plant id below).2.children x := by
      intro x hx
      refine children_plant hinner.wellFormed hlive rest hx.2 ?_
      rintro rfl
      rw [htop.grown.live x hp] at hx
      cases hx.1
    have hid : ((f₁.plant id below).2.plant parent rest).2.children id = inner := by
      rw [children_plant hinner.wellFormed hlive rest (hinner.grown.live _ hchild) hne.symm, hbare]
    refine ⟨id :: outer, by rw [hlast, hfirst, List.append_assoc]; rfl,
      .cons ⟨hnew, houter.grown.live _ (hinner.grown.live _ hchild)⟩ ?_ ?_ ?_, .cons ?_ hmetr⟩
    · rw [houter.grown.data _ (hinner.grown.live _ hchild), hinner.grown.data _ hchild, hget]
    · rw [hid]
      exact hbelow.congr fun x hx => ⟨⟨hdead hx.1, houter.grown.live x hx.2⟩,
        houter.grown.data x hx.2, hsame x hx⟩
    · refine hrest.congr fun x hx => ⟨⟨?_, hx.2⟩, rfl, rfl⟩
      cases hf : f.contains x with
      | false => rfl
      | true =>
        rw [hinner.grown.live x (htop.grown.live x hf)] at hx
        cases hx.1
    · rw [hid]
      exact hmetb.congr fun x hx => hsame x (hbelow.own_of_met hmetb hx)

theorem bears_plant (h : WellFormed f) {parent : NodeId} (hp : f.contains parent = true)
    (grove : Grove α) : ∃ tops,
      (f.plant parent grove).2.children parent = f.children parent ++ tops ∧
      (f.plant parent grove).2.Bears (fun x => f.contains x = false ∧
        (f.plant parent grove).2.contains x = true) tops grove := by
  obtain ⟨tops, hchildren, hbears, -⟩ := exists_planted h hp grove
  exact ⟨tops, hchildren, hbears⟩

/-- **What is planted below a node without children is read back.** -/
theorem grove_plant (h : WellFormed f) {parent : NodeId} (hp : f.contains parent = true)
    (hempty : f.children parent = []) (grove : Grove α) :
    (f.plant parent grove).2.grove parent = grove := by
  obtain ⟨tops, hchildren, hbears⟩ := bears_plant h hp grove
  rw [hempty, List.nil_append] at hchildren
  exact (planted_plant h hp grove).wellFormed.grove_eq (hchildren ▸ hbears)

end Strata.Forest
