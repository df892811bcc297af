import Mathlib.Logic.Function.Iterate
import Strata.Proofs.Forest.Growth

/-! Walks with a visitor.

A visitor is asked at each node whether what is below it is skipped, and may remember what it has seen.
One turn takes the next node from those ahead and puts what is below it in front of the others
(`Tour.next`). After as many turns as there are slots nothing is ahead, and the nodes met are those of the
plain walk that skips where the visitor did (`tour_met`). So what is true of plain walks is true whatever
a visitor remembers: they follow the pre-order of the recursion, and meet each node once. -/
namespace Strata.Forest

variable {α σ : Type} {f : Forest α}

/-- What a visitor remembers behind a node, and whether what is below the node is skipped. -/
abbrev Visitor (α σ : Type) := σ → NodeId → α → σ × Bool

structure Tour (σ : Type) where
  /-- The nodes to be met, the next one first. -/
  ahead : List NodeId
  memory : σ
  /-- The nodes met, each with whether what is below it was skipped. -/
  met : List (NodeId × Bool)

namespace Tour

def next (f : Forest α) (visit : Visitor α σ) (t : Tour σ) : Tour σ :=
  match t.ahead with
  | [] => t
  | id :: ahead =>
    match f.get? id with
    | none => { t with ahead }
    | some data =>
      let (memory, skip) := visit t.memory id data
      ⟨if skip then ahead else f.children id ++ ahead, memory, t.met ++ [(id, skip)]⟩

theorem next_nil (visit : Visitor α σ) (memory : σ) (met : List (NodeId × Bool)) :
    next f visit ⟨[], memory, met⟩ = ⟨[], memory, met⟩ := rfl

theorem next_cons {id : NodeId} {data : α} (hdata : f.get? id = some data) (visit : Visitor α σ)
    (ahead : List NodeId) (memory : σ) (met : List (NodeId × Bool)) :
    next f visit ⟨id :: ahead, memory, met⟩ =
      ⟨if (visit memory id data).2 then ahead else f.children id ++ ahead,
        (visit memory id data).1, met ++ [(id, (visit memory id data).2)]⟩ := by
  simp only [next, hdata]

end Tour

/-- The walk below `start` with a visitor, as many turns as there are slots. -/
def tour (f : Forest α) (visit : Visitor α σ) (memory : σ) (start : NodeId) : Tour σ :=
  (Tour.next f visit)^[f.slots.size] ⟨f.children start, memory, []⟩

/-! ### A visitor without memory -/

/-- Without memory the turns of a walk are those of `walkStack`. -/
theorem iterate_next_plain (skip : NodeId → α → Bool) (n : Nat) (ahead : List NodeId)
    (met : List (NodeId × Bool)) :
    ((Tour.next f fun _ id data => ((), skip id data))^[n] ⟨ahead, (), met⟩).met.map Prod.fst =
      met.map Prod.fst ++ f.walkStack skip n ahead := by
  induction n generalizing ahead met with
  | zero => simp [walkStack]
  | succ n ih =>
    rw [Function.iterate_succ_apply]
    cases ahead with
    | nil =>
      rw [Tour.next_nil, ih]
      cases n <;> rfl
    | cons id ahead =>
      cases hdata : f.get? id with
      | none =>
        have hnext : Tour.next f (fun _ id data => ((), skip id data)) ⟨id :: ahead, (), met⟩ =
            ⟨ahead, (), met⟩ := by simp only [Tour.next, hdata]
        rw [hnext, ih, walkStack, hdata]
      | some data =>
        rw [Tour.next_cons hdata, ih, walkStack, hdata]
        simp

theorem tour_plain (f : Forest α) (skip : NodeId → α → Bool) (start : NodeId) :
    (f.tour (fun _ id data => ((), skip id data)) () start).met.map Prod.fst = f.walk start skip :=
  iterate_next_plain skip f.slots.size (f.children start) []

/-! ### A visitor with memory -/

/-- What a visitor meets from a stack when all below it would be met in the order `all`. It takes a
turn for each node, the nodes are some of these in their order, and any `enter` that agrees with the
answers of the visitor gives them in its recursion. -/
theorem exists_met {stack all : List NodeId} (h : Visits f.children stack all)
    (hlive : ∀ id ∈ all, f.contains id = true) (visit : Visitor α σ) (memory : σ) :
    ∃ (met : List (NodeId × Bool)) (last : σ),
      (∀ rest before, (Tour.next f visit)^[met.length] ⟨stack ++ rest, memory, before⟩ =
        ⟨rest, last, before ++ met⟩) ∧
      (met.map Prod.fst).Sublist all ∧
      ∀ enter : NodeId → List NodeId, (∀ e ∈ met, enter e.1 = if e.2 then [] else f.children e.1) →
        Visits enter stack (met.map Prod.fst) := by
  induction h generalizing memory with
  | nil => exact ⟨[], memory, fun rest before => by simp, List.Sublist.refl _, fun _ _ => .nil⟩
  | @cons id stack inner outer _ _ ihinner ihouter =>
    obtain ⟨hid, hbelow⟩ := List.forall_mem_cons.mp hlive
    obtain ⟨hinner, houter⟩ := List.forall_mem_append.mp hbelow
    obtain ⟨data, hdata⟩ := contains_iff_get?.mp hid
    cases hskip : (visit memory id data).2 with
    | true =>
      obtain ⟨met, last, hrun, hsub, henter⟩ := ihouter houter (visit memory id data).1
      refine ⟨(id, true) :: met, last, fun rest before => ?_, ?_, fun enter hagree => ?_⟩
      · rw [List.length_cons, Function.iterate_succ_apply, List.cons_append, Tour.next_cons hdata,
          hskip, if_pos rfl, hrun, List.append_assoc, List.singleton_append]
      · exact .cons_cons _ (hsub.trans (List.sublist_append_right ..))
      · obtain ⟨hhere, hrest⟩ := List.forall_mem_cons.mp hagree
        have hnil : Visits enter (enter id) [] := by
          rw [show enter id = [] from hhere]
          exact .nil
        exact .cons hnil (henter enter hrest)
    | false =>
      obtain ⟨met, middle, hrun, hsub, henter⟩ := ihinner hinner (visit memory id data).1
      obtain ⟨met', last, hrun', hsub', henter'⟩ := ihouter houter middle
      refine ⟨(id, false) :: (met ++ met'), last, fun rest before => ?_, ?_, fun enter hagree => ?_⟩
      · rw [List.length_cons, Function.iterate_succ_apply, List.cons_append, Tour.next_cons hdata,
          hskip, if_neg Bool.false_ne_true, List.length_append, Nat.add_comm met.length,
          Function.iterate_add_apply, hrun, hrun']
        simp
      · rw [List.map_cons, List.map_append]
        exact .cons_cons _ (hsub.append hsub')
      · obtain ⟨hhere, hrest⟩ := List.forall_mem_cons.mp hagree
        obtain ⟨hin, hout⟩ := List.forall_mem_append.mp hrest
        rw [List.map_cons, List.map_append]
        refine .cons ?_ (henter' enter hout)
        rw [show enter id = f.children id from hhere]
        exact henter enter hin

/-- In a list without a node twice each node has one answer. -/
theorem decide_mem_of_nodup {met : List (NodeId × Bool)} (h : (met.map Prod.fst).Nodup) :
    ∀ e ∈ met, decide ((e.1, true) ∈ met) = e.2 := by
  rintro ⟨id, skip⟩ he
  cases skip with
  | true => exact decide_eq_true he
  | false =>
    refine decide_eq_false fun htrue => ?_
    exact absurd (List.inj_on_of_nodup_map h htrue he rfl) (by simp)

/-! ### Document order -/

/-- The nodes met are those below `start` without a skipped node between, each once, in the pre-order of
the recursion into what is not skipped. -/
structure InDocumentOrder (f : Forest α) (start : NodeId) (skipped : NodeId → Bool)
    (met : List NodeId) : Prop where
  preorder : Visits (fun id => if skipped id then [] else f.children id) (f.children start) met
  once : met.Nodup
  exact : ∀ id, id ∈ met ↔
    f.Below start id ∧ ∀ a, f.Below start a → f.Below a id → skipped a = false

/-- The nodes found are the outermost of those below `start` that are matched, each once, in the order
of all that is below `start`. -/
structure Outermost (f : Forest α) (start : NodeId) (matched : NodeId → Bool)
    (found : List NodeId) : Prop where
  ordered : found.Sublist (f.below start)
  once : found.Nodup
  exact : ∀ id, id ∈ found ↔ f.Below start id ∧ matched id = true ∧
    ∀ a, f.Below start a → f.Below a id → matched a = false
  apart : ∀ a ∈ found, ∀ b ∈ found, f.Within a b → a = b

namespace WellFormed

variable (h : WellFormed f) (start : NodeId)
include h

theorem inDocumentOrder_walk (skip : NodeId → α → Bool) :
    InDocumentOrder f start (fun id => (f.get? id).any (skip id)) (f.walk start skip) :=
  ⟨h.visits_walk start skip, h.nodup_walk start skip, fun _ => h.mem_walk⟩

/-- The nodes at which a walk stops that skips what is matched are the outermost of these. -/
theorem outermost_stops (skip : NodeId → α → Bool) :
    Outermost f start (fun id => (f.get? id).any (skip id)) (f.stops start skip) where
  ordered := List.filter_sublist.trans (h.walk_sublist_below start skip)
  once := (h.nodup_walk start skip).filter _
  exact _ := h.mem_stops
  apart _ ha _ hb := h.stops_apart ha hb

theorem live_below : ∀ id ∈ f.below start, f.contains id = true := by
  intro id hid
  obtain ⟨parent, hparent, -⟩ := (h.mem_walk.mp hid).1
  exact contains_of_parent? hparent

/-- There are turns enough for every node below `start`. -/
theorem exists_tour (visit : Visitor α σ) (memory : σ) : ∃ (met : List (NodeId × Bool)) (last : σ),
    f.tour visit memory start = ⟨[], last, met⟩ ∧ (met.map Prod.fst).Sublist (f.below start) ∧
      ∀ enter : NodeId → List NodeId, (∀ e ∈ met, enter e.1 = if e.2 then [] else f.children e.1) →
        Visits enter (f.children start) (met.map Prod.fst) := by
  have hlive := h.live_below start
  obtain ⟨met, last, hrun, hsub, henter⟩ := exists_met (h.visits_below start) hlive visit memory
  have hlen : met.length ≤ f.slots.size := by
    rw [← List.length_map Prod.fst]
    exact Nat.le_trans hsub.length_le (length_le_of_live (h.nodup_walk start fun _ _ => false) hlive)
  have hmet := hrun [] []
  rw [List.append_nil, List.nil_append] at hmet
  refine ⟨met, last, ?_, hsub, henter⟩
  rw [tour, ← Nat.sub_add_cancel hlen, Function.iterate_add_apply, hmet]
  exact Function.iterate_fixed (Tour.next_nil visit last met) _

/-- **With any visitor a walk ends, and meets what the plain walk meets that skips where the visitor
did.** -/
theorem tour_met (visit : Visitor α σ) (memory : σ) :
    (f.tour visit memory start).ahead = [] ∧ ∃ skipped : NodeId → Bool,
      (∀ id, skipped id = true → f.contains id = true) ∧
      (f.tour visit memory start).met =
        (f.walk start fun id _ => skipped id).map fun id => (id, skipped id) := by
  obtain ⟨met, last, htour, hsub, henter⟩ := h.exists_tour start visit memory
  have hlive : ∀ id ∈ met.map Prod.fst, f.contains id = true :=
    fun id hid => h.live_below start id (hsub.subset hid)
  have hanswer := decide_mem_of_nodup (hsub.nodup (h.nodup_walk start fun _ _ => false))
  rw [htour]
  refine ⟨rfl, fun id => decide ((id, true) ∈ met), fun id hid => ?_, ?_⟩
  · exact hlive id (List.mem_map_of_mem (of_decide_eq_true hid))
  have hvisits := henter (f.entered fun id _ => decide ((id, true) ∈ met)) fun e he => by
    obtain ⟨data, hdata⟩ := contains_iff_get?.mp (hlive e.1 (List.mem_map_of_mem he))
    rw [entered, hdata, Option.any_some, hanswer e he]
  rw [← hvisits.unique (h.visits_walk start fun id _ => decide ((id, true) ∈ met)), List.map_map]
  refine (List.map_id met).symm.trans (List.map_congr_left fun e he => ?_)
  exact Prod.ext rfl (hanswer e he).symm

/-- **Walks follow the document.** A plain walk meets exactly what no skipped node is above, in
pre-order, and `outermost` finds exactly the matched nodes that are not inside another. A visitor that
remembers what it has seen, be it asked to skip or to match, walks the same way. -/
theorem walks_in_document_order :
    (∀ skip : NodeId → α → Bool,
      (f.tour (fun _ id data => ((), skip id data)) () start).met.map Prod.fst = f.walk start skip ∧
      InDocumentOrder f start (fun id => (f.get? id).any (skip id)) (f.walk start skip)) ∧
    (∀ p : α → Bool,
      Outermost f start (fun id => (f.get? id).any p) (f.outermost start p)) ∧
    ∀ {σ : Type} (visit : Visitor α σ) (memory : σ),
      (f.tour visit memory start).ahead = [] ∧ ∃ skipped : NodeId → Bool,
        (∀ e ∈ (f.tour visit memory start).met, skipped e.1 = e.2) ∧
        InDocumentOrder f start skipped ((f.tour visit memory start).met.map Prod.fst) ∧
        Outermost f start skipped
          (((f.tour visit memory start).met.filter Prod.snd).map Prod.fst) := by
  refine ⟨fun skip => ⟨tour_plain f skip start, h.inDocumentOrder_walk start skip⟩,
    fun p => h.outermost_stops start fun _ => p, fun visit memory => ?_⟩
  obtain ⟨hahead, skipped, hlive, hmet⟩ := h.tour_met start visit memory
  have hany : (fun id => (f.get? id).any fun _ => skipped id) = skipped := by
    funext id
    cases hskipped : skipped id with
    | false => cases f.get? id <;> rfl
    | true =>
      obtain ⟨data, hdata⟩ := contains_iff_get?.mp (hlive id hskipped)
      rw [hdata]
      rfl
  have horder := h.inDocumentOrder_walk start fun id _ => skipped id
  have houtermost := h.outermost_stops start fun id _ => skipped id
  rw [stops, hany] at houtermost
  rw [hany] at horder
  refine ⟨hahead, skipped, ?_, ?_, ?_⟩
  · rw [hmet]
    simp
  · rw [hmet, List.map_map]
    simpa [Function.comp_def] using horder
  · rw [hmet, List.filter_map, List.map_map]
    simpa [Function.comp_def] using houtermost

end WellFormed

/-- A root with two nodes, the first of which has two nodes below it and the second one. -/
def twoBranches : Forest Unit :=
  ((empty.create ()).2.plant ⟨0, 0⟩
    (.cons () (.cons () .nil (.cons () .nil .nil)) (.cons () (.cons () .nil .nil) .nil))).2

/-- A visitor that counts, and skips what is below every second node. -/
theorem walks_with_count : twoBranches.WellFormed ∧
    (twoBranches.tour (fun n _ _ => (n + 1, n % 2 == 1)) 0 ⟨0, 0⟩).met =
      [(⟨1, 0⟩, false), (⟨2, 0⟩, true), (⟨3, 0⟩, false), (⟨4, 0⟩, true)] ∧
    ∃ skipped, (∀ id ∈ [⟨2, 0⟩, ⟨4, 0⟩], skipped id = true) ∧
      InDocumentOrder twoBranches ⟨0, 0⟩ skipped [⟨1, 0⟩, ⟨2, 0⟩, ⟨3, 0⟩, ⟨4, 0⟩] ∧
      Outermost twoBranches ⟨0, 0⟩ skipped [⟨2, 0⟩, ⟨4, 0⟩] := by
  have hroot := (contains_create stocked_empty () _).mpr (Or.inl rfl)
  have hwf : twoBranches.WellFormed := (planted_plant (wellFormed_empty.create _) hroot _).wellFormed
  have hmet : (twoBranches.tour (fun n _ _ => (n + 1, n % 2 == 1)) 0 ⟨0, 0⟩).met =
      [(⟨1, 0⟩, false), (⟨2, 0⟩, true), (⟨3, 0⟩, false), (⟨4, 0⟩, true)] := by decide +kernel
  obtain ⟨-, skipped, hsame, horder, houtermost⟩ :=
    (hwf.walks_in_document_order ⟨0, 0⟩).2.2 (fun n _ _ => (n + 1, n % 2 == 1)) 0
  rw [hmet] at hsame horder houtermost
  refine ⟨hwf, hmet, skipped, ?_, horder, houtermost⟩
  intro id hid
  exact hsame (id, true) (by revert id; decide)

end Strata.Forest
