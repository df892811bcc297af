import Mathlib.Logic.Relation
import Strata.ImportGraph
import Strata.Layers
import Strata.Proofs.Workspace.Load
import Strata.Split.Decision

/-! Which stylesheets are split, asked in any order.

`Decides` says it without kept answers: the answer for a stylesheet goes by the answers for its
importers. `Settles` is the search as it goes, with no bound on its steps. The steps that are given
always suffice for it, and nothing is looked at twice (`exists_settlesAll`). Where imports have no
cycle no answer is asked for while it is sought; so the search decides, and there is one decision
(`decided_in_any_order`). -/
namespace Strata

/-- May be split at all. -/
structure Sheet.Candidate (settings : Settings) (s : Sheet) : Prop where
  file : s.file.isSome = true
  kept : s.discarded = false
  authored : s.derived = false
  layered : ∃ layer ∈ settings.layers, layer ∈ s.layers

namespace Workspace

variable {w : Workspace} {settings : Settings}

/-! ### The decision without a search -/

/-- `x` holds an import of `y` that no migration added. -/
def ImportsAuthored (w : Workspace) (x y : SheetId) : Prop :=
  ∃ s rule n, w.get? y = some s ∧ rule ∈ s.inbound ∧ w.doc.get? rule = some n ∧
    n.isAdded = false ∧ w.sheetOf? rule = some x

/-- The top level is not empty and holds outermost utilities only. -/
def ConsistsOfUtilities (w : Workspace) (settings : Settings) (id : SheetId) (s : Sheet) : Prop :=
  w.doc.children s.root ≠ [] ∧
    ∀ child ∈ w.doc.children s.root, child ∈ w.utilities settings id

/-- Every import that no migration added is a quoted specifier and nothing else. -/
def PlainlyImported (w : Workspace) (s : Sheet) : Prop :=
  ∀ rule ∈ s.inbound, ∀ n, w.doc.get? rule = some n → n.isAdded = false →
    ∃ params, n.params? = some params ∧ isPlainImport params = true

/-- `S` holds of a stylesheet just when it may be split, holds a utility, and need not stay whole: it
may when it is made of utilities, is imported in the plain way, and no importer is split. -/
def Decides (w : Workspace) (settings : Settings) (S : SheetId → Prop) : Prop :=
  ∀ id, S id ↔ ∃ s, w.get? id = some s ∧ s.Candidate settings ∧ w.utilities settings id ≠ [] ∧
    ¬ (w.ConsistsOfUtilities settings id s ∧ w.PlainlyImported s ∧
      ∀ importer, w.ImportsAuthored importer id → ¬ S importer)

/-- May be split and has something to move. -/
structure CanSplit (w : Workspace) (settings : Settings) (id : SheetId) : Prop where
  eligible : w.isEligible settings id = true
  utilities : w.utilities settings id ≠ []

/-- Holds nothing but utilities and is imported in the plain way only. -/
def IsSelfContained (w : Workspace) (settings : Settings) (id : SheetId) : Prop :=
  (w.consistsOf id (w.utilities settings id) && w.isPlainlyImported id) = true

theorem isEligible_iff {id : SheetId} {s : Sheet} (hs : w.get? id = some s) :
    w.isEligible settings id = true ↔ s.Candidate settings := by
  rw [isEligible, hs, Option.any_some]
  simp only [Bool.and_eq_true, Bool.not_eq_true', Sheet.meetsLayers, List.any_eq_true,
    List.contains_iff_mem]
  exact ⟨fun ⟨⟨⟨hf, hd⟩, ha⟩, hl⟩ => ⟨hf, hd, ha, hl⟩, fun h => ⟨⟨⟨h.file, h.kept⟩, h.authored⟩, h.layered⟩⟩

theorem CanSplit.get? {id : SheetId} (h : w.CanSplit settings id) : ∃ s, w.get? id = some s := by
  obtain ⟨s, hs, -⟩ := (Option.any_eq_true _ _).mp h.eligible
  exact ⟨s, hs⟩

theorem consistsOf_iff {id : SheetId} {s : Sheet} (hs : w.get? id = some s) :
    w.consistsOf id (w.utilities settings id) = true ↔ w.ConsistsOfUtilities settings id s := by
  unfold consistsOf ConsistsOfUtilities
  rw [hs]
  simp

theorem mem_authoredImports {id : SheetId} {s : Sheet} (hs : w.get? id = some s) {rule : NodeId} :
    rule ∈ w.authoredImports id ↔
      rule ∈ s.inbound ∧ ∃ n, w.doc.get? rule = some n ∧ n.isAdded = false := by
  unfold authoredImports
  rw [hs, List.mem_filter, Option.any_eq_true]
  simp only [Bool.not_eq_true']

theorem isPlainlyImported_iff {id : SheetId} {s : Sheet} (hs : w.get? id = some s) :
    w.isPlainlyImported id = true ↔ w.PlainlyImported s := by
  unfold isPlainlyImported PlainlyImported
  rw [List.all_eq_true]
  constructor
  · intro hall rule hrule n hn hauthored
    have hplain := hall rule ((mem_authoredImports hs).mpr ⟨hrule, n, hn, hauthored⟩)
    rw [hn] at hplain
    exact (Option.any_eq_true _ _).mp hplain
  · intro hall rule hrule
    obtain ⟨hin, n, hn, hauthored⟩ := (mem_authoredImports hs).mp hrule
    rw [hn]
    exact (Option.any_eq_true _ _).mpr (hall rule hin n hn hauthored)

theorem mem_importingSheets_iff {x y : SheetId} :
    x ∈ w.importingSheets y ↔ w.ImportsAuthored x y := by
  unfold importingSheets
  rw [List.mem_filterMap]
  constructor
  · rintro ⟨rule, hrule, hx⟩
    cases hs : w.get? y with
    | none => simp [authoredImports, hs] at hrule
    | some s =>
      obtain ⟨hin, n, hn, hauthored⟩ := (mem_authoredImports hs).mp hrule
      exact ⟨s, rule, n, hs, hin, hn, hauthored, hx⟩
  · rintro ⟨s, rule, n, hs, hin, hn, hauthored, hx⟩
    exact ⟨rule, (mem_authoredImports hs).mpr ⟨hin, n, hn, hauthored⟩, hx⟩

/-- What decides, in the terms of the search. -/
theorem decides_iff {S : SheetId → Prop} : w.Decides settings S ↔ ∀ id, S id ↔
    w.CanSplit settings id ∧ ¬ (w.IsSelfContained settings id ∧
      ∀ importer ∈ w.importingSheets id, ¬ S importer) := by
  refine forall_congr' fun id => ?_
  have hstay : ∀ s, w.get? id = some s → (w.ConsistsOfUtilities settings id s ∧
      w.PlainlyImported s ∧ (∀ importer, w.ImportsAuthored importer id → ¬ S importer) ↔
      w.IsSelfContained settings id ∧ ∀ importer ∈ w.importingSheets id, ¬ S importer) := by
    intro s hs
    simp only [IsSelfContained, Bool.and_eq_true, consistsOf_iff hs, isPlainlyImported_iff hs,
      mem_importingSheets_iff, and_assoc]
  have hcan : ∀ s, w.get? id = some s → (w.CanSplit settings id ↔
      s.Candidate settings ∧ w.utilities settings id ≠ []) := by
    intro s hs
    exact ⟨fun h => ⟨(isEligible_iff hs).mp h.eligible, h.utilities⟩,
      fun h => ⟨(isEligible_iff hs).mpr h.1, h.2⟩⟩
  have hsides : (∃ s, w.get? id = some s ∧ s.Candidate settings ∧ w.utilities settings id ≠ [] ∧
      ¬ (w.ConsistsOfUtilities settings id s ∧ w.PlainlyImported s ∧
        ∀ importer, w.ImportsAuthored importer id → ¬ S importer)) ↔
      w.CanSplit settings id ∧ ¬ (w.IsSelfContained settings id ∧
        ∀ importer ∈ w.importingSheets id, ¬ S importer) := by
    constructor
    · rintro ⟨s, hs, hcandidate, hutilities, hgo⟩
      exact ⟨(hcan s hs).mpr ⟨hcandidate, hutilities⟩, fun h => hgo ((hstay s hs).mpr h)⟩
    · rintro ⟨h, hgo⟩
      obtain ⟨s, hs⟩ := h.get?
      obtain ⟨hcandidate, hutilities⟩ := (hcan s hs).mp h
      exact ⟨s, hs, hcandidate, hutilities, fun h => hgo ((hstay s hs).mp h)⟩
  rw [hsides]

/-- The least decision: a stylesheet is split for a reason of its own or for an importer. -/
inductive MustSplit (w : Workspace) (settings : Settings) : SheetId → Prop where
  | mixed {id} : CanSplit w settings id → ¬ w.IsSelfContained settings id → MustSplit w settings id
  | handed {id importer} : CanSplit w settings id → importer ∈ w.importingSheets id →
      MustSplit w settings importer → MustSplit w settings id

theorem decides_mustSplit : w.Decides settings (w.MustSplit settings) := by
  refine decides_iff.mpr fun id => ⟨fun h => ?_, fun ⟨hcan, hgo⟩ => ?_⟩
  · cases h with
    | mixed hcan hself => exact ⟨hcan, fun hstay => hself hstay.1⟩
    | handed hcan hi hs => exact ⟨hcan, fun hstay => hstay.2 _ hi hs⟩
  · by_cases hself : w.IsSelfContained settings id
    · have hex : ∃ importer ∈ w.importingSheets id, w.MustSplit settings importer := by
        by_contra hno
        exact hgo ⟨hself, fun importer hi hs => hno ⟨importer, hi, hs⟩⟩
      obtain ⟨importer, hi, hs⟩ := hex
      exact .handed hcan hi hs
    · exact .mixed hcan hself

/-! ### The search as it goes -/

/-- The search is about one stylesheet, or about some until one is split. -/
inductive Query where
  | one (id : SheetId)
  | any (ids : List SheetId)

def Query.ids : Query → List SheetId
  | one id => [id]
  | any ids => ids

/-- A query is answered, with the stylesheets that are looked at for it, in that order, and with the
answers that are kept then. -/
inductive Settles (w : Workspace) (settings : Settings) :
    Query → Answers → List SheetId → Bool → Answers → Prop where
  | known {id answers b} : answers.lookup id = some (some b) →
      Settles w settings (.one id) answers [] b answers
  | sought {id answers} : answers.lookup id = some none →
      Settles w settings (.one id) answers [] false answers
  | barred {id answers} : answers.lookup id = none → ¬ w.CanSplit settings id →
      Settles w settings (.one id) answers [id] false ((id, some false) :: (id, none) :: answers)
  | mixed {id answers} : answers.lookup id = none → w.CanSplit settings id →
      ¬ w.IsSelfContained settings id →
      Settles w settings (.one id) answers [id] true ((id, some true) :: (id, none) :: answers)
  | handed {id answers looked b answers'} : answers.lookup id = none → w.CanSplit settings id →
      w.IsSelfContained settings id →
      Settles w settings (.any (w.importingSheets id)) ((id, none) :: answers) looked b answers' →
      Settles w settings (.one id) answers (id :: looked) b ((id, some b) :: answers')
  | none {answers} : Settles w settings (.any []) answers [] false answers
  | found {id ids answers looked answers'} :
      Settles w settings (.one id) answers looked true answers' →
      Settles w settings (.any (id :: ids)) answers looked true answers'
  | onward {id ids answers looked answers' looked' b answers''} :
      Settles w settings (.one id) answers looked false answers' →
      Settles w settings (.any ids) answers' looked' b answers'' →
      Settles w settings (.any (id :: ids)) answers (looked ++ looked') b answers''

/-- Stylesheets are asked about one after the other, with the answers kept. -/
inductive SettlesAll (w : Workspace) (settings : Settings) :
    List SheetId → Answers → List SheetId → List Bool → Answers → Prop where
  | nil {answers} : SettlesAll w settings [] answers [] [] answers
  | cons {id ids answers looked b answers' looked' bs answers''} :
      Settles w settings (.one id) answers looked b answers' →
      SettlesAll w settings ids answers' looked' bs answers'' →
      SettlesAll w settings (id :: ids) answers (looked ++ looked') (b :: bs) answers''

/-- The answers to some questions, with the answers kept. -/
def askAll (w : Workspace) (settings : Settings) :
    List SheetId → Answers → List Bool × Answers
  | [], answers => ([], answers)
  | id :: ids, answers =>
    let (b, answers) := w.needsSplit settings (w.sheets.size + 1) id answers
    let (bs, answers) := askAll w settings ids answers
    (b :: bs, answers)

theorem lookup_cons_eq_none {id x : SheetId} {answer : Option Bool} {answers : Answers} :
    List.lookup x ((id, answer) :: answers) = none ↔ x ≠ id ∧ answers.lookup x = none := by
  rw [List.lookup_cons]
  by_cases h : x = id
  · simp [h]
  · simp [h, beq_eq_false_iff_ne.mpr h]

/-- What a search looks at: nothing twice, and nothing that there is an answer for. -/
structure Looked (answers : Answers) (looked : List SheetId) (answers' : Answers) : Prop where
  nodup : looked.Nodup
  fresh : ∀ x ∈ looked, answers.lookup x = none
  left : ∀ x, answers'.lookup x = none ↔ answers.lookup x = none ∧ x ∉ looked

namespace Looked

variable {answers answers' answers'' : Answers} {looked looked' : List SheetId}

theorem nil : Looked answers [] answers := by
  constructor <;> simp

theorem append (h : Looked answers looked answers') (h' : Looked answers' looked' answers'') :
    Looked answers (looked ++ looked') answers'' where
  nodup := List.nodup_append'.mpr
    ⟨h.nodup, h'.nodup, fun _ hx hx' => ((h.left _).mp (h'.fresh _ hx')).2 hx⟩
  fresh x hx := by
    rcases List.mem_append.mp hx with hx | hx
    · exact h.fresh x hx
    · exact ((h.left x).mp (h'.fresh x hx)).1
  left x := by
    rw [h'.left, h.left, List.mem_append, not_or, and_assoc]

theorem enter {id : SheetId} {b : Bool} (hid : answers.lookup id = none)
    (h : Looked ((id, none) :: answers) looked answers') :
    Looked answers (id :: looked) ((id, some b) :: answers') where
  nodup := List.nodup_cons.mpr ⟨fun hm => (lookup_cons_eq_none.mp (h.fresh id hm)).1 rfl, h.nodup⟩
  fresh x hx := by
    rcases List.mem_cons.mp hx with rfl | hx
    · exact hid
    · exact (lookup_cons_eq_none.mp (h.fresh x hx)).2
  left x := by
    rw [lookup_cons_eq_none, h.left, lookup_cons_eq_none, List.mem_cons, not_or]
    tauto

end Looked

theorem Settles.looked {q : Query} {answers answers' : Answers} {looked : List SheetId} {b : Bool}
    (h : w.Settles settings q answers looked b answers') : Looked answers looked answers' := by
  induction h with
  | known | sought | none => exact .nil
  | barred hl | mixed hl => exact Looked.enter hl .nil
  | handed hl _ _ _ ih => exact Looked.enter hl ih
  | found _ ih => exact ih
  | onward _ _ ih ih' => exact ih.append ih'

theorem SettlesAll.looked {ids looked : List SheetId} {answers answers' : Answers} {bs : List Bool}
    (h : w.SettlesAll settings ids answers looked bs answers') : Looked answers looked answers' := by
  induction h with
  | nil => exact .nil
  | cons hone _ ih => exact hone.looked.append ih

/-! ### The steps suffice -/

/-- Stylesheets that the search has come by, with steps left for the others. -/
structure Seeking (w : Workspace) (fuel : Nat) (path : List SheetId) (answers : Answers) : Prop where
  nodup : path.Nodup
  valid : ∀ a ∈ path, a < w.sheets.size
  met : ∀ a ∈ path, answers.lookup a ≠ none
  room : w.sheets.size < fuel + path.length

namespace Seeking

variable {fuel : Nat} {path : List SheetId} {answers answers' : Answers} {looked : List SheetId}

theorem fuel_pos (h : Seeking w 0 path answers) : False := by
  have hsub : path ⊆ List.range w.sheets.size := fun a ha => List.mem_range.mpr (h.valid a ha)
  have hlen := (h.nodup.subperm hsub).length_le
  have hroom := h.room
  rw [List.length_range] at hlen
  omega

theorem after (h : Seeking w fuel path answers) (hl : Looked answers looked answers') :
    Seeking w fuel path answers' :=
  ⟨h.nodup, h.valid, fun a ha hnone => h.met a ha ((hl.left a).mp hnone).1, h.room⟩

theorem enter (h : Seeking w (fuel + 1) path answers) {id : SheetId} (hid : id < w.sheets.size)
    (hl : answers.lookup id = none) : Seeking w fuel (id :: path) ((id, none) :: answers) where
  nodup := List.nodup_cons.mpr ⟨fun hm => h.met id hm hl, h.nodup⟩
  valid a ha := by
    rcases List.mem_cons.mp ha with rfl | ha
    · exact hid
    · exact h.valid a ha
  met a ha hnone := by
    obtain ⟨hne, hnone⟩ := lookup_cons_eq_none.mp hnone
    exact h.met a ((List.mem_cons.mp ha).resolve_left hne) hnone
  room := by
    have := h.room
    rw [List.length_cons]
    omega

end Seeking

theorem settles_any {fuel : Nat} {path : List SheetId}
    {ask : SheetId → Answers → Bool × Answers} (hask : ∀ id answers, Seeking w fuel path answers →
      ∃ looked, w.Settles settings (.one id) answers looked (ask id answers).1 (ask id answers).2)
    (ids : List SheetId) (answers : Answers) (h : Seeking w fuel path answers) :
    ∃ looked, w.Settles settings (.any ids) answers looked (anyNeedsSplit ask ids answers).1
      (anyNeedsSplit ask ids answers).2 := by
  induction ids generalizing answers with
  | nil => exact ⟨_, .none⟩
  | cons id ids ih =>
    obtain ⟨looked, hone⟩ := hask id answers h
    unfold anyNeedsSplit
    rcases hres : ask id answers with ⟨b, answers'⟩
    rw [hres] at hone
    cases b with
    | true => exact ⟨looked, .found hone⟩
    | false =>
      obtain ⟨looked', hrest⟩ := ih answers' (h.after hone.looked)
      exact ⟨looked ++ looked', .onward hone hrest⟩

theorem settles_needsSplit (fuel : Nat) (path : List SheetId) (id : SheetId) (answers : Answers)
    (h : Seeking w fuel path answers) : ∃ looked, w.Settles settings (.one id) answers looked
      (w.needsSplit settings fuel id answers).1 (w.needsSplit settings fuel id answers).2 := by
  induction fuel generalizing path id answers with
  | zero => exact h.fuel_pos.elim
  | succ fuel ih =>
    unfold needsSplit
    cases hl : answers.lookup id with
    | some answer =>
      cases answer with
      | some b => exact ⟨[], .known hl⟩
      | none => exact ⟨[], .sought hl⟩
    | none =>
      simp only
      split
      · next hcannot =>
        refine ⟨[id], .barred hl fun hcan => ?_⟩
        simp [hcan.eligible, hcan.utilities] at hcannot
      · next hcan =>
        have hcan : CanSplit w settings id := by
          simp only [Bool.or_eq_true, Bool.not_eq_true', List.isEmpty_iff, not_or,
            Bool.not_eq_false] at hcan
          exact ⟨hcan.1, hcan.2⟩
        split
        · next hself =>
          obtain ⟨s, hs⟩ := hcan.get?
          obtain ⟨looked, hany⟩ := settles_any (ih (id :: path)) (w.importingSheets id) _
            (h.enter (lt_size hs) hl)
          exact ⟨id :: looked, .handed hl hcan hself hany⟩
        · next hself => exact ⟨[id], .mixed hl hcan hself⟩

theorem settles_asked (w : Workspace) (settings : Settings) (id : SheetId) (answers : Answers) :
    ∃ looked, w.Settles settings (.one id) answers looked
      (w.needsSplit settings (w.sheets.size + 1) id answers).1
      (w.needsSplit settings (w.sheets.size + 1) id answers).2 :=
  settles_needsSplit _ [] id answers ⟨List.nodup_nil, by simp, by simp, Nat.lt_succ_self _⟩

/-- The questions of a row are all answered by searches of their own. -/
theorem exists_settlesAll (w : Workspace) (settings : Settings) (ids : List SheetId)
    (answers : Answers) : ∃ looked, w.SettlesAll settings ids answers looked
      (w.askAll settings ids answers).1 (w.askAll settings ids answers).2 := by
  induction ids generalizing answers with
  | nil => exact ⟨_, .nil⟩
  | cons id ids ih =>
    obtain ⟨looked, hone⟩ := settles_asked w settings id answers
    obtain ⟨looked', hrest⟩ := ih (w.needsSplit settings (w.sheets.size + 1) id answers).2
    exact ⟨looked ++ looked', .cons hone hrest⟩

/-- Only what may be split is ever answered to be split. -/
theorem Settles.canSplit {q : Query} {answers answers' : Answers} {looked : List SheetId} {b : Bool}
    (h : w.Settles settings q answers looked b answers')
    (ha : ∀ id, answers.lookup id = some (some true) → w.CanSplit settings id) :
    (∀ id, answers'.lookup id = some (some true) → w.CanSplit settings id) ∧
      (b = true → ∃ id ∈ q.ids, w.CanSplit settings id) := by
  have hcons : ∀ {answers : Answers} {id : SheetId} {answer : Option Bool},
      (∀ x, answers.lookup x = some (some true) → w.CanSplit settings x) →
      (answer = some true → w.CanSplit settings id) →
      ∀ x, List.lookup x ((id, answer) :: answers) = some (some true) → w.CanSplit settings x := by
    intro answers id answer hrest hid x hx
    rw [List.lookup_cons] at hx
    split at hx
    · next heq =>
      rw [beq_iff_eq.mp heq]
      exact hid (Option.some.inj hx)
    · exact hrest x hx
  induction h with
  | @known id _ b hl =>
    refine ⟨ha, fun hyes => ⟨id, List.mem_singleton.mpr rfl, ha id ?_⟩⟩
    rw [hl, hyes]
  | sought | none => exact ⟨ha, fun hno => by cases hno⟩
  | barred => exact ⟨hcons (hcons ha (by simp)) (by simp), fun hno => by cases hno⟩
  | @mixed id _ _ hcan =>
    exact ⟨hcons (hcons ha (by simp)) fun _ => hcan, fun _ => ⟨id, List.mem_singleton.mpr rfl, hcan⟩⟩
  | @handed id _ _ _ _ _ hcan _ _ ih =>
    exact ⟨hcons (ih (hcons ha (by simp))).1 fun _ => hcan,
      fun _ => ⟨id, List.mem_singleton.mpr rfl, hcan⟩⟩
  | @found id _ _ _ _ _ ih =>
    refine ⟨(ih ha).1, fun _ => ⟨id, List.mem_cons_self .., ?_⟩⟩
    simpa [Query.ids] using (ih ha).2 rfl
  | onward _ _ ih ih' =>
    obtain ⟨hleft, hany⟩ := ih' (ih ha).1
    exact ⟨hleft, fun hyes => (hany hyes).imp fun _ h => ⟨List.mem_cons_of_mem _ h.1, h.2⟩⟩

theorem canSplit_of_mem_donors_go (ids : List SheetId) {answers : Answers}
    (ha : ∀ id, answers.lookup id = some (some true) → w.CanSplit settings id) :
    ∀ id ∈ donors.go w settings ids answers, w.CanSplit settings id := by
  induction ids generalizing answers with
  | nil => exact fun id hm => absurd hm List.not_mem_nil
  | cons id ids ih =>
    obtain ⟨looked, hone⟩ := settles_asked w settings id answers
    obtain ⟨hnext, hyes⟩ := hone.canSplit ha
    intro x hx
    unfold donors.go at hx
    rcases hres : w.needsSplit settings (w.sheets.size + 1) id answers with ⟨b, answers'⟩
    rw [hres] at hnext hyes hx
    cases b with
    | true =>
      rcases List.mem_cons.mp hx with rfl | hx
      · simpa [Query.ids] using hyes rfl
      · exact ih hnext x hx
    | false => exact ih hnext x hx

theorem canSplit_of_mem_donors {id : SheetId} (h : id ∈ w.donors settings) :
    w.CanSplit settings id :=
  canSplit_of_mem_donors_go w.ids (fun _ hno => by cases hno) id h

/-! ### Right answers -/

/-- The answers are as decided, and those being sought are for the stylesheets of a path. -/
structure Right (S : SheetId → Prop) (path : List SheetId) (answers : Answers) : Prop where
  known : ∀ id b, answers.lookup id = some (some b) → (b = true ↔ S id)
  sought : ∀ id, answers.lookup id = some none → id ∈ path

namespace Right

variable {S : SheetId → Prop} {path : List SheetId} {answers : Answers} {id : SheetId}

theorem nil : Right S path [] where
  known id b hb := by cases hb
  sought id hid := by cases hid

/-- The answer for a stylesheet starts to be sought. -/
theorem seek (h : Right S path answers) (id : SheetId) :
    Right S (id :: path) ((id, none) :: answers) where
  known x b hb := by
    rw [List.lookup_cons] at hb
    split at hb
    · cases hb
    · exact h.known x b hb
  sought x hx := by
    rw [List.lookup_cons] at hx
    split at hx
    · next heq => simp [beq_iff_eq.mp heq]
    · exact List.mem_cons_of_mem _ (h.sought x hx)

/-- The answer is found. -/
theorem settle (h : Right S (id :: path) answers) {b : Bool} (hb : b = true ↔ S id) :
    Right S path ((id, some b) :: answers) where
  known x b' hx := by
    rw [List.lookup_cons] at hx
    split at hx
    · next heq =>
      cases hx
      rw [beq_iff_eq.mp heq]
      exact hb
    · exact h.known x b' hx
  sought x hx := by
    rw [List.lookup_cons] at hx
    split at hx
    · cases hx
    · next hne =>
      refine (List.mem_cons.mp (h.sought x hx)).resolve_left fun heq => ?_
      simp [heq] at hne

end Right

/-- The donors come in the order of registration, so none comes twice. -/
theorem donors_go_sublist (ids : List SheetId) (answers : Answers) :
    (donors.go w settings ids answers).Sublist ids := by
  induction ids generalizing answers with
  | nil => exact List.Sublist.refl _
  | cons id ids ih =>
    unfold donors.go
    split
    · exact (ih _).cons_cons id
    · exact (ih _).cons id

theorem donors_nodup (w : Workspace) (settings : Settings) : (w.donors settings).Nodup :=
  (donors_go_sublist _ _).nodup List.nodup_range

section acyclic

variable (hacyclic : ∀ id, ¬ Relation.TransGen w.ImportsAuthored id id) {S : SheetId → Prop}
  (hS : w.Decides settings S)
include hacyclic hS

/-- The path leads from what is asked about down along imports, so without cycles it never comes
back. -/
theorem Settles.right {q : Query} {answers answers' : Answers} {looked : List SheetId} {b : Bool}
    (h : w.Settles settings q answers looked b answers') {path : List SheetId}
    (hpath : ∀ id ∈ q.ids, ∀ a ∈ path, Relation.TransGen w.ImportsAuthored id a)
    (ha : Right S path answers) :
    Right S path answers' ∧ (b = true ↔ ∃ id ∈ q.ids, S id) := by
  rw [decides_iff] at hS
  induction h generalizing path with
  | known hl => exact ⟨ha, by simpa [Query.ids] using ha.known _ _ hl⟩
  | @sought id _ hl =>
    exact absurd (hpath id (List.mem_singleton.mpr rfl) id (ha.sought id hl)) (hacyclic id)
  | @barred id _ _ hcannot =>
    have hno : false = true ↔ S id :=
      iff_of_false Bool.false_ne_true fun hs => hcannot ((hS id).mp hs).1
    exact ⟨(ha.seek id).settle hno, by simpa [Query.ids] using hno⟩
  | @mixed id _ _ hcan hself =>
    have hyes : true = true ↔ S id := iff_of_true rfl ((hS id).mpr ⟨hcan, fun h => hself h.1⟩)
    exact ⟨(ha.seek id).settle hyes, by simpa [Query.ids] using hyes⟩
  | @handed id _ _ b _ _ hcan hself _ ih =>
    have hbelow : ∀ importer ∈ w.importingSheets id, ∀ a ∈ id :: path,
        Relation.TransGen w.ImportsAuthored importer a := by
      intro importer hi a ha
      have hi := mem_importingSheets_iff.mp hi
      rcases List.mem_cons.mp ha with rfl | ha
      · exact .single hi
      · exact .head hi (hpath id (List.mem_singleton.mpr rfl) a ha)
    obtain ⟨hright, hany⟩ := ih hbelow (ha.seek id)
    have hiff : b = true ↔ S id := by
      rw [hany, hS id]
      simp [hcan, hself, Query.ids]
    exact ⟨hright.settle hiff, by simpa [Query.ids] using hiff⟩
  | none => exact ⟨ha, by simp [Query.ids]⟩
  | @found id ids _ _ _ _ ih =>
    obtain ⟨hright, hyes⟩ := ih (fun x hx => hpath x (List.mem_singleton.mp hx ▸ List.mem_cons_self ..)) ha
    exact ⟨hright, iff_of_true rfl ⟨id, List.mem_cons_self .., by simpa [Query.ids] using hyes⟩⟩
  | @onward id ids _ _ _ _ b _ _ _ ih ih' =>
    obtain ⟨hright, hno⟩ := ih (fun x hx => hpath x (List.mem_singleton.mp hx ▸ List.mem_cons_self ..)) ha
    obtain ⟨hright', hany⟩ := ih' (fun x hx => hpath x (List.mem_cons_of_mem _ hx)) hright
    have hid : ¬ S id := by simpa [Query.ids] using hno
    exact ⟨hright', by simpa [Query.ids, hid] using hany⟩

theorem SettlesAll.right {ids looked : List SheetId} {answers answers' : Answers} {bs : List Bool}
    (h : w.SettlesAll settings ids answers looked bs answers') (ha : Right S [] answers) :
    List.Forall₂ (fun id b => b = true ↔ S id) ids bs := by
  induction h with
  | nil => exact .nil
  | cons hone _ ih =>
    obtain ⟨hright, hb⟩ := hone.right hacyclic hS (by simp) ha
    exact .cons (by simpa [Query.ids] using hb) (ih hright)

theorem askAll_right (ids : List SheetId) :
    List.Forall₂ (fun id b => b = true ↔ S id) ids (w.askAll settings ids []).1 := by
  obtain ⟨looked, h⟩ := exists_settlesAll w settings ids []
  exact h.right hacyclic hS .nil

omit hacyclic hS in
theorem donors_go_eq [DecidablePred S] (ids : List SheetId) (answers : Answers)
    (h : List.Forall₂ (fun id b => b = true ↔ S id) ids (w.askAll settings ids answers).1) :
    donors.go w settings ids answers = ids.filter S := by
  induction ids generalizing answers with
  | nil => rfl
  | cons id ids ih =>
    unfold askAll at h
    unfold donors.go
    rcases hres : w.needsSplit settings (w.sheets.size + 1) id answers with ⟨b, answers'⟩
    rw [hres] at h
    cases h with
    | cons hb hrest =>
      have hgo := ih answers' hrest
      cases b with
      | true => simpa [hb.mp rfl] using hgo
      | false => simpa [show ¬ S id from fun hs => by cases hb.mpr hs] using hgo

/-- The donors are the stylesheets that are decided to be split. -/
theorem donors_eq [DecidablePred S] : w.donors settings = w.ids.filter S :=
  donors_go_eq w.ids [] (askAll_right hacyclic hS w.ids)

/-- There is no other decision. -/
theorem Decides.unique {T : SheetId → Prop} (hT : w.Decides settings T) : T = S := by
  funext id
  have hs := askAll_right hacyclic hS [id]
  have ht := askAll_right hacyclic hT [id]
  cases hs with
  | cons hs _ =>
    cases ht with
    | cons ht _ => exact propext (ht.symm.trans hs)

end acyclic

/-- **Where imports have no cycle, which stylesheets are split does not depend on the order in which
they are asked about.** In any workspace all searches end, and none is looked at twice. -/
theorem decided_in_any_order (w : Workspace) (settings : Settings) :
    ((∀ id, ¬ Relation.TransGen w.ImportsAuthored id id) →
      ∃ S, (∀ T, w.Decides settings T ↔ T = S) ∧ ∀ ids,
        List.Forall₂ (fun id b => b = true ↔ S id) ids (w.askAll settings ids []).1) ∧
    ∀ ids, ∃ looked, w.SettlesAll settings ids [] looked (w.askAll settings ids []).1
      (w.askAll settings ids []).2 ∧ looked.Nodup := by
  constructor
  · intro hacyclic
    have hS : w.Decides settings (w.MustSplit settings) := decides_mustSplit
    refine ⟨w.MustSplit settings, fun T => ⟨hS.unique hacyclic, ?_⟩, askAll_right hacyclic hS⟩
    rintro rfl
    exact hS
  · intro ids
    obtain ⟨looked, h⟩ := exists_settlesAll w settings ids []
    exact ⟨looked, h, h.looked.nodup⟩

/-- Utilities that are imported beside utilities, which are imported for a layer. -/
def inTurn : Workspace :=
  let sources := [(some ⟨"/p/index.css"⟩, "@import './a.css' layer(utilities);"),
    (some ⟨"/p/a.css"⟩, "@import './b.css';\n@utility a { color: red }"),
    (some ⟨"/p/b.css"⟩, "@utility b { color: red }")]
  match ((filled sources).connect (.known (sources.filterMap Prod.fst)) ⟨"/p"⟩).1.inheritLayers with
  | .ok (_, w) => w
  | .error _ => {}

/-- The last stylesheet is split as its importer is, whichever is asked about first. -/
theorem decided_in_turn : (∀ id, ¬ Relation.TransGen inTurn.ImportsAuthored id id) ∧
    ∃ S, (∀ T, inTurn.Decides {} T ↔ T = S) ∧ ¬ S 0 ∧ S 1 ∧ S 2 ∧ ∀ ids,
      List.Forall₂ (fun id b => b = true ↔ S id) ids (inTurn.askAll {} ids []).1 := by
  have hread : ∀ y < inTurn.sheets.size, ∀ x ∈ inTurn.importingSheets y, x < y := by decide +kernel
  have himporter : ∀ x y, inTurn.ImportsAuthored x y → x < y := by
    rintro x y ⟨s, rule, n, hs, himport⟩
    exact hread y (lt_size hs) x (mem_importingSheets_iff.mpr ⟨s, rule, n, hs, himport⟩)
  have hacyclic : ∀ id, ¬ Relation.TransGen inTurn.ImportsAuthored id id := by
    intro id h
    have hlt : ∀ y, Relation.TransGen inTurn.ImportsAuthored id y → id < y := by
      intro y h
      induction h with
      | single hi => exact himporter _ _ hi
      | tail _ hi ih => exact ih.trans (himporter _ _ hi)
    exact (hlt id h).false
  obtain ⟨S, hunique, hanswers⟩ := (decided_in_any_order inTurn {}).1 hacyclic
  have hrun : (inTurn.askAll {} [2, 0, 1] []).1 = [true, false, true] := by decide +kernel
  have hasked := hanswers [2, 0, 1]
  rw [hrun] at hasked
  simp only [List.forall₂_cons, true_iff, Bool.false_eq_true, false_iff] at hasked
  exact ⟨hacyclic, S, hunique, hasked.2.1, hasked.2.2.1, hasked.1, hanswers⟩

end Workspace

end Strata
