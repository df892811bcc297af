import Mathlib.Logic.Function.Basic
import Strata.Proofs.Transform.Exchange

/-! What hoisting the layers of a stylesheet makes of a document. -/
namespace Strata.Transform

open Forest

variable {settings : Settings} {doc g d : Document} {root block rule v : NodeId}
  {utility : NodeId → Option NodeId} {gone : List NodeId} {name : String}

/-! ### Rules, blocks and where they stand -/

/-- A rule for one simple class. -/
def isClassRule (doc : Document) (x : NodeId) : Bool := ((doc.get? x).bind ruleClass?).isSome

/-- The blocks of split layers directly below `root`, in order. -/
def layerBlocksOf (settings : Settings) (root : NodeId) (doc : Document) : List NodeId :=
  (doc.children root).filter fun id => (doc.get? id).any (isLayerBlock settings)

/-- Every child of a block is a rule for one simple class. -/
def holdsClassRules (doc : Document) (block : NodeId) : Bool :=
  (doc.children block).all (isClassRule doc)

/-- Directly below `root`, or in a block of a split layer there. -/
def InReach (settings : Settings) (root : NodeId) (doc : Document) (x : NodeId) : Prop :=
  x ∈ doc.children root ∨ ∃ block ∈ layerBlocksOf settings root doc, x ∈ doc.children block

theorem contains_of_isClassRule {x : NodeId} (h : isClassRule doc x = true) : doc.contains x = true := by
  obtain ⟨name, hname⟩ := Option.isSome_iff_exists.mp h
  obtain ⟨n, hn, -⟩ := Option.bind_eq_some_iff.mp hname
  exact contains_iff_get?.mpr ⟨n, hn⟩

theorem isClassRule_of_mem_layerBlocksOf (h : block ∈ layerBlocksOf settings root doc) :
    isClassRule doc block = false := by
  obtain ⟨n, hn, hlayer⟩ := (Option.any_eq_true _ _).mp (List.mem_filter.mp h).2
  rw [isClassRule, hn, Option.bind_some]
  rcases n with ⟨form, span, origin⟩
  cases form <;> first | rfl | cases hlayer

section wellFormed

variable (h : doc.WellFormed)
include h

theorem ne_of_mem_children {x : NodeId} (hx : x ∈ doc.children root) : x ≠ root := by
  rintro rfl
  exact h.not_within_parent ((h.listed x x).mp hx) (Within.refl _)

/-- A node is the child of one parent only. -/
theorem parent_unique {x p q : NodeId} (hp : x ∈ doc.children p) (hq : x ∈ doc.children q) : p = q :=
  Option.some.inj (((h.listed x p).mp hp).symm.trans ((h.listed x q).mp hq))

theorem InReach.ne_root {x : NodeId} (hx : InReach settings root doc x) : x ≠ root := by
  rcases hx with hx | ⟨block, hblock, hx⟩
  · exact ne_of_mem_children h hx
  · rintro rfl
    exact h.not_within_parent ((h.listed x block).mp hx)
      (Within.of_parent ((h.listed block x).mp (List.mem_filter.mp hblock).1))

/-- What is below a rule in reach is out of reach. -/
theorem InReach.not_below {x c : NodeId} (hx : InReach settings root doc x)
    (hblock : x ∉ layerBlocksOf settings root doc) (hc : c ∈ doc.children x) :
    ¬ InReach settings root doc c := by
  rintro (htop | ⟨block, hb, hin⟩)
  · exact hx.ne_root h (parent_unique h hc htop)
  · exact hblock (parent_unique h hc hin ▸ hb)

end wellFormed

/-! ### Utilities for rules -/

/-- Some rules have become utilities and the blocks that are `gone` have been removed. -/
structure Replaced (settings : Settings) (root : NodeId) (doc : Document)
    (utility : NodeId → Option NodeId) (gone : List NodeId) (g : Document) : Prop where
  wellFormed : g.WellFormed
  ages : Ages doc g
  source : ∀ r v, utility r = some v → InReach settings root doc r
  new : ∀ r v, utility r = some v → doc.contains v = false
  apart : ∀ r r' v, utility r = some v → utility r' = some v → r = r'
  emptied : ∀ b ∈ gone, b ∈ layerBlocksOf settings root doc ∧
    ∀ c ∈ doc.children b, (utility c).isSome = true
  live : ∀ x, g.contains x = true ↔
    (∃ r, utility r = some x) ∨ doc.contains x = true ∧ utility x = none ∧ x ∉ gone
  made : ∀ r v, utility r = some v → ∃ name, (doc.get? r).bind ruleClass? = some name ∧
    g.get? v = some (.blockAtRule settings.atRule name)
  handed : ∀ r v, utility r = some v → g.children v = doc.children r
  data : ∀ x, doc.contains x = true → utility x = none → x ∉ gone → g.get? x = doc.get? x

namespace Replaced

variable (hr : Replaced settings root doc utility gone g)
include hr

theorem utility_eq_none {x : NodeId} (hx : isClassRule doc x = false) : utility x = none := by
  cases hv : utility x with
  | none => rfl
  | some v =>
    obtain ⟨name, hname, -⟩ := hr.made x v hv
    rw [isClassRule, hname] at hx
    cases hx

theorem ne_utility {r v x : NodeId} (hv : utility r = some v) (hx : doc.contains x = true) : x ≠ v := by
  rintro rfl
  rw [hr.new r x hv] at hx
  cases hx

theorem not_gone {x : NodeId} (hx : x ∉ layerBlocksOf settings root doc) : x ∉ gone :=
  fun hm => hx (hr.emptied x hm).1

theorem not_gone_of_class {x : NodeId} (hx : isClassRule doc x = true) : x ∉ gone := by
  refine hr.not_gone fun hm => ?_
  rw [isClassRule_of_mem_layerBlocksOf hm] at hx
  cases hx

/-- A rule is exchanged for a utility. -/
theorem exchange (h : doc.WellFormed) (hreach : InReach settings root doc rule)
    (hnone : utility rule = none) (hname : (doc.get? rule).bind ruleClass? = some name)
    (hx : Exchanged g rule v (.blockAtRule settings.atRule name) d)
    (hdown : g.children rule = doc.children rule) :
    Replaced settings root doc (Function.update utility rule (some v)) gone d := by
  have hclass : isClassRule doc rule = true := by rw [isClassRule, hname]; rfl
  have hgone := hr.not_gone_of_class hclass
  have hrule := contains_of_isClassRule hclass
  have hother : ∀ r w, Function.update utility rule (some v) r = some w →
      r = rule ∧ w = v ∨ r ≠ rule ∧ utility r = some w := by
    intro r w hw
    by_cases heq : r = rule
    · subst heq
      rw [Function.update_self] at hw
      exact Or.inl ⟨rfl, (Option.some.inj hw).symm⟩
    · rw [Function.update_of_ne heq] at hw
      exact Or.inr ⟨heq, hw⟩
  have hlive : ∀ r w, utility r = some w → g.contains w = true ∧ w ≠ rule := fun r w hw =>
    ⟨(hr.live w).mpr (Or.inl ⟨r, hw⟩), (hr.ne_utility hw hrule).symm⟩
  have hstill : ∀ x, Function.update utility rule (some v) x = none → x ≠ rule ∧ utility x = none := by
    intro x hx
    by_cases heq : x = rule
    · rw [heq, Function.update_self] at hx
      cases hx
    · exact ⟨heq, by rwa [Function.update_of_ne heq] at hx⟩
  -- A node that has died does not come back, so what is new now was never there.
  have hnew : doc.contains v = false := by
    cases hv : doc.contains v with
    | false => rfl
    | true =>
      have hdead := hr.ages.dead hx.ages hv hx.new
      rw [(hx.live v).mpr (Or.inl rfl)] at hdead
      cases hdead
  refine ⟨hx.wellFormed, hr.ages.trans hx.ages, fun r w hw => ?_, fun r w hw => ?_,
    fun r r' w hw hw' => ?_, fun b hb => ⟨(hr.emptied b hb).1, fun c hc => ?_⟩, fun x => ?_,
    fun r w hw => ?_, fun r w hw => ?_, fun x hxl hxn hxg => ?_⟩
  · rcases hother r w hw with ⟨rfl, -⟩ | ⟨-, hw⟩
    · exact hreach
    · exact hr.source r w hw
  · rcases hother r w hw with ⟨-, rfl⟩ | ⟨-, hw⟩
    · exact hnew
    · exact hr.new r w hw
  · have hout : ∀ r, utility r ≠ some v := fun r hv => by
      have hlives := (hlive r v hv).1
      rw [hx.new] at hlives
      cases hlives
    rcases hother r w hw with ⟨hr1, hw1⟩ | ⟨-, hw1⟩ <;>
      rcases hother r' w hw' with ⟨hr2, hw2⟩ | ⟨-, hw2⟩
    · rw [hr1, hr2]
    · exact absurd (hw1 ▸ hw2) (hout r')
    · exact absurd (hw2 ▸ hw1) (hout r)
    · exact hr.apart r r' w hw1 hw2
  · by_cases heq : c = rule
    · rw [heq, Function.update_self]; rfl
    · rw [Function.update_of_ne heq]; exact (hr.emptied b hb).2 c hc
  · rw [hx.live, hr.live]
    constructor
    · rintro (rfl | ⟨⟨r, hw⟩ | ⟨hxl, hxn, hxg⟩, hne⟩)
      · exact Or.inl ⟨rule, Function.update_self ..⟩
      · refine Or.inl ⟨r, ?_⟩
        rw [Function.update_of_ne, hw]
        rintro rfl
        cases hnone.symm.trans hw
      · exact Or.inr ⟨hxl, by rw [Function.update_of_ne hne, hxn], hxg⟩
    · rintro (⟨r, hw⟩ | ⟨hxl, hxn, hxg⟩)
      · rcases hother r x hw with ⟨-, rfl⟩ | ⟨-, hw⟩
        · exact Or.inl rfl
        · exact Or.inr ⟨Or.inl ⟨r, hw⟩, (hlive r x hw).2⟩
      · exact Or.inr ⟨Or.inr ⟨hxl, (hstill x hxn).2, hxg⟩, (hstill x hxn).1⟩
  · rcases hother r w hw with ⟨rfl, rfl⟩ | ⟨-, hw⟩
    · exact ⟨name, hname, hx.made⟩
    · obtain ⟨name', hname', hget⟩ := hr.made r w hw
      exact ⟨name', hname', (hx.data w (hlive r w hw).1 (hlive r w hw).2).trans hget⟩
  · rcases hother r w hw with ⟨rfl, rfl⟩ | ⟨-, hw⟩
    · rw [hx.handed, hdown]
    · rw [hx.children w (hlive r w hw).1 (hlive r w hw).2, hr.handed r w hw]
      refine map_exchange fun hm => (hr.source r w hw).not_below h (fun hb => ?_) hm hreach
      cases hw.symm.trans (hr.utility_eq_none (isClassRule_of_mem_layerBlocksOf hb))
  · obtain ⟨hne, hxn⟩ := hstill x hxn
    rw [hx.data x ((hr.live x).mpr (Or.inr ⟨hxl, hxn, hxg⟩)) hne, hr.data x hxl hxn hxg]

theorem contains_root {r : NodeId} (hv : utility r = some v) : doc.contains root = true := by
  rcases hr.source r v hv with hx | ⟨block, hblock, -⟩
  · exact contains_of_mem_children hx
  · exact contains_of_mem_children (List.mem_filter.mp hblock).1

/-- A utility moves to a place directly below the root. -/
theorem move (h : doc.WellFormed) (hv : utility rule = some v) (hm : g.Movable v root) (index : Nat) :
    Replaced settings root doc utility gone (g.move v root index) := by
  have hdata := get?_move hr.wellFormed hm index
  refine ⟨hr.wellFormed.move hm index, hr.ages.trans (ages_move hr.wellFormed.stocked ..), hr.source,
    hr.new, hr.apart, hr.emptied, fun x => ?_, fun r w hw => ?_, fun r w hw => ?_,
    fun x hx hn hg => ?_⟩
  · rw [contains_move hr.wellFormed, hr.live]
  · rw [hdata]
    exact hr.made r w hw
  · have hne : w ≠ root := (hr.ne_utility hw (hr.contains_root hw)).symm
    rw [children_move hr.wellFormed hm, if_neg hne, hr.handed r w hw]
    refine List.filter_eq_self.mpr fun c hc => bne_iff_ne.mpr ?_
    exact hr.ne_utility hv (h.contains_child hc)
  · rw [hdata]
    exact hr.data x hx hn hg

end Replaced

/-! ### Where utilities stand -/

/-- What stands below the root for a node that stood there: the utilities that were rules in it, and
the node itself, unless it is gone, or its own utility. -/
def standing (doc : Document) (utility : NodeId → Option NodeId) (gone : List NodeId) (c : NodeId) :
    List NodeId :=
  (doc.children c).filterMap utility ++ if c ∈ gone then [] else [(utility c).getD c]

theorem filterMap_update {nodes : List NodeId} (h : rule ∉ nodes) :
    nodes.filterMap (Function.update utility rule (some v)) = nodes.filterMap utility :=
  List.filterMap_congr fun _ hx => Function.update_of_ne (ne_of_mem_of_not_mem hx h) ..

/-- A new utility changes nothing where its rule is neither a node that stood there nor in one. -/
theorem standing_update {c : NodeId} (hin : rule ∉ doc.children c) (hne : c ≠ rule) :
    standing doc (Function.update utility rule (some v)) gone c = standing doc utility gone c := by
  rw [standing, standing, filterMap_update hin, Function.update_of_ne hne]

/-- Utilities stand where they should, and all other nodes where they stood. -/
structure Rewritten (settings : Settings) (root : NodeId) (doc : Document)
    (utility : NodeId → Option NodeId) (gone : List NodeId) (g : Document) : Prop extends
    Replaced settings root doc utility gone g where
  top : g.children root = (doc.children root).flatMap (standing doc utility gone)
  below : ∀ x, x ≠ root → doc.contains x = true → utility x = none → x ∉ gone →
    g.children x = (doc.children x).filter fun c => (utility c).isNone

theorem rewritten_self (h : doc.WellFormed) : Rewritten settings root doc (fun _ => none) [] doc where
  wellFormed := h
  ages := ages_refl h.stocked
  source _ _ hv := by cases hv
  new _ _ hv := by cases hv
  apart _ _ _ hv := by cases hv
  emptied _ hb := by cases hb
  live x := by simp
  made _ _ hv := by cases hv
  handed _ _ hv := by cases hv
  data _ _ _ _ := rfl
  top := by
    have hone : standing doc (fun _ => none) [] = fun c => [c] := by
      funext c
      simp [standing]
    rw [hone, List.flatMap_singleton']
  below x _ _ _ _ := by simp

namespace Rewritten

variable (hr : Rewritten settings root doc utility gone g) (h : doc.WellFormed)
include hr h

/-- A block that is still there has lost the rules that became utilities. -/
theorem children_block (hblock : block ∈ layerBlocksOf settings root doc) (hgone : block ∉ gone) :
    g.children block = (doc.children block).filter fun c => (utility c).isNone := by
  have htop := (List.mem_filter.mp hblock).1
  exact hr.below block (ne_of_mem_children h htop) (h.contains_child htop)
    (hr.utility_eq_none (isClassRule_of_mem_layerBlocksOf hblock)) hgone

/-- A rule that is still there has the children it had. -/
theorem children_rule (hreach : InReach settings root doc rule) (hnone : utility rule = none)
    (hclass : isClassRule doc rule = true) : g.children rule = doc.children rule := by
  have hblock : rule ∉ layerBlocksOf settings root doc := fun hm => by
    rw [isClassRule_of_mem_layerBlocksOf hm] at hclass
    cases hclass
  rw [hr.below rule (hreach.ne_root h) (contains_of_isClassRule hclass) hnone (hr.not_gone hblock)]
  refine List.filter_eq_self.mpr fun c hc => ?_
  cases hv : utility c with
  | none => rfl
  | some v => exact absurd (hr.source c v hv) (hreach.not_below h hblock hc)

omit h in
/-- What stood below the root is still there, unless it is gone or has become a utility. -/
theorem mem_top {x : NodeId} (hx : x ∈ doc.children root) (hnone : utility x = none)
    (hgone : x ∉ gone) : x ∈ g.children root := by
  rw [hr.top, List.mem_flatMap]
  exact ⟨x, hx, by simp [standing, hgone, hnone]⟩

/-- A rule that is still there has a parent. -/
theorem exists_parent (hreach : InReach settings root doc rule) (hnone : utility rule = none)
    (hgone : rule ∉ gone) : ∃ p, g.parent? rule = some p := by
  rcases hreach with htop | ⟨block, hblock, hin⟩
  · exact ⟨root, (hr.wellFormed.listed rule root).mp (hr.mem_top htop hnone hgone)⟩
  · have htop := (List.mem_filter.mp hblock).1
    refine ⟨block, (hr.wellFormed.listed rule block).mp ?_⟩
    rw [hr.children_block h hblock fun hm => ?_, List.mem_filter]
    · exact ⟨hin, by rw [hnone]; rfl⟩
    · have hsome := (hr.emptied block hm).2 rule hin
      rw [hnone] at hsome
      cases hsome

/-- Every rule for one simple class that is in reach and still there can be exchanged. -/
theorem exists_exchange (hreach : InReach settings root doc rule) (hnone : utility rule = none)
    (hclass : isClassRule doc rule = true) :
    ∃ v name d, toUtility? settings.atRule g rule = some (v, d) ∧
      Exchanged g rule v (.blockAtRule settings.atRule name) d ∧
      Replaced settings root doc (Function.update utility rule (some v)) gone d := by
  obtain ⟨name, hname⟩ := Option.isSome_iff_exists.mp hclass
  have hgone := hr.not_gone_of_class hclass
  obtain ⟨p, hp⟩ := hr.exists_parent h hreach hnone hgone
  have hdata := hr.data rule (contains_of_isClassRule hclass) hnone hgone
  obtain ⟨v, d, hstep, hex⟩ := exists_exchanged settings.atRule hr.wellFormed hp (hdata ▸ hname)
  exact ⟨v, name, d, hstep, hex, hr.exchange h hreach hnone hname hex
    (hr.children_rule h hreach hnone hclass)⟩

omit h in
theorem toUtility?_none {x : NodeId} (hlive : doc.contains x = true) (hgone : x ∉ gone)
    (hclass : isClassRule doc x = false) : toUtility? settings.atRule g x = none := by
  refine toUtility?_eq_none ?_
  rw [hr.data x hlive (hr.utility_eq_none hclass) hgone]
  exact Option.not_isSome_iff_eq_none.mp (by rw [← isClassRule, hclass]; exact Bool.false_ne_true)

/-- The next rule of a block becomes a utility in front of the block. -/
theorem hoistRule (hblock : block ∈ layerBlocksOf settings root doc) (hgone : block ∉ gone)
    {ahead behind : List NodeId} (hsplit : doc.children block = ahead ++ rule :: behind)
    (hnone : ∀ x ∈ rule :: behind, utility x = none) :
    ∃ utility', Rewritten settings root doc utility' gone
        (hoistRule settings.atRule root block g rule) ∧
      (∀ x ≠ rule, utility' x = utility x) ∧ (utility' rule).isSome = isClassRule doc rule := by
  have hrulenone := hnone rule (List.mem_cons_self ..)
  have hin : rule ∈ doc.children block := by simp [hsplit]
  have htop := (List.mem_filter.mp hblock).1
  have hbr := ne_of_mem_children h htop
  unfold Transform.hoistRule
  cases hclass : isClassRule doc rule with
  | false =>
    have hrulegone : rule ∉ gone := fun hm =>
      hbr (parent_unique h hin (List.mem_filter.mp (hr.emptied rule hm).1).1)
    rw [hr.toUtility?_none (h.contains_child hin) hrulegone hclass]
    exact ⟨utility, hr, fun _ _ => rfl, by rw [hrulenone]; rfl⟩
  | true =>
    obtain ⟨v, name, d, hstep, hex, hmid⟩ :=
      hr.exists_exchange h (Or.inr ⟨block, hblock, hin⟩) hrulenone hclass
    rw [hstep]
    refine ⟨Function.update utility rule (some v), ?_, fun x hx => Function.update_of_ne hx ..,
      by rw [Function.update_self]; rfl⟩
    simp only
    have hv : Function.update utility rule (some v) rule = some v := Function.update_self ..
    have hblocknone := hr.utility_eq_none (isClassRule_of_mem_layerBlocksOf hblock)
    obtain ⟨before, after, hroot⟩ := List.append_of_mem htop
    have hapart := (List.nodup_cons.mp (List.nodup_middle.mp (hroot ▸ h.nodup root))).1
    rw [List.mem_append, not_or] at hapart
    have hg : g.children root = (before.flatMap (standing doc utility gone) ++
        ahead.filterMap utility) ++ block :: after.flatMap (standing doc utility gone) := by
      rw [hr.top, hroot, List.flatMap_append, List.flatMap_cons, standing, hsplit,
        List.filterMap_append, List.filterMap_eq_nil_iff.mpr hnone, if_neg hgone, hblocknone]
      simp
    have hparent : g.parent? rule = some block := by
      refine (hr.wellFormed.listed rule block).mp ?_
      rw [hr.children_block h hblock hgone, List.mem_filter]
      exact ⟨hin, by rw [hrulenone]; rfl⟩
    obtain ⟨hmovable, htops, hbelow⟩ := hex.hoist hr.wellFormed hparent hg
    have hothers : ∀ nodes : List NodeId, (∀ c ∈ nodes, c ∈ doc.children root) → block ∉ nodes →
        nodes.flatMap (standing doc (Function.update utility rule (some v)) gone) =
          nodes.flatMap (standing doc utility gone) := by
      refine fun nodes hnodes hout => List.flatMap_congr fun c hc => standing_update (fun hm => ?_) ?_
      · exact hout (parent_unique h hm hin ▸ hc)
      · rintro rfl
        exact hbr (parent_unique h hin (hnodes c hc))
    refine { hmid.move h hv hmovable _ with top := ?_, below := fun x hx hlive hxn hxg => ?_ }
    · have hmiddle : standing doc (Function.update utility rule (some v)) gone block =
          ahead.filterMap utility ++ [v, block] := by
        have hnot := (List.nodup_cons.mp (List.nodup_middle.mp (hsplit ▸ h.nodup block))).1
        rw [List.mem_append, not_or] at hnot
        have hlater : behind.filterMap utility = [] :=
          List.filterMap_eq_nil_iff.mpr fun x hx => hnone x (List.mem_cons_of_mem _ hx)
        rw [standing, hsplit, List.filterMap_append, filterMap_update hnot.1,
          List.filterMap_cons_some hv, filterMap_update hnot.2, hlater, if_neg hgone,
          hmid.utility_eq_none (isClassRule_of_mem_layerBlocksOf hblock)]
        simp
      rw [htops, hroot, List.flatMap_append, List.flatMap_cons, hmiddle,
        hothers before (fun c hc => by simp [hroot, hc]) hapart.1,
        hothers after (fun c hc => by simp [hroot, hc]) hapart.2]
      simp
    · have hxrule : x ≠ rule := by
        rintro rfl
        cases hv.symm.trans hxn
      rw [Function.update_of_ne hxrule] at hxn
      rw [hbelow x ((hr.live x).mpr (Or.inr ⟨hlive, hxn, hxg⟩)) hxrule hx, hr.below x hx hlive hxn hxg,
        List.filter_filter]
      refine List.filter_congr fun c _ => ?_
      by_cases hc : c = rule
      · simp [hc]
      · simp [hc]

/-- A block that no rule is left in goes. -/
theorem removeBlock (hblock : block ∈ layerBlocksOf settings root doc) (hgone : block ∉ gone)
    (hall : ∀ c ∈ doc.children block, (utility c).isSome = true) :
    Rewritten settings root doc utility (gone ++ [block]) (g.remove block) := by
  have hwf := hr.wellFormed
  have htop := (List.mem_filter.mp hblock).1
  have hbr := ne_of_mem_children h htop
  have hlive := h.contains_child htop
  have hnone := hr.utility_eq_none (isClassRule_of_mem_layerBlocksOf hblock)
  have hempty : g.children block = [] := by
    rw [hr.children_block h hblock hgone, List.filter_eq_nil_iff]
    intro c hc
    obtain ⟨v, hv⟩ := Option.isSome_iff_exists.mp (hall c hc)
    simp [hv]
  have hleft : ∀ x, x ≠ block → ¬ g.Within block x := fun x hx hw =>
    hx (within_childless hwf hempty hw)
  have hutility : ∀ r v, utility r = some v → v ≠ block := fun r v hv =>
    (hr.ne_utility hv hlive).symm
  have hkeep : ∀ nodes : List NodeId, block ∉ nodes → nodes.filter (· != block) = nodes :=
    fun nodes hn => List.filter_eq_self.mpr fun c hc => bne_iff_ne.mpr (ne_of_mem_of_not_mem hc hn)
  refine ⟨⟨hwf.remove block, hr.ages.trans (ages_remove hwf.stocked block), hr.source, hr.new, hr.apart,
    fun b hb => ?_, fun x => ?_, fun r v hv => ?_, fun r v hv => ?_, fun x hx hn hg => ?_⟩, ?_,
    fun x hx hxl hxn hg => ?_⟩
  · rcases List.mem_append.mp hb with hb | hb
    · exact hr.emptied b hb
    · rw [List.mem_singleton.mp hb]
      exact ⟨hblock, hall⟩
  · rw [contains_remove hwf, hr.live, List.mem_append, List.mem_singleton, not_or]
    constructor
    · rintro ⟨hv | ⟨hx, hn, hg⟩, hout⟩
      · exact Or.inl hv
      · exact Or.inr ⟨hx, hn, hg, fun heq => hout (heq ▸ Within.refl _)⟩
    · rintro (⟨r, hv⟩ | ⟨hx, hn, hg, hne⟩)
      · exact ⟨Or.inl ⟨r, hv⟩, hleft x (hutility r x hv)⟩
      · exact ⟨Or.inr ⟨hx, hn, hg⟩, hleft x hne⟩
  · rw [get?_remove hwf block (hleft v (hutility r v hv))]
    exact hr.made r v hv
  · rw [children_remove hwf block (hleft v (hutility r v hv)), hr.handed r v hv]
    refine hkeep _ fun hm => (hr.source r v hv).ne_root h (parent_unique h hm htop)
  · rw [List.mem_append, List.mem_singleton, not_or] at hg
    rw [get?_remove hwf block (hleft x hg.2), hr.data x hx hn hg.1]
  · rw [children_remove hwf block (hleft root hbr.symm), hr.top, List.filter_flatMap]
    refine List.flatMap_congr fun c hc => ?_
    have hin : block ∉ (doc.children c).filterMap utility := fun hm => by
      obtain ⟨r, -, hv⟩ := List.mem_filterMap.mp hm
      exact hutility r block hv rfl
    rw [standing, standing, List.filter_append, hkeep _ hin]
    congr 1
    by_cases hcb : c = block
    · simp [hcb, hgone, hnone]
    · have hkept : (utility c).getD c ≠ block := by
        cases hv : utility c with
        | none => exact hcb
        | some v => exact hutility c v hv
      by_cases hcg : c ∈ gone <;> simp [hcg, hcb, hkept]
  · rw [List.mem_append, List.mem_singleton, not_or] at hg
    have hin : block ∉ g.children x := by
      rw [hr.below x hx hxl hxn hg.1]
      exact fun hm => hx (parent_unique h (List.mem_of_mem_filter hm) htop)
    rw [children_remove hwf block (hleft x hg.2), hkeep _ hin, hr.below x hx hxl hxn hg.1]

/-- A rule directly below the root becomes a utility where it stands. -/
theorem convertInPlace (htop : rule ∈ doc.children root) (hnone : utility rule = none)
    (hgone : rule ∉ gone) :
    ∃ utility', Rewritten settings root doc utility' gone (convertInPlace settings.atRule g rule) ∧
      (∀ x ≠ rule, utility' x = utility x) ∧ (utility' rule).isSome = isClassRule doc rule := by
  unfold Transform.convertInPlace
  cases hclass : isClassRule doc rule with
  | false =>
    rw [hr.toUtility?_none (h.contains_child htop) hgone hclass]
    exact ⟨utility, hr, fun _ _ => rfl, by rw [hnone]; rfl⟩
  | true =>
    obtain ⟨v, name, d, hstep, hex, hmid⟩ := hr.exists_exchange h (Or.inl htop) hnone hclass
    rw [hstep]
    refine ⟨Function.update utility rule (some v), ?_, fun x hx => Function.update_of_ne hx ..,
      by rw [Function.update_self]; rfl⟩
    simp only
    have hrr := ne_of_mem_children h htop
    have hroot : doc.contains root = true := contains_of_mem_children htop
    have hutility : ∀ r w, utility r = some w → w ≠ rule := fun r w hw =>
      (hr.ne_utility hw (h.contains_child htop)).symm
    refine { hmid with top := ?_, below := fun x hx hlive hxn hxg => ?_ }
    · have hlive := contains_of_mem_children (hr.mem_top htop hnone hgone)
      rw [hex.children root hlive hrr.symm, hr.top, List.map_flatMap]
      refine List.flatMap_congr fun c hc => ?_
      have hin : rule ∉ (doc.children c).filterMap utility := fun hm => by
        obtain ⟨r, -, hw⟩ := List.mem_filterMap.mp hm
        exact hutility r rule hw rfl
      by_cases hcr : c = rule
      · have hself : rule ∉ doc.children rule := fun hm => hrr (parent_unique h hm htop)
        rw [hcr] at hin ⊢
        rw [standing, standing, List.map_append, map_exchange hin, filterMap_update hself, hnone,
          Function.update_self]
        simp [exchange, hgone]
      · have hout : rule ∉ doc.children c := fun hm =>
          ne_of_mem_children h hc (parent_unique h hm htop)
        rw [standing_update hout hcr]
        refine map_exchange fun hm => ?_
        rcases List.mem_append.mp hm with hm | hm
        · exact hin hm
        · cases hw : utility c with
          | none => simp [hw, Ne.symm hcr] at hm
          | some w => simp [hw, (hutility c w hw).symm] at hm
    · have hxrule : x ≠ rule := by
        rintro rfl
        rw [Function.update_self] at hxn
        cases hxn
      rw [Function.update_of_ne hxrule] at hxn
      have hout : rule ∉ doc.children x := fun hm => hx (parent_unique h hm htop)
      rw [hex.children x ((hr.live x).mpr (Or.inr ⟨hlive, hxn, hxg⟩)) hxrule,
        hr.below x hx hlive hxn hxg, map_exchange fun hm => hout (List.mem_of_mem_filter hm)]
      refine List.filter_congr fun c hc => ?_
      rw [Function.update_of_ne (ne_of_mem_of_not_mem hc hout)]

/-! ### Runs -/

/-- All rules of a block. -/
theorem hoistRules (hblock : block ∈ layerBlocksOf settings root doc) (hgone : block ∉ gone)
    {ahead rules : List NodeId} (hsplit : doc.children block = ahead ++ rules)
    (hnone : ∀ x ∈ rules, utility x = none) :
    ∃ utility', Rewritten settings root doc utility' gone
        (rules.foldl (Transform.hoistRule settings.atRule root block) g) ∧
      (∀ x ∉ rules, utility' x = utility x) ∧
      ∀ x ∈ rules, (utility' x).isSome = isClassRule doc x := by
  induction rules generalizing g utility ahead with
  | nil => exact ⟨utility, hr, fun _ _ => rfl, fun _ hx => absurd hx List.not_mem_nil⟩
  | cons rule rules ih =>
    obtain ⟨utility₁, hr₁, hsame₁, hrule⟩ := hr.hoistRule h hblock hgone hsplit hnone
    have hnot : rule ∉ rules := by
      have hnodup := hsplit ▸ h.nodup block
      exact (List.nodup_cons.mp (List.nodup_append.mp hnodup).2.1).1
    have hrest : doc.children block = (ahead ++ [rule]) ++ rules := by simp [hsplit]
    obtain ⟨utility₂, hr₂, hsame₂, hrules⟩ := ih hr₁ hrest fun x hx => by
      rw [hsame₁ x (ne_of_mem_of_not_mem hx hnot), hnone x (List.mem_cons_of_mem _ hx)]
    refine ⟨utility₂, hr₂, fun x hx => ?_, fun x hx => ?_⟩
    · rw [List.mem_cons, not_or] at hx
      rw [hsame₂ x hx.2, hsame₁ x hx.1]
    · rcases List.mem_cons.mp hx with rfl | hx
      · rw [hsame₂ x hnot, hrule]
      · exact hrules x hx

/-- A block, which goes when all of it has become utilities. -/
theorem hoistBlock (hblock : block ∈ layerBlocksOf settings root doc) (hgone : block ∉ gone)
    (hnone : ∀ x ∈ doc.children block, utility x = none) :
    ∃ utility', Rewritten settings root doc utility'
        (gone ++ if holdsClassRules doc block then [block] else [])
        (hoistBlock settings.atRule root g block) ∧
      (∀ x ∉ doc.children block, utility' x = utility x) ∧
      ∀ x ∈ doc.children block, (utility' x).isSome = isClassRule doc x := by
  have hchildren : g.children block = doc.children block := by
    rw [hr.children_block h hblock hgone, List.filter_eq_self]
    exact fun c hc => by rw [hnone c hc]; rfl
  obtain ⟨utility', hr', hsame, hrules⟩ :=
    hr.hoistRules h hblock hgone (List.nil_append (doc.children block)).symm hnone
  refine ⟨utility', ?_, hsame, hrules⟩
  unfold Transform.hoistBlock
  simp only
  rw [hchildren]
  generalize (doc.children block).foldl (Transform.hoistRule settings.atRule root block) g = e at *
  have hleft := hr'.children_block h hblock hgone
  cases hall : holdsClassRules doc block with
  | true =>
    have hconverted : ∀ c ∈ doc.children block, (utility' c).isSome = true := fun c hc => by
      rw [hrules c hc]
      exact List.all_eq_true.mp hall c hc
    have hempty : (e.children block).isEmpty = true := by
      rw [hleft, List.isEmpty_iff, List.filter_eq_nil_iff]
      intro c hc
      obtain ⟨v, hv⟩ := Option.isSome_iff_exists.mp (hconverted c hc)
      simp [hv]
    rw [if_pos hempty]
    exact hr'.removeBlock h hblock hgone hconverted
  | false =>
    obtain ⟨c, hc, hplain⟩ := List.all_eq_false.mp hall
    have hkept : c ∈ e.children block := by
      rw [hleft, List.mem_filter, Option.isNone_iff_eq_none, ← Option.not_isSome_iff_eq_none, hrules c hc]
      exact ⟨hc, hplain⟩
    have hempty : ¬ (e.children block).isEmpty = true := by
      rw [List.isEmpty_iff]
      exact List.ne_nil_of_mem hkept
    rw [if_neg hempty]
    simpa using hr'

end Rewritten

end Strata.Transform
