import Strata.Proofs.Forest.Relocation
import Strata.Proofs.Forest.Reuse
import Strata.Proofs.Forest.Twins
import Strata.Transform.LayerBlocks

/-! One rule gives way to a utility.

The utility is a new node. It stands where the rule stood, among the same siblings, with the children
that the rule had; the rule is gone, and nothing else has changed (`exchanged_toUtility?`). -/
namespace Strata.Transform

open Forest

variable {doc g : Document} {atRule : String} {rule utility : NodeId} {n : Node}

/-- The utility for the rule, and anything else for itself. -/
def exchange (rule utility c : NodeId) : NodeId := if c = rule then utility else c

theorem exchange_of_ne {c : NodeId} (h : c ≠ rule) : exchange rule utility c = c := if_neg h

theorem map_exchange {nodes : List NodeId} (h : rule ∉ nodes) :
    nodes.map (exchange rule utility) = nodes := by
  rw [List.map_congr_left fun c hc => exchange_of_ne (ne_of_mem_of_not_mem hc h), List.map_id']

/-- `utility`, which is new and has the data `n`, stands where `rule` stood, with its children. -/
structure Exchanged (doc : Document) (rule utility : NodeId) (n : Node) (g : Document) : Prop where
  wellFormed : g.WellFormed
  ages : Ages doc g
  new : doc.contains utility = false
  live : ∀ x, g.contains x = true ↔ x = utility ∨ doc.contains x = true ∧ x ≠ rule
  made : g.get? utility = some n
  data : ∀ x, doc.contains x = true → x ≠ rule → g.get? x = doc.get? x
  handed : g.children utility = doc.children rule
  children : ∀ x, doc.contains x = true → x ≠ rule →
    g.children x = (doc.children x).map (exchange rule utility)

/-- Of a new node and the one behind it the second goes. -/
theorem filter_exchange {ahead behind : List NodeId} (hnodup : (ahead ++ rule :: behind).Nodup)
    (hne : utility ≠ rule) :
    (ahead ++ utility :: rule :: behind).filter (· != rule) =
      (ahead ++ rule :: behind).map (exchange rule utility) := by
  have hnot := (List.nodup_cons.mp (List.nodup_middle.mp hnodup)).1
  rw [List.mem_append, not_or] at hnot
  obtain ⟨hahead, hbehind⟩ := hnot
  have hkeep : ∀ nodes : List NodeId, rule ∉ nodes → nodes.filter (· != rule) = nodes := fun nodes h =>
    List.filter_eq_self.mpr fun c hc => bne_iff_ne.mpr (ne_of_mem_of_not_mem hc h)
  rw [List.filter_append, List.map_append, hkeep ahead hahead, map_exchange hahead]
  simp [hkeep behind hbehind, map_exchange hbehind, hne, exchange]

/-- A new node gets a place in front of a sibling. -/
theorem addBefore?_eq_some (h : doc.WellFormed) {data : Node} {sibling : NodeId}
    {made : NodeId × Document} (he : doc.addBefore? sibling data = some made) :
    ∃ parent ahead behind, doc.parent? sibling = some parent ∧
      doc.children parent = ahead ++ sibling :: behind ∧
      made = doc.insertChild parent ahead.length data := by
  obtain ⟨parent, hp, he⟩ := Option.bind_eq_some_iff.mp he
  obtain ⟨index, hindex, he⟩ := Option.bind_eq_some_iff.mp he
  obtain ⟨ahead, behind, hsplit⟩ := List.append_of_mem ((h.listed sibling parent).mpr hp)
  have hplace : (doc.children parent)[ahead.length]? = some sibling := by simp [hsplit]
  cases hindex.symm.trans (h.index?_child hplace)
  exact ⟨parent, ahead, behind, hp, hsplit, (Option.some.inj he).symm⟩

/-- What goes when it has no children leaves no other trace. -/
theorem within_childless (h : doc.WellFormed) (hempty : doc.children rule = []) {x : NodeId}
    (hw : doc.Within rule x) : x = rule := by
  by_contra hne
  obtain ⟨c, hc⟩ := ((within_iff.mp hw).resolve_left hne).exists_child
  have hm := (h.listed c rule).mpr hc
  rw [hempty] at hm
  cases hm

theorem ages_moveAll (h : doc.Stocked) (nodes : List NodeId) (top : NodeId) :
    Ages doc (nodes.foldl (fun f id => f.moveLast id top) doc) := by
  induction nodes generalizing doc with
  | nil => exact ages_refl h
  | cons id nodes ih =>
    have hfirst := ages_move h id top (doc.children top).length
    exact hfirst.trans (ih hfirst.stocked)

/-! ### The steps of an exchange -/

/-- `utility` is new and stands in front of `rule`. -/
structure Preceded (doc : Document) (rule utility parent : NodeId) (n : Node) (d : Document) :
    Prop where
  wellFormed : d.WellFormed
  ages : Ages doc d
  above : doc.parent? rule = some parent
  new : doc.contains utility = false
  live : ∀ x, d.contains x = true ↔ x = utility ∨ doc.contains x = true
  data : ∀ x, d.get? x = if x = utility then some n else doc.get? x
  up : ∀ x, d.parent? x = if x = utility then some parent else doc.parent? x
  place : ∃ ahead behind, doc.children parent = ahead ++ rule :: behind ∧
    d.children parent = ahead ++ utility :: rule :: behind
  down : ∀ x, x ≠ parent → d.children x = doc.children x

theorem preceded_insertChild (h : doc.WellFormed) {parent : NodeId} {ahead behind : List NodeId}
    (hparent : doc.parent? rule = some parent)
    (hsplit : doc.children parent = ahead ++ rule :: behind) (n : Node) :
    Preceded doc rule (doc.create n).1 parent n (doc.insertChild parent ahead.length n).2 := by
  have hp : doc.contains parent = true := h.contains_parent hparent
  refine ⟨h.insertChild hp _ n, ages_insertChild h.stocked parent _ n, hparent,
    not_contains_created h.stocked n, contains_insertChild h _ n, get?_insertChild h hp _ n,
    parent?_insertChild h hp _ n, ⟨ahead, behind, hsplit, ?_⟩, fun x hx => ?_⟩
  · rw [children_insertChild h hp, if_pos rfl, hsplit, List.length_append,
      Nat.min_eq_left (Nat.le_add_right ..), insertIdx_behind]
  · rw [children_insertChild h hp, if_neg hx]

namespace Preceded

variable {parent : NodeId} {d : Document} (hd : Preceded doc rule utility parent n d)
include hd

theorem ne_utility {x : NodeId} (hx : doc.contains x = true) : x ≠ utility := by
  rintro rfl
  rw [hd.new] at hx
  cases hx

theorem ne_parent (h : doc.WellFormed) : rule ≠ parent := by
  rintro rfl
  exact h.not_within_parent hd.above (Within.refl _)

/-- The utility has no children yet. -/
theorem bare (h : doc.WellFormed) : d.children utility = [] := by
  rw [hd.down utility (hd.ne_utility (h.contains_parent hd.above)).symm, children_eq_nil hd.new]

theorem parent?_below (h : doc.WellFormed) {c : NodeId} (hc : c ∈ doc.children rule) :
    d.parent? c = some rule :=
  (hd.wellFormed.listed c rule).mp (hd.down rule (hd.ne_parent h) ▸ hc)

/-- The children of the rule become those of the utility. -/
theorem gathered (h : doc.WellFormed) :
    Gathered d ((doc.children rule).foldl (fun f id => f.moveLast id utility) d) utility
      (doc.children rule) (doc.children rule) := by
  have hrule : doc.contains rule = true := contains_of_parent? hd.above
  have hutility : d.parent? utility = some parent := by rw [hd.up, if_pos rfl]
  have hrulep : d.parent? rule = some parent := by
    rw [hd.up, if_neg (hd.ne_utility hrule), hd.above]
  have hgatherable : Gatherable d utility (doc.children rule) := by
    refine ⟨hd.wellFormed, contains_of_parent? hutility,
      fun c hc => contains_of_parent? (hd.parent?_below h hc), h.nodup rule,
      fun c hc heq => hd.ne_utility hrule (Option.some.inj ((hd.parent?_below h hc).symm.trans heq)),
      fun c hc hw => ?_⟩
    -- The utility is a sibling of the rule, so it is not below it.
    rcases hw.cases_parent with rfl | ⟨p, hp, hw⟩
    · exact hd.ne_parent h (Option.some.inj ((hd.parent?_below h hc).symm.trans hutility))
    · cases hutility.symm.trans hp
      exact hd.wellFormed.not_within_parent (hd.parent?_below h hc) (Within.step hrulep hw)
  have hgathered := gathered_moveLast hgatherable
  rwa [hd.bare h, List.nil_append] at hgathered

/-- The rule, which has no children any more, goes. -/
theorem exchanged (h : doc.WellFormed) : Exchanged doc rule utility n
    (((doc.children rule).foldl (fun f id => f.moveLast id utility) d).remove rule) := by
  have hgathered := hd.gathered h
  have hages := ages_moveAll hd.wellFormed.stocked (doc.children rule) utility
  generalize (doc.children rule).foldl (fun f id => f.moveLast id utility) d = e at hgathered hages ⊢
  have hwf := hgathered.wellFormed
  have hrule : doc.contains rule = true := contains_of_parent? hd.above
  have hne : utility ≠ rule := (hd.ne_utility hrule).symm
  have hempty : e.children rule = [] := by
    rw [hgathered.children, if_neg hne.symm, hd.down rule (hd.ne_parent h), List.filter_eq_nil_iff]
    exact fun c hc => by simpa using hc
  have hleft : ∀ x, x ≠ rule → ¬ e.Within rule x := fun x hx hw =>
    hx (within_childless hwf hempty hw)
  refine ⟨hwf.remove rule, (hd.ages.trans hages).trans (ages_remove hwf.stocked rule), hd.new,
    fun x => ?_, ?_, fun x hx hxr => ?_, ?_, fun x hx hxr => ?_⟩
  · rw [contains_remove hwf, hgathered.live, hd.live]
    constructor
    · rintro ⟨rfl | hx, hout⟩
      · exact Or.inl rfl
      · exact Or.inr ⟨hx, fun heq => hout (heq ▸ Within.refl _)⟩
    · rintro (rfl | ⟨hx, hxr⟩)
      · exact ⟨Or.inl rfl, hleft _ hne⟩
      · exact ⟨Or.inr hx, hleft x hxr⟩
  · rw [get?_remove hwf rule (hleft _ hne), hgathered.data, hd.data, if_pos rfl]
  · rw [get?_remove hwf rule (hleft _ hxr), hgathered.data, hd.data, if_neg (hd.ne_utility hx)]
  · rw [children_remove hwf rule (hleft _ hne), hgathered.children, if_pos rfl]
    refine List.filter_eq_self.mpr fun c hc => bne_iff_ne.mpr ?_
    rintro rfl
    exact hd.wellFormed.not_within_parent (hd.parent?_below h hc) (Within.refl _)
  · have hstay : (d.children x).filter (fun c => c ∉ doc.children rule) = d.children x := by
      refine List.filter_eq_self.mpr fun c hc => decide_eq_true fun hm => hxr ?_
      exact Option.some.inj (((hd.wellFormed.listed c x).mp hc).symm.trans (hd.parent?_below h hm))
    rw [children_remove hwf rule (hleft _ hxr), hgathered.children, if_neg (hd.ne_utility hx), hstay]
    by_cases hxp : x = parent
    · obtain ⟨ahead, behind, hbefore, hafter⟩ := hd.place
      rw [hxp, hafter, hbefore]
      exact filter_exchange (hbefore ▸ h.nodup parent) hne
    · have hnot : rule ∉ doc.children x := fun hm =>
        hxp (Option.some.inj (((h.listed rule x).mp hm).symm.trans hd.above))
      rw [hd.down x hxp, map_exchange hnot]
      exact List.filter_eq_self.mpr fun c hc => bne_iff_ne.mpr (ne_of_mem_of_not_mem hc hnot)

end Preceded

/-- **A rule that becomes a utility is exchanged for it.** -/
theorem exchanged_toUtility? (h : doc.WellFormed)
    (he : toUtility? atRule doc rule = some (utility, g)) :
    ∃ name, (doc.get? rule).bind ruleClass? = some name ∧
      Exchanged doc rule utility (.blockAtRule atRule name) g := by
  unfold toUtility? at he
  obtain ⟨name, hname, he⟩ := Option.bind_eq_some_iff.mp he
  obtain ⟨made, hmade, he⟩ := Option.bind_eq_some_iff.mp he
  obtain ⟨parent, ahead, behind, hparent, hsplit, rfl⟩ := addBefore?_eq_some h hmade
  have hd := preceded_insertChild h hparent hsplit (.blockAtRule atRule name)
  have hex := hd.exchanged h
  rw [← hd.down rule (hd.ne_parent h)] at hex
  cases he
  exact ⟨name, hname, hex⟩

/-- A utility that takes the place of its rule and leaves it leaves nothing. -/
theorem filter_map_exchange {nodes : List NodeId} (hv : utility ∉ nodes) :
    (nodes.map (exchange rule utility)).filter (· != utility) = nodes.filter (· != rule) := by
  induction nodes with
  | nil => rfl
  | cons c nodes ih =>
    rw [List.mem_cons, not_or] at hv
    by_cases hc : c = rule
    · simp [exchange, hc, ih hv.2]
    · simp [exchange, hc, Ne.symm hv.1, ih hv.2]

/-- From a block below `root` the utility moves in front of the block. -/
theorem Exchanged.hoist {n : Node} (hx : Exchanged doc rule utility n g) (h : doc.WellFormed)
    {root block : NodeId} {ahead behind : List NodeId} (hparent : doc.parent? rule = some block)
    (hsplit : doc.children root = ahead ++ block :: behind) :
    g.Movable utility root ∧
      (g.move utility root ((g.index? block).getD 0)).children root =
        ahead ++ utility :: block :: behind ∧
      ∀ x, doc.contains x = true → x ≠ rule → x ≠ root →
        (g.move utility root ((g.index? block).getD 0)).children x =
          (doc.children x).filter (· != rule) := by
  have hwf := hx.wellFormed
  have hblock : block ∈ doc.children root := by simp [hsplit]
  have hup := (h.listed block root).mp hblock
  have hroot := h.contains_parent hup
  have hne : ∀ x, doc.contains x = true → x ≠ utility := by
    rintro x hx' rfl
    rw [hx.new] at hx'
    cases hx'
  have hblockrule : block ≠ rule := by
    rintro rfl
    exact h.not_within_parent hparent (Within.refl _)
  have hrootrule : root ≠ rule := by
    rintro rfl
    exact h.not_within_parent hparent (Within.of_parent hup)
  have hrootblock : root ≠ block := by
    rintro rfl
    exact h.not_within_parent hup (Within.refl _)
  have htop : g.children root = doc.children root := by
    rw [hx.children root hroot hrootrule]
    refine map_exchange fun hm => hrootblock ?_
    exact Option.some.inj (((h.listed rule root).mp hm).symm.trans hparent)
  have hplace : (g.children root)[ahead.length]? = some block := by
    rw [htop]
    simp [hsplit]
  have hindex := hwf.index?_child hplace
  have hutility : g.parent? utility = some block := by
    refine (hwf.listed utility block).mp ?_
    rw [hx.children block (h.contains_child hblock) hblockrule, List.mem_map]
    exact ⟨rule, (h.listed rule block).mpr hparent, if_pos rfl⟩
  have hwithin : g.Within root utility :=
    Within.step hutility (Within.of_parent ((hwf.listed block root).mp (htop ▸ hblock)))
  have hm : g.Movable utility root :=
    ⟨contains_of_parent? hutility, (hx.live root).mpr (Or.inr ⟨hroot, hrootrule⟩),
      fun hw => hne root hroot (hwf.within_antisymm hwithin hw)⟩
  have hout : ∀ x, utility ∉ doc.children x := fun x hc => hne utility (h.contains_child hc) rfl
  refine ⟨hm, ?_, fun x hlive hxr hxroot => ?_⟩
  · have hstay : (doc.children root).filter (· != utility) = doc.children root :=
      List.filter_eq_self.mpr fun c hc => bne_iff_ne.mpr (hne c (h.contains_child hc))
    rw [children_move hwf hm, if_pos rfl, htop, hstay, hindex, Option.getD_some, hsplit,
      List.length_append, Nat.min_eq_left (Nat.le_add_right ..), insertIdx_behind]
  · rw [children_move hwf hm, if_neg hxroot, hx.children x hlive hxr]
    exact filter_map_exchange (hout x)

theorem toUtility?_eq_none (h : (doc.get? rule).bind ruleClass? = none) :
    toUtility? atRule doc rule = none := by
  unfold toUtility?
  rw [h]
  rfl

theorem exists_exchanged (atRule : String) (h : doc.WellFormed) {parent : NodeId} {name : String}
    (hp : doc.parent? rule = some parent) (hname : (doc.get? rule).bind ruleClass? = some name) :
    ∃ utility g, toUtility? atRule doc rule = some (utility, g) ∧
      Exchanged doc rule utility (.blockAtRule atRule name) g := by
  obtain ⟨ahead, behind, hsplit⟩ := List.append_of_mem ((h.listed rule parent).mpr hp)
  have hplace : (doc.children parent)[ahead.length]? = some rule := by simp [hsplit]
  cases hres : toUtility? atRule doc rule with
  | none =>
    simp [toUtility?, hname, addBefore?, hp, h.index?_child hplace] at hres
  | some made =>
    obtain ⟨name', hname', hex⟩ := exchanged_toUtility? h hres
    cases hname.symm.trans hname'
    exact ⟨_, _, rfl, hex⟩

end Strata.Transform
