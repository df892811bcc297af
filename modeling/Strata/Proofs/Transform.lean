import Strata.Migration
import Strata.Proofs.Analysis
import Strata.Proofs.Transform.Hoisting

/-! Imports behind transforms.

Transforms make utilities of class rules and move them within their stylesheet. No import is changed
or removed, and of the imports and the roots the same ones are above each import (`Reshaped`); none is
added either, unless utilities go by the name of imports (`Reshaped.fixed`). Hoisting the layers of a
stylesheet is of that kind, as no import is a rule or a block that it looks at
(`Transform.Rewritten.reshaped`). -/
namespace Strata

namespace Node

/-- No transform changes such a node. -/
def isFixed (n : Node) : Bool := n.isRoot || n.isImportRule

theorem isFixed_of_isImportRule {n : Node} (h : n.isImportRule = true) : n.isFixed = true := by
  rw [isFixed, h, Bool.or_true]

theorem isFixed_of_isRoot {n : Node} (h : n.isRoot = true) : n.isFixed = true := by
  rw [isFixed, h, Bool.true_or]

end Node

namespace Document

open Forest

variable {doc g k : Document} {roots : List NodeId} {atRule : String}

structure Reshaped (atRule : String) (roots : List NodeId) (doc g : Document) : Prop where
  tidy : Tidy g roots
  kept : ∀ x n, n.isFixed = true → doc.get? x = some n → g.get? x = some n
  /-- What is new is a utility. -/
  made : ∀ x n, g.get? x = some n → doc.get? x = some n ∨ ∃ params, n = .blockAtRule atRule params
  above : ∀ a x, (doc.get? a).any Node.isFixed = true → (doc.get? x).any Node.isFixed = true →
    (g.Within a x ↔ doc.Within a x)

theorem reshaped_refl (h : Tidy doc roots) : Reshaped atRule roots doc doc :=
  ⟨h, fun _ _ _ => id, fun _ _ => Or.inl, fun _ _ _ _ => Iff.rfl⟩

namespace Reshaped

theorem any_isFixed (h : Reshaped atRule roots doc g) {x : NodeId}
    (hx : (doc.get? x).any Node.isFixed = true) : (g.get? x).any Node.isFixed = true := by
  obtain ⟨n, hn, hfixed⟩ := (Option.any_eq_true _ _).mp hx
  rw [h.kept x n hfixed hn, Option.any_some, hfixed]

theorem trans (h : Reshaped atRule roots doc g) (h' : Reshaped atRule roots g k) :
    Reshaped atRule roots doc k where
  tidy := h'.tidy
  kept x n hn hx := h'.kept x n hn (h.kept x n hn hx)
  made x n hx := (h'.made x n hx).elim (h.made x n) Or.inr
  above a x ha hx := (h'.above a x (h.any_isFixed ha) (h.any_isFixed hx)).trans (h.above a x ha hx)

theorem origin (h : Reshaped atRule roots doc g)
    (horigin : ∀ x n, doc.get? x = some n → n.origin = none) (x : NodeId) (n : Node)
    (hx : g.get? x = some n) : n.origin = none := by
  rcases h.made x n hx with hx | ⟨params, rfl⟩
  · exact horigin x n hx
  · rfl

/-- Where utilities are not imports, the imports and the roots are those there were. -/
theorem fixed (h : Reshaped atRule roots doc g)
    (hat : Text.sameCaseless atRule "import" = false) (x : NodeId) (n : Node)
    (hn : n.isFixed = true) : g.get? x = some n ↔ doc.get? x = some n := by
  refine ⟨fun hx => (h.made x n hx).resolve_right ?_, h.kept x n hn⟩
  rintro ⟨params, rfl⟩
  rw [Node.isFixed, Bool.or_eq_true] at hn
  rcases hn with hroot | himport
  · cases hroot
  · exact Bool.false_ne_true (hat.symm.trans himport)

end Reshaped

end Document

namespace Transform

open Forest Document

variable {doc g : Document} {roots : List NodeId} {atRule : String} {root block rule : NodeId}

/-! ### Imports and roots while layers are hoisted -/

theorem isFixed_of_ruleClass? {n : Node} {name : String} (h : ruleClass? n = some name) :
    n.isFixed = false := by
  rcases n with ⟨form, span, origin⟩
  cases form <;> first | rfl | cases h

theorem isFixed_of_isLayerBlock {settings : Settings} {n : Node}
    (h : isLayerBlock settings n = true) : n.isFixed = false := by
  rcases n with ⟨form, span, origin⟩
  cases form with
  | atRule name params block =>
    cases block with
    | false => cases h
    | true =>
      obtain ⟨hname, -⟩ := (Bool.and_eq_true _ _).mp h
      have hlayer : Text.sameCaseless "layer" "import" = false := by decide +kernel
      unfold Text.sameCaseless at hname hlayer
      rw [← beq_iff_eq.mp hname] at hlayer
      rw [Node.isFixed, Bool.or_eq_false_iff]
      exact ⟨rfl, hlayer⟩
  | _ => cases h

theorem not_isFixed_of_mem_layerBlocksOf {settings : Settings}
    (h : block ∈ layerBlocksOf settings root doc) : (doc.get? block).any Node.isFixed = false := by
  obtain ⟨n, hn, hlayer⟩ := (Option.any_eq_true _ _).mp (List.mem_filter.mp h).2
  rw [hn, Option.any_some, isFixed_of_isLayerBlock hlayer]

namespace Rewritten

variable {settings : Settings} {utility : NodeId → Option NodeId} {gone : List NodeId}
  (hr : Rewritten settings root doc utility gone g)
include hr

/-- Imports and roots neither become utilities nor go. -/
theorem left_of_isFixed {x : NodeId} (hx : (doc.get? x).any Node.isFixed = true) :
    doc.contains x = true ∧ utility x = none ∧ x ∉ gone := by
  obtain ⟨n, hn, hfixed⟩ := (Option.any_eq_true _ _).mp hx
  refine ⟨contains_iff_get?.mpr ⟨n, hn⟩, hr.utility_eq_none (Bool.eq_false_iff.mpr fun hc => ?_),
    hr.not_gone fun hm => ?_⟩
  · obtain ⟨name, hname⟩ := Option.isSome_iff_exists.mp hc
    rw [hn, Option.bind_some] at hname
    exact Bool.false_ne_true ((isFixed_of_ruleClass? hname).symm.trans hfixed)
  · exact Bool.false_ne_true ((not_isFixed_of_mem_layerBlocksOf hm).symm.trans hx)

/-- Each node was one of the document, or is the utility for one. -/
theorem of_contains {x : NodeId} (hx : g.contains x = true) (hold : doc.contains x = true) :
    utility x = none ∧ x ∉ gone := by
  rcases (hr.live x).mp hx with ⟨r, hv⟩ | ⟨-, hleft⟩
  · exact absurd rfl (hr.ne_utility hv hold)
  · exact hleft

theorem made_or_left {x : NodeId} {n : Node} (hx : g.get? x = some n) :
    doc.get? x = some n ∨ doc.contains x = false ∧ ∃ params, n = .blockAtRule settings.atRule params := by
  rcases (hr.live x).mp (contains_iff_get?.mpr ⟨n, hx⟩) with ⟨r, hv⟩ | ⟨hold, hnone, hgone⟩
  · obtain ⟨name, -, hget⟩ := hr.made r x hv
    exact Or.inr ⟨hr.new r x hv, name, Option.some.inj (hx.symm.trans hget)⟩
  · exact Or.inl ((hr.data x hold hnone hgone).symm.trans hx)

/-- Utilities stand directly below the root. -/
theorem parent?_utility {r v : NodeId} (hv : utility r = some v) : g.parent? v = some root := by
  refine (hr.wellFormed.listed v root).mp ?_
  rw [hr.top, List.mem_flatMap]
  rcases hr.source r v hv with htop | ⟨block, hblock, hin⟩
  · have hgone : r ∉ gone := hr.not_gone fun hm => by
      cases hv.symm.trans (hr.utility_eq_none (isClassRule_of_mem_layerBlocksOf hm))
    exact ⟨r, htop, by simp [standing, hgone, hv]⟩
  · refine ⟨block, (List.mem_filter.mp hblock).1, List.mem_append_left _ ?_⟩
    exact List.mem_filterMap.mpr ⟨r, hin, hv⟩

section wellFormed

variable (h : doc.WellFormed)
include h

/-- Above the rule for a utility is the root. -/
theorem within_root {r v : NodeId} (hv : utility r = some v) : doc.Within root r := by
  rcases hr.source r v hv with htop | ⟨block, hblock, hin⟩
  · exact Within.of_parent ((h.listed r root).mp htop)
  · exact Within.step ((h.listed r block).mp hin)
      (Within.of_parent ((h.listed block root).mp (List.mem_filter.mp hblock).1))

/-- What is above a node was above it, or above the rule it is the utility for. -/
theorem within_before {a y : NodeId} (ha : doc.contains a = true) (hw : g.Within a y) {x : NodeId}
    (hx : x = y ∧ doc.contains x = true ∨ utility x = some y) : doc.Within a x := by
  induction hw using Relation.ReflTransGen.head_induction_on generalizing x with
  | refl =>
    rcases hx with ⟨rfl, -⟩ | hv
    · exact Within.refl _
    · exact absurd rfl (hr.ne_utility hv ha)
  | head hp _ ih =>
    rcases hx with ⟨rfl, hold⟩ | hv
    · obtain ⟨hnone, hgone⟩ := hr.of_contains (contains_of_parent? hp) hold
      rw [hr.parent? h hold hnone hgone] at hp
      obtain ⟨p, hup, rfl⟩ := Option.map_eq_some_iff.mp hp
      refine Within.step hup (ih ?_)
      cases hv : utility p with
      | some v => exact Or.inr rfl
      | none => exact Or.inl ⟨rfl, h.contains_parent hup⟩
    · cases hp.symm.trans (hr.parent?_utility hv)
      exact (ih (Or.inl ⟨rfl, hr.contains_root hv⟩)).trans (hr.within_root h hv)

/-- The node that is above whatever a node was above: its utility, or the root where it is gone. -/
theorem within_after {a y : NodeId} (ha : (doc.get? a).any Node.isFixed = true) (hw : doc.Within a y) :
    g.Within a (if y ∈ gone then root else (utility y).getD y) := by
  obtain ⟨halive, hanone, hagone⟩ := hr.left_of_isFixed ha
  have hroot : ∀ {c : NodeId}, c ∈ doc.children root → root ∉ gone ∧ utility root = none := by
    intro c hc
    have hout : ¬ InReach settings root doc root := fun hx => hx.ne_root h rfl
    refine ⟨fun hm => hout (Or.inl (List.mem_filter.mp (hr.emptied root hm).1).1), ?_⟩
    exact Option.eq_none_iff_forall_ne_some.mpr fun v hv => hout (hr.source root v hv)
  induction hw using Relation.ReflTransGen.head_induction_on with
  | refl =>
    rw [if_neg hagone, hanone]
    exact Within.refl _
  | @head y p hp _ ih =>
    have hin := (h.listed y p).mpr hp
    by_cases hygone : y ∈ gone
    · -- A block that is gone was directly below the root.
      have htop := (List.mem_filter.mp (hr.emptied y hygone).1).1
      obtain ⟨hrootgone, hrootnone⟩ := hroot htop
      cases parent_unique h hin htop
      rw [if_neg hrootgone, hrootnone] at ih
      rwa [if_pos hygone]
    · rw [if_neg hygone]
      cases hv : utility y with
      | some v =>
        refine Within.step (hr.parent?_utility hv) ?_
        rcases hr.source y v hv with htop | ⟨block, hblock, hin'⟩
        · obtain ⟨hrootgone, hrootnone⟩ := hroot htop
          cases parent_unique h hin htop
          rwa [if_neg hrootgone, hrootnone] at ih
        · cases parent_unique h hin hin'
          by_cases hgone : p ∈ gone
          · rwa [if_pos hgone] at ih
          · have htop := (List.mem_filter.mp hblock).1
            have hnone := hr.utility_eq_none (isClassRule_of_mem_layerBlocksOf hblock)
            have hup := hr.parent? h (h.contains_child htop) hnone hgone
            rw [(h.listed p root).mp htop, Option.map_some, (hroot htop).2] at hup
            rw [if_neg hgone, hnone] at ih
            rcases ih.cases_parent with heq | ⟨q, hq, hw⟩
            · cases (not_isFixed_of_mem_layerBlocksOf hblock).symm.trans (heq ▸ ha)
            · cases hup.symm.trans hq
              exact hw
      | none =>
        have hkept : p ∉ gone := fun hm => by
          have hsome := (hr.emptied p hm).2 y hin
          rw [hv] at hsome
          cases hsome
        have hup := hr.parent? h (contains_of_parent? hp) hv hygone
        rw [hp] at hup
        rw [if_neg hkept] at ih
        exact Within.step hup ih

end wellFormed

/-- **What is fixed stays as it is.** -/
theorem reshaped {roots : List NodeId} (h : Tidy doc roots) : Reshaped settings.atRule roots doc g := by
  have hwf := h.wellFormed
  have hroots : ∀ {x}, x ∈ roots → doc.contains x = true ∧ utility x = none ∧ x ∉ gone := fun {x} hx => by
    obtain ⟨n, hn⟩ := contains_iff_get?.mp (h.live hx)
    refine hr.left_of_isFixed ?_
    rw [hn, Option.any_some, Node.isFixed_of_isRoot ((h.form x n hn).mpr hx)]
  refine ⟨⟨hr.wellFormed, h.nodup, fun x => ⟨fun hx => ?_, fun ⟨hlive, hup⟩ => ?_⟩, fun x n hn => ?_⟩,
    fun x n hfixed hn => ?_, fun x n hn => (hr.made_or_left hn).imp_right And.right,
    fun a x ha hx => ⟨fun hw => ?_, fun hw => ?_⟩⟩
  · obtain ⟨hold, hnone, hgone⟩ := hroots hx
    refine ⟨(hr.live x).mpr (Or.inr ⟨hold, hnone, hgone⟩), ?_⟩
    rw [hr.parent? hwf hold hnone hgone, h.parent?_root hx, Option.map_none]
  · rcases (hr.live x).mp hlive with ⟨r, hv⟩ | ⟨hold, hnone, hgone⟩
    · cases hup.symm.trans (hr.parent?_utility hv)
    · rw [hr.parent? hwf hold hnone hgone, Option.map_eq_none_iff] at hup
      exact (h.rooted x).mpr ⟨hold, hup⟩
  · rcases hr.made_or_left hn with hn | ⟨hnew, params, rfl⟩
    · exact h.form x n hn
    · refine iff_of_false Bool.false_ne_true fun hx => ?_
      cases hnew.symm.trans (h.live hx)
  · obtain ⟨hold, hnone, hgone⟩ := hr.left_of_isFixed (by rw [hn, Option.any_some, hfixed])
    rw [hr.data x hold hnone hgone, hn]
  · exact hr.within_before hwf (hr.left_of_isFixed ha).1 hw (Or.inl ⟨rfl, (hr.left_of_isFixed hx).1⟩)
  · obtain ⟨-, hnone, hgone⟩ := hr.left_of_isFixed hx
    have hafter := hr.within_after hwf ha hw
    rwa [if_neg hgone, hnone] at hafter

end Rewritten

theorem hoistLayers_keeps {context : SheetFacts} (h : Tidy doc roots) :
    Reshaped context.settings.atRule roots doc (hoistLayers context root doc) := by
  obtain ⟨utility, -, hr⟩ := rewritten_hoistLayers h.wellFormed context root
  exact hr.reshaped h

/-! ### Runs of transforms -/

/-- Changes and removes no imports, and adds none but utilities of that name. -/
def KeepsImports (t : Transform) : Prop :=
  ∀ context root doc g roots, Tidy doc roots → root ∈ roots → t.apply context root doc = .ok g →
    Reshaped context.settings.atRule roots doc g

theorem keepsImports_of_standard : ∀ t ∈ standard, t.KeepsImports := by
  intro t ht context root doc g roots h hroot hg
  cases List.mem_singleton.mp ht
  cases hg
  exact hoistLayers_keeps h

theorem runAll_keeps {ts : List Transform} (hts : ∀ t ∈ ts, t.KeepsImports) (context : SheetFacts)
    (h : Tidy doc roots) (hroot : root ∈ roots) :
    Reshaped context.settings.atRule roots doc (runAll ts context root doc).1 := by
  induction ts generalizing doc with
  | nil => exact reshaped_refl h
  | cons t ts ih =>
    unfold runAll
    split
    · next next hnext =>
      have hfirst := hts t (List.mem_cons_self ..) context root doc next roots h hroot hnext
      exact hfirst.trans (ih (fun t ht => hts t (List.mem_cons_of_mem _ ht)) hfirst.tidy)
    · exact reshaped_refl h

end Transform

namespace Workspace

open Forest Document

variable {w z : Workspace} {settings : Settings} {ts : List Transform} {g : Document}

theorem sheets_transformAll (ids : List SheetId) (w : Workspace) :
    (w.transformAll settings ts ids).1.sheets = w.sheets := by
  induction ids generalizing w with
  | nil => rfl
  | cons id ids ih =>
    have hone : (w.runTransforms settings ts id).1.sheets = w.sheets := by
      unfold runTransforms
      split <;> rfl
    unfold transformAll
    rcases hres : w.runTransforms settings ts id with ⟨next, _ | e⟩
    · rw [hres] at hone
      exact (ih next).trans hone
    · rw [hres] at hone
      exact hone

theorem transformAll_keeps (hts : ∀ t ∈ ts, t.KeepsImports) (ids : List SheetId) (h : w.Tidy) :
    Reshaped settings.atRule w.roots w.doc (w.transformAll settings ts ids).1.doc := by
  induction ids generalizing w with
  | nil => exact reshaped_refl h
  | cons id ids ih =>
    unfold transformAll
    have hone : Reshaped settings.atRule w.roots w.doc (w.runTransforms settings ts id).1.doc ∧
        (w.runTransforms settings ts id).1.roots = w.roots := by
      unfold runTransforms
      split
      · exact ⟨reshaped_refl h, rfl⟩
      · next s hs =>
        exact ⟨Transform.runAll_keeps hts ⟨s.file, s.layers, settings⟩ h (root_mem_roots hs), rfl⟩
    rcases hres : w.runTransforms settings ts id with ⟨next, _ | e⟩
    · rw [hres] at hone
      obtain ⟨hreshaped, hroots⟩ := hone
      have hnext : next.Tidy := by
        rw [Tidy, hroots]
        exact hreshaped.tidy
      exact hreshaped.trans (hroots ▸ ih hnext)
    · rw [hres] at hone
      exact hone.1

/-! ### What is ready for a split stays so -/

section reshaped

variable {atRule : String} (h : w.Tidy) (hg : Reshaped atRule w.roots w.doc g) {x : NodeId}
include h hg

/-- Imports stay in their stylesheets. -/
theorem sheetOf?_reshaped (hx : (w.doc.get? x).any Node.isImportRule = true) :
    { w with doc := g }.sheetOf? x = w.sheetOf? x := by
  obtain ⟨n, hn, himport⟩ := (Option.any_eq_true _ _).mp hx
  obtain ⟨id, s, hid, hs, hw⟩ := h.exists_sheetOf? (contains_iff_get?.mpr ⟨n, hn⟩)
  have htidy : Workspace.Tidy { w with doc := g } := hg.tidy
  have hlive : g.contains x = true :=
    contains_iff_get?.mpr ⟨n, hg.kept x n (Node.isFixed_of_isImportRule himport) hn⟩
  obtain ⟨r, hr⟩ := contains_iff_get?.mp (h.live hs)
  have hroot : (w.doc.get? s.root).any Node.isFixed = true := by
    rw [hr, Option.any_some]
    exact Node.isFixed_of_isRoot ((Document.Tidy.form h s.root r hr).mpr (root_mem_roots hs))
  rw [hid, htidy.sheetOf?_eq_some]
  have hfixed : (w.doc.get? x).any Node.isFixed = true := by
    rw [hn, Option.any_some, Node.isFixed_of_isImportRule himport]
  exact ⟨hlive, s, hs, (hg.above s.root x hroot hfixed).mpr hw⟩

omit h in
theorem importAt_reshaped (hat : Text.sameCaseless atRule "import" = false)
    (hx : w.doc.ImportAt x) : g.ImportAt x := by
  obtain ⟨n, params, specifier, hn, himport, hparams, hspecifier⟩ := hx.readable
  refine ⟨⟨n, params, specifier, hg.kept x n (Node.isFixed_of_isImportRule himport) hn, himport,
    hparams, hspecifier⟩, fun a ha => ?_⟩
  by_contra hi
  rw [Bool.not_eq_false] at hi
  obtain ⟨m, hm, hmimport⟩ := (Option.any_eq_true _ _).mp hi
  have hfixed := Node.isFixed_of_isImportRule hmimport
  have hbefore := (hg.fixed hat a m hfixed).mp hm
  obtain ⟨hwithin, hne⟩ := hg.tidy.wellFormed.below_iff.mp ha
  have hwithin := (hg.above a x (by rw [hbefore, Option.any_some, hfixed])
    (by rw [hn, Option.any_some, Node.isFixed_of_isImportRule himport])).mp hwithin
  have hno := hx.outermost a ((within_iff.mp hwithin).resolve_left fun heq => hne heq)
  rw [hbefore, Option.any_some, hmimport] at hno
  cases hno

end reshaped

/-- **Transforms that keep imports leave a workspace ready for a split.** -/
theorem Analysed.reshaped {atRule : String} (hat : Text.sameCaseless atRule "import" = false)
    (h : w.Analysed) (hg : Reshaped atRule w.roots w.doc g) : Analysed { w with doc := g } := by
  have hrule : ∀ y s rule, w.get? y = some s → rule ∈ s.inbound →
      { w with doc := g }.sheetOf? rule = w.sheetOf? rule := by
    intro y s rule hs hr
    obtain ⟨n, -, -, hn, himport, -⟩ := (h.rule y s rule hs hr).1.readable
    exact sheetOf?_reshaped h.tidy hg (by rw [hn, Option.any_some, himport])
  have himports : ∀ x y, Imports { w with doc := g } x y ↔ w.Imports x y := by
    refine fun x y => exists₂_congr fun s rule => ?_
    refine and_congr_right fun hs => and_congr_right fun hr => ?_
    rw [hrule y s rule hs hr]
  have hcycle : ∀ id, ¬ Relation.TransGen (Imports { w with doc := g }) id id := fun id hc =>
    h.acyclic id (Relation.TransGen.mono (fun x y => (himports x y).mp) _ _ hc)
  exact ⟨hg.tidy, hg.origin h.origin, h.plain,
    fun y s rule hs hr => ⟨importAt_reshaped hg hat (h.rule y s rule hs hr).1, (h.rule y s rule hs hr).2⟩,
    h.target, fun y p => (h.parents y p).trans (himports p y).symm, h.unlayered,
    fun x y s t hs ht hi => h.layered x y s t hs ht ((himports x y).mp hi), hcycle⟩

end Workspace

end Strata
