import Strata.Proofs.ImportGraph
import Strata.Proofs.Layers

/-! Workspaces that are ready for a split.

`Analysed` collects what the passes before a split leave: a tidy document, the
imports of each stylesheet, outermost and readable, with the importers that hold
them, layers that go down the imports, and no cycle among these. -/
namespace Strata

/-- An import that a stylesheet can be reached by: it has a specifier, and it is not within another
import. -/
structure Document.ImportAt (doc : Document) (rule : NodeId) : Prop where
  readable : ∃ n params specifier, doc.get? rule = some n ∧ n.isImportRule = true ∧
    n.params? = some params ∧ Css.specifier? params = some specifier
  outermost : ∀ a, Forest.Below doc a rule → (doc.get? a).any Node.isImportRule = false

namespace Workspace

open Forest

variable {w v : Workspace} {resolve : Resolution} {base : FilePath}

/-- `x` holds an import of `y` that lives. -/
def Imports (w : Workspace) (x y : SheetId) : Prop :=
  ∃ s rule, w.get? y = some s ∧ rule ∈ s.inbound ∧ w.sheetOf? rule = some x

/-- `y` can be reached from `x` along imports. -/
def Reaches (w : Workspace) (x y : SheetId) : Prop := Relation.ReflTransGen w.Imports x y

structure Analysed (w : Workspace) : Prop where
  tidy : w.Tidy
  origin : ∀ x n, w.doc.get? x = some n → n.origin = none
  plain : ∀ id s, w.get? id = some s → s.discarded = false ∧ s.derived = false
  rule : ∀ y s rule, w.get? y = some s → rule ∈ s.inbound →
    w.doc.ImportAt rule ∧ s.file.isSome = true
  /-- An import leads to one stylesheet. -/
  target : ∀ y y' s s' rule, w.get? y = some s → w.get? y' = some s' → rule ∈ s.inbound →
    rule ∈ s'.inbound → y = y'
  parents : ∀ y parent, w.ParentOf y parent ↔ w.Imports parent y
  unlayered : ∀ y s, w.get? y = some s → s.inbound = [] → s.layers = []
  layered : ∀ x y s t, w.get? x = some s → w.get? y = some t → w.Imports x y →
    ∀ l ∈ s.layers, l ∈ t.layers
  acyclic : ∀ id, ¬ Relation.TransGen w.Imports id id

/-- All that is recorded as an import of a stylesheet is one, and no text has been changed yet. -/
structure Recorded (w : Workspace) : Prop where
  tidy : w.Tidy
  origin : ∀ x n, w.doc.get? x = some n → n.origin = none
  rule : ∀ y s rule, w.get? y = some s → rule ∈ s.inbound → w.doc.ImportAt rule

theorem Analysed.recorded (h : w.Analysed) : w.Recorded :=
  ⟨h.tidy, h.origin, fun y s rule hs hr => (h.rule y s rule hs hr).1⟩

instance : Coe w.Analysed w.Recorded := ⟨Analysed.recorded⟩

/-! ### Edges -/

theorem isAt_of_isRoot {n : Node} (h : n.isRoot = true) (name : String) : n.isAt name = false := by
  unfold Node.isRoot at h
  rw [beq_iff_eq] at h
  simp [Node.isAt, h]

theorem isImportRule_of_isRoot {n : Node} (h : n.isRoot = true) : n.isImportRule = false :=
  isAt_of_isRoot h "import"

/-- Where utilities are not imports, none is one. -/
theorem isImportRule_of_isAt {atRule : String} (hat : Text.sameCaseless atRule "import" = false)
    {n : Node} (hn : n.isAt atRule = true) : n.isImportRule = false := by
  unfold Node.isImportRule Node.isAt Text.sameCaseless at *
  split at hn
  · rw [beq_iff_eq.mp hn]
    exact hat
  · cases hn

/-- Where utilities are imports, the imports are just these. -/
theorem isAt_eq_isImportRule {atRule : String} (hat : Text.sameCaseless atRule "import" = true)
    (n : Node) : n.isAt atRule = n.isImportRule := by
  unfold Node.isImportRule Node.isAt Text.sameCaseless at *
  split
  · rw [beq_iff_eq.mp hat]
  · rfl

section edge

variable {x y : SheetId} {rule : NodeId} {layers : List String}
  (h : w.Tidy) (he : w.Edge resolve base x y rule layers)
include h he

theorem Edge.sheetOf? : w.sheetOf? rule = some x := by
  obtain ⟨s, hs, hr, -⟩ := he
  have hb := (h.wellFormed.mem_outermost.mp hr).1
  obtain ⟨p, hp, -⟩ := id hb
  exact h.sheetOf?_eq_some.mpr ⟨contains_of_parent? hp, s, hs, hb.within⟩

theorem Edge.importAt : w.doc.ImportAt rule := by
  obtain ⟨s, hs, hr, hd⟩ := he
  obtain ⟨hb, himport, hno⟩ := h.wellFormed.mem_outermost.mp hr
  obtain ⟨n, hn, himport⟩ := (Option.any_eq_true _ _).mp himport
  refine ⟨?_, fun a ha => ?_⟩
  · unfold destination at hd
    rw [hn] at hd
    cases hp : n.params? with
    | none => simp [hp] at hd
    | some params =>
      cases hsp : Css.specifier? params with
      | none => simp [hp, hsp] at hd
      | some specifier => exact ⟨n, params, specifier, hn, himport, hp, hsp⟩
  · have hroot := Within.of_top hb.within (h.parent?_root hs) ha.within
    rcases within_iff.mp hroot with rfl | hra
    · obtain ⟨m, hm⟩ := contains_iff_get?.mp (h.live hs)
      rw [hm]
      exact isImportRule_of_isRoot ((Document.Tidy.form h s.root m hm).mpr (root_mem_roots hs))
    · exact hno a hra ha

omit h in
theorem Edge.target : ∃ t, w.get? y = some t ∧ t.file.isSome = true := by
  obtain ⟨s, hs, hr, hd⟩ := he
  unfold destination at hd
  split at hd
  · cases hd
  · split at hd
    · cases hd
    · split at hd
      · cases hd
      · split at hd
        · cases hd
        · next target hholder =>
          cases hd
          obtain ⟨t, ht, hfile⟩ := normalize_of_holderOf? hholder
          exact ⟨t, ht, by rw [hfile]; rfl⟩

/-- An import leads to one stylesheet. -/
theorem Edge.unique {x' y' : SheetId} {layers' : List String}
    (he' : w.Edge resolve base x' y' rule layers') : x = x' ∧ y = y' := by
  have hx : x = x' := Option.some.inj ((he.sheetOf? h).symm.trans (he'.sheetOf? h))
  subst hx
  obtain ⟨s, hs, -, hd⟩ := he
  obtain ⟨s', hs', -, hd'⟩ := he'
  rw [hs] at hs'
  cases hs'
  rw [hd] at hd'
  cases hd'
  exact ⟨rfl, rfl⟩

end edge

/-! ### From a filled workspace -/

section analysed

variable {u : Workspace} {table : List (List SheetId)}

theorem closed_linked (hu : Linked w u (w.Edge resolve base)) : u.Closed := by
  rintro y x ⟨t, ht, hx⟩
  obtain ⟨rule, layers, s, hs, -⟩ := (hu.parents y t ht x).mp hx
  exact hu.same.size ▸ lt_size hs

theorem mem_inbound_inherited (hu : Linked w u (w.Edge resolve base))
    (hl : u.inheritLayers = .ok (table, v)) {y : SheetId} {t : Sheet} (ht : v.get? y = some t)
    (rule : NodeId) : rule ∈ t.inbound ↔ ∃ x layers, w.Edge resolve base x y rule layers := by
  rw [get?_inheritLayers hl] at ht
  obtain ⟨s, hs, rfl⟩ := Option.map_eq_some_iff.mp ht
  exact hu.inbound y s hs rule

theorem parentOf_iff_edge (hu : Linked w u (w.Edge resolve base)) (x y : SheetId) :
    u.ParentOf y x ↔ ∃ rule layers, w.Edge resolve base x y rule layers := by
  constructor
  · intro hex
    obtain ⟨t, ht, hx⟩ := hex
    exact (hu.parents y t ht x).mp hx
  · intro hex
    obtain ⟨rule, layers, he⟩ := hex
    obtain ⟨s, hs, -⟩ := he.target
    obtain ⟨t, ht, -⟩ := hu.same.get?_of_left hs
    exact ⟨t, ht, (hu.parents y t ht x).mpr ⟨rule, layers, he⟩⟩

variable (h : w.Fresh) (hu : Linked w u (w.Edge resolve base))
  (hl : u.inheritLayers = .ok (table, v))
include h hu hl

theorem imports_iff_edge (x y : SheetId) :
    v.Imports x y ↔ ∃ rule layers, w.Edge resolve base x y rule layers := by
  have hsame := hu.same.trans (sameButLinks_inheritLayers hl)
  constructor
  · intro hex
    obtain ⟨t, rule, ht, hr, hx⟩ := hex
    obtain ⟨x', layers, he⟩ := (mem_inbound_inherited hu hl ht rule).mp hr
    rw [hsame.sheetOf?, he.sheetOf? h.tidy] at hx
    cases hx
    exact ⟨rule, layers, he⟩
  · intro hex
    obtain ⟨rule, layers, he⟩ := hex
    obtain ⟨s, hs, -⟩ := he.target
    obtain ⟨t, ht, -⟩ := hsame.get?_of_left hs
    refine ⟨t, rule, ht, (mem_inbound_inherited hu hl ht rule).mpr ⟨x, layers, he⟩, ?_⟩
    rw [hsame.sheetOf?, he.sheetOf? h.tidy]

theorem analysed_of_linked : v.Analysed := by
  have hinherit := sameButLinks_inheritLayers hl
  have hsame := hu.same.trans hinherit
  have hparent : ∀ x y, u.ParentOf y x ↔ v.Imports x y := fun x y =>
    (parentOf_iff_edge hu x y).trans (imports_iff_edge h hu hl x y).symm
  have hnamed : ∀ y s, u.get? y = some s → s.inbound = [] → ∀ l, l ∉ s.namedLayers := by
    intro y s hs hnone l hl
    obtain ⟨x, rule, layers, he, -⟩ := (hu.named y s hs l).mp hl
    have hr := (hu.inbound y s hs rule).mpr ⟨x, layers, he⟩
    rw [hnone] at hr
    cases hr
  refine ⟨hsame.tidy h.tidy, fun x n hx => ?_, fun id t ht => ?_, fun y t rule ht hr => ?_,
    fun y y' t t' rule ht ht' hr hr' => ?_, fun y x => ?_, fun y t ht hnone => ?_,
    fun x y s t hs ht hxy l hmem => ?_, fun id hcycle => ?_⟩
  · rw [hsame.doc] at hx
    exact h.origin hx
  · obtain ⟨s, hs, hst⟩ := hsame.sheet id t ht
    rw [hst.discarded, hst.derived]
    exact ⟨(h.sheet id s hs).discarded, (h.sheet id s hs).derived⟩
  · obtain ⟨x, layers, he⟩ := (mem_inbound_inherited hu hl ht rule).mp hr
    obtain ⟨s, hs, hfile⟩ := he.target
    obtain ⟨t', ht', hst⟩ := hsame.get?_of_left hs
    rw [ht] at ht'
    cases ht'
    rw [hsame.doc, hst.file]
    exact ⟨he.importAt h.tidy, hfile⟩
  · obtain ⟨x, layers, he⟩ := (mem_inbound_inherited hu hl ht rule).mp hr
    obtain ⟨x', layers', he'⟩ := (mem_inbound_inherited hu hl ht' rule).mp hr'
    exact (Edge.unique h.tidy he he').2
  · rw [parentOf_inheritLayers hl]
    exact hparent x y
  · obtain ⟨s, hs, hst⟩ := hinherit.sheet y t ht
    have hinbound : s.inbound = [] := by
      rw [get?_inheritLayers hl, hs] at ht
      cases ht
      exact hnone
    refine List.eq_nil_iff_forall_not_mem.mpr fun l hmem => ?_
    rcases (mem_layers_inheritLayers hl hs ht l).mp hmem with hmem | ⟨top, a, habove, -, -⟩
    · exact hnamed y s hs hinbound l ((hu.layers y s hs l).mp hmem)
    · obtain ⟨p, hp, -⟩ := Relation.TransGen.head'_iff.mp habove
      obtain ⟨rule, layers, he⟩ := (parentOf_iff_edge hu p y).mp hp
      have hr := (hu.inbound y s hs rule).mpr ⟨p, layers, he⟩
      rw [hinbound] at hr
      cases hr
  · obtain ⟨s', hs', -⟩ := hinherit.sheet x s hs
    obtain ⟨t', ht', -⟩ := hinherit.sheet y t ht
    have hup := (hparent x y).mpr hxy
    rw [mem_layers_inheritLayers hl ht' ht]
    rcases (mem_layers_inheritLayers hl hs' hs l).mp hmem with hmem | ⟨top, a, habove, ha, hmem⟩
    · exact Or.inr ⟨x, s', .single hup, hs', (hu.layers x s' hs' l).mp hmem⟩
    · exact Or.inr ⟨top, a, .head hup habove, ha, hmem⟩
  · refine acyclic_of_inheritLayers hl (closed_linked hu) id ?_
    have hswap : Relation.TransGen (Function.swap u.ParentOf) id id :=
      Relation.TransGen.mono (fun x y hxy => (hparent x y).mpr hxy) _ _ hcycle
    exact Relation.transGen_swap.mp hswap

end analysed

/-- **A filled workspace whose imports are followed and whose layers are inherited is ready for a
split.** -/
theorem analysed {table : List (List SheetId)} (h : w.Fresh)
    (hl : (w.connect resolve base).1.inheritLayers = .ok (table, v)) : v.Analysed :=
  analysed_of_linked h (linked_connect h resolve base) hl

end Workspace

end Strata
