import Strata.Proofs.Split.Moves

/-! Companions of imports.

A companion is a new import in a place that no import is above. It goes into a
tree that is known beforehand (`companionHome`): that of the stylesheet derived
from the importer, or else that of the importer. `Accompanied` says what adding
companions has changed, and that every import that was looked at has one, and
`Worded` what the new imports say: each reads as one made for an import of a donor
(`Commission`), also where it was there before and serves another import too. -/
namespace Strata

/-- The stylesheet whose tree gets the companion of an import that stands in `importer`. -/
def Derivations.hostOf (d : Derivations) (importer derived : SheetId) : SheetId :=
  ((d.of? importer).filter (· != derived)).getD importer

namespace Document

open Forest

variable {doc : Document}

/-- A node that no import is above and that is none. -/
def OutsideImports (doc : Document) (x : NodeId) : Prop :=
  ∀ a, Within doc a x → (doc.get? a).any Node.isImportRule = false

/-- An import that is added below a node, or was added there before with the same parameters. -/
inductive Placed (doc : Document) (container : NodeId) (node : Node) : NodeId × Document → Prop where
  | present {c n} : c ∈ doc.children container → doc.get? c = some n → n.isAdded = true →
      n.isImportRule = true → n.params? = node.params? → Placed doc container node (c, doc)
  | inserted (index : Nat) : (∀ c ∈ doc.children container, ∀ n, doc.get? c = some n →
      n.isAdded = true → n.isImportRule = true → n.params? ≠ node.params?) →
      Placed doc container node (doc.insertChild container index node)

section placed

variable {node : Node} {params : String} (hparams : node.params? = some params)
include hparams

theorem placed_of_addedImport? {container c : NodeId}
    (h : Workspace.addedImport? doc container params = some c) :
    Placed doc container node (c, doc) := by
  have hfound := List.find?_some h
  obtain ⟨n, hn, hadded⟩ := (Option.any_eq_true _ _).mp hfound
  rw [Bool.and_eq_true, Bool.and_eq_true, beq_iff_eq] at hadded
  exact .present (List.mem_of_find?_eq_some h) hn hadded.1.1 hadded.1.2
    (hadded.2.trans hparams.symm)

theorem not_added_of_addedImport? {container : NodeId}
    (h : Workspace.addedImport? doc container params = none) : ∀ c ∈ doc.children container, ∀ n,
    doc.get? c = some n → n.isAdded = true → n.isImportRule = true → n.params? ≠ node.params? := by
  intro c hc n hn hadded himport heq
  have hno := List.find?_eq_none.mp h c hc
  have hn : Forest.get? doc c = some n := hn
  simp [hn, hadded, himport, heq, hparams] at hno

theorem placed_importInHost (doc : Document) (root : NodeId) :
    Placed doc root node (Workspace.importInHost doc root node params) := by
  unfold Workspace.importInHost
  split
  · next h => exact placed_of_addedImport? hparams h
  · next h => exact .inserted _ (not_added_of_addedImport? hparams h)

theorem placed_importBeside (h : doc.WellFormed) {rule container : NodeId}
    (hp : doc.parent? rule = some container) :
    ∃ placed, Workspace.importBeside? doc rule node params = some placed ∧
      Placed doc container node placed := by
  unfold Workspace.importBeside?
  rw [hp]
  simp only [Option.bind_eq_bind, Option.bind_some]
  split
  · next hfound => exact ⟨_, rfl, placed_of_addedImport? hparams hfound⟩
  · next hnone =>
    have hmem := (h.listed rule container).mpr hp
    obtain ⟨index, hindex⟩ := Option.isSome_iff_exists.mp (List.isSome_idxOf?.mpr hmem)
    refine ⟨doc.insertChild container (index + 1) node, ?_,
      .inserted _ (not_added_of_addedImport? hparams hnone)⟩
    simp [addAfter?, index?, hp, hindex]

end placed

/-- A node that is an import that a migration added. -/
def IsCompanion (doc : Document) (x : NodeId) : Prop :=
  ∃ n, doc.get? x = some n ∧ n.isImportRule = true ∧ n.isAdded = true

namespace Placed

variable {container : NodeId} {node : Node} {placed : NodeId × Document}
  (hp : Placed doc container node placed) (hwf : doc.WellFormed)
  (hlive : doc.contains container = true)
include hp hwf

theorem grown (hlive : doc.contains container = true) : Extends doc placed.2 := by
  cases hp with
  | present => exact Extends.refl doc
  | inserted index => exact extends_insertChild hwf hlive index node

theorem fresh {x : NodeId} (hx : placed.2.contains x = true) (hn : doc.contains x = false) :
    x = placed.1 := by
  cases hp with
  | present =>
    rw [hn] at hx
    cases hx
  | inserted index =>
    rw [contains_insertChild hwf, hn] at hx
    simpa [insertChild_fst] using hx

include hlive

theorem parent : placed.2.parent? placed.1 = some container := by
  cases hp with
  | present hc => exact (hwf.listed _ _).mp hc
  | inserted index => rw [parent?_insertChild hwf hlive, insertChild_fst, if_pos rfl]

theorem isCompanion (hi : node.isImportRule = true) (ha : node.isAdded = true) :
    IsCompanion placed.2 placed.1 := by
  cases hp with
  | present hc hn hadded himport => exact ⟨_, hn, himport, hadded⟩
  | inserted index =>
    refine ⟨node, ?_, hi, ha⟩
    rw [get?_insertChild hwf hlive, insertChild_fst, if_pos rfl]

/-- The import has the parameters it is to have. -/
theorem get?_params : ∃ n, placed.2.get? placed.1 = some n ∧ n.params? = node.params? := by
  cases hp with
  | present hc hn hadded himport hparams => exact ⟨_, hn, hparams⟩
  | inserted index =>
    exact ⟨node, by rw [get?_insertChild hwf hlive, insertChild_fst, if_pos rfl], rfl⟩

/-- An import that was not there before is the one that is added. -/
theorem get?_of_new (hnew : doc.contains placed.1 = false) :
    placed.2.get? placed.1 = some node := by
  cases hp with
  | present hc hn =>
    rw [contains_iff_get?.mpr ⟨_, hn⟩] at hnew
    cases hnew
  | inserted index => rw [get?_insertChild hwf hlive, insertChild_fst, if_pos rfl]

omit hwf hlive in
/-- Nothing is placed elsewhere. -/
theorem children_of_ne (hwf : doc.WellFormed) (hlive : doc.contains container = true) {x : NodeId}
    (hx : x ≠ container) : placed.2.children x = doc.children x := by
  cases hp with
  | present => rfl
  | inserted index => rw [children_insertChild hwf hlive, if_neg hx]

omit hwf in
theorem tidy {roots : List NodeId} (ht : Tidy doc roots) (hroot : node.isRoot = false) :
    Tidy placed.2 roots := by
  cases hp with
  | present => exact ht
  | inserted index =>
    refine ht.planted (planted_insertChild ht.wellFormed hlive index node) fun n hn => ?_
    rw [List.mem_singleton.mp hn, hroot]

end Placed

end Document

namespace Workspace

open Forest

variable {v u : Workspace} {d : Derivations} {done : SheetId → NodeId → Prop}

/-- The stylesheet whose tree gets the companion of an import. -/
def companionHome (v : Workspace) (d : Derivations) (derived : SheetId) (rule : NodeId) :
    Option SheetId :=
  (v.sheetOf? rule).map (d.hostOf · derived)

/-- A placed companion is kept at a derived stylesheet. -/
def keepCompanion (u : Workspace) (derived home : SheetId) (placed : NodeId × Document) : Workspace :=
  { u with doc := placed.2 }.modify derived fun s => (s.addInbound placed.1).addParent home

section keepCompanion

variable {derived home : SheetId} {placed : NodeId × Document}

theorem roots_keepCompanion : (u.keepCompanion derived home placed).roots = u.roots :=
  roots_modify derived fun _ => rfl

theorem size_keepCompanion : (u.keepCompanion derived home placed).sheets.size = u.sheets.size :=
  size_modify derived _

theorem get?_keepCompanion (id : SheetId) : (u.keepCompanion derived home placed).get? id =
    if id = derived then (u.get? id).map fun s => (s.addInbound placed.1).addParent home
    else u.get? id :=
  get?_modify derived _ id

/-- What a stylesheet looks like once a companion is kept. -/
theorem get?_keepCompanion_cases {id : SheetId} {t : Sheet}
    (ht : (u.keepCompanion derived home placed).get? id = some t) :
    u.get? id = some t ∨ id = derived ∧ ∃ s, u.get? id = some s ∧
      t = (s.addInbound placed.1).addParent home := by
  rw [get?_keepCompanion] at ht
  split at ht
  · next heq =>
    obtain ⟨s, hs, rfl⟩ := Option.map_eq_some_iff.mp ht
    exact Or.inr ⟨heq, s, hs, rfl⟩
  · exact Or.inl ht

/-- A stylesheet keeps the imports and parents it had. -/
theorem exists_keepCompanion (derived home : SheetId) (placed : NodeId × Document) {id : SheetId}
    {t : Sheet} (ht : u.get? id = some t) :
    ∃ t', (u.keepCompanion derived home placed).get? id = some t' ∧
      (∀ c ∈ t.inbound, c ∈ t'.inbound) ∧ ∀ p ∈ t.parents, p ∈ t'.parents := by
  rw [get?_keepCompanion, ht]
  split
  · exact ⟨_, rfl, fun c hc => (Ordered.mem_insert ..).mpr (Or.inr hc),
      fun p hp => (Ordered.mem_insert ..).mpr (Or.inr hp)⟩
  · exact ⟨t, rfl, fun _ hc => hc, fun _ hp => hp⟩

end keepCompanion

structure Accompanied (v : Workspace) (d : Derivations) (done : SheetId → NodeId → Prop)
    (u : Workspace) : Prop where
  tidy : u.Tidy
  grown : Extends v.doc u.doc
  added : ∀ x, u.doc.contains x = true → v.doc.contains x = false →
    u.doc.IsCompanion x ∧
    ∃ p, u.doc.parent? x = some p ∧ v.doc.contains p = true ∧ v.doc.OutsideImports p
  size : u.sheets.size = v.sheets.size
  sheet : ∀ id t, u.get? id = some t → ∃ s, v.get? id = some s ∧ s.SameButLinks t
  kept : ∀ id, (∀ rule, ¬ done id rule) → u.get? id = v.get? id
  inbound : ∀ id s t c, v.get? id = some s → u.get? id = some t → c ∈ t.inbound →
    c ∈ s.inbound ∨ v.doc.contains c = false ∧
      ∃ rule home, done id rule ∧ v.companionHome d id rule = some home ∧ u.sheetOf? c = some home
  parents : ∀ id s t p, v.get? id = some s → u.get? id = some t → p ∈ t.parents →
    p ∈ s.parents ∨ ∃ rule, done id rule ∧ v.companionHome d id rule = some p
  companion : ∀ id rule, done id rule → ∃ t c home, u.get? id = some t ∧ c ∈ t.inbound ∧
    v.companionHome d id rule = some home ∧ u.sheetOf? c = some home ∧ home ∈ t.parents

theorem accompanied_refl (h : v.Tidy) : Accompanied v d (fun _ _ => False) v where
  tidy := h
  grown := Extends.refl v.doc
  added x hx hn := by
    rw [hx] at hn
    cases hn
  size := rfl
  sheet _ t ht := ⟨t, ht, Sheet.SameButLinks.refl t⟩
  kept _ _ := rfl
  inbound id s t c hs ht hc := by
    rw [hs] at ht
    cases ht
    exact Or.inl hc
  parents id s t p hs ht hp := by
    rw [hs] at ht
    cases ht
    exact Or.inl hp
  companion _ _ h := h.elim

namespace Accompanied

variable (h : Accompanied v d done u)
include h

theorem roots : u.roots = v.roots := by
  refine roots_congr h.size fun id t ht => ?_
  obtain ⟨s, hs, hst⟩ := h.sheet id t ht
  exact ⟨s, hs, hst.root⟩

theorem get?_of_left {id : SheetId} {s : Sheet} (hs : v.get? id = some s) :
    ∃ t, u.get? id = some t ∧ s.SameButLinks t := by
  obtain ⟨t, ht⟩ := get?_isSome.mpr (h.size.symm ▸ lt_size hs)
  obtain ⟨s', hs', hst⟩ := h.sheet id t ht
  rw [hs] at hs'
  cases hs'
  exact ⟨t, ht, hst⟩

/-- The nodes there were stay in their stylesheets. -/
theorem sheetOf?_base (hv : v.Tidy) {x : NodeId} (hx : v.doc.contains x = true) :
    u.sheetOf? x = v.sheetOf? x :=
  sheetOf?_of_extends hv h.tidy h.roots h.grown hx

end Accompanied

/-! ### A companion is placed -/

/-- A new import is a companion of `rule` in its place, and is not one of the nodes there were. -/
structure Placing (v u : Workspace) (d : Derivations) (derived home : SheetId)
    (container rule : NodeId) (placed : NodeId × Document) : Prop where
  stands : v.sheetOf? container = some home
  clear : v.doc.OutsideImports container
  serves : v.companionHome d derived rule = some home
  valid : derived < v.sheets.size
  grown : Extends u.doc placed.2
  tidy : (u.keepCompanion derived home placed).Tidy
  parent : placed.2.parent? placed.1 = some container
  companion : placed.2.IsCompanion placed.1
  new : v.doc.contains placed.1 = false
  only : ∀ x, placed.2.contains x = true → u.doc.contains x = false → x = placed.1

namespace Placing

variable {derived home : SheetId} {container rule : NodeId} {placed : NodeId × Document}
  (hq : Placing v u d derived home container rule placed) (h : Accompanied v d done u)
include hq h

theorem sheetOf?_kept {x : NodeId} (hx : u.doc.contains x = true) :
    (u.keepCompanion derived home placed).sheetOf? x = u.sheetOf? x :=
  sheetOf?_of_extends h.tidy hq.tidy roots_keepCompanion hq.grown hx

theorem sheetOf?_placed (hv : v.Tidy) :
    (u.keepCompanion derived home placed).sheetOf? placed.1 = some home := by
  obtain ⟨hcontainer, -⟩ := hv.sheetOf?_eq_some.mp hq.stands
  rw [← hq.tidy.sheetOf?_within (contains_of_parent? hq.parent) (Within.of_parent hq.parent),
    hq.sheetOf?_kept h (h.grown.live container hcontainer), h.sheetOf?_base hv hcontainer, hq.stands]

theorem added (hv : v.Tidy) (x : NodeId) (hx : placed.2.contains x = true)
    (hn : v.doc.contains x = false) : placed.2.IsCompanion x ∧
      ∃ p, placed.2.parent? x = some p ∧ v.doc.contains p = true ∧ v.doc.OutsideImports p := by
  cases hu : u.doc.contains x with
  | true =>
    obtain ⟨⟨n, hdata, himport, hadded⟩, p, hp, hclear⟩ := h.added x hu hn
    exact ⟨⟨n, (hq.grown.data x hu).trans hdata, himport, hadded⟩, p,
      (hq.grown.parent x hu).trans hp, hclear⟩
  | false =>
    rw [hq.only x hx hu]
    exact ⟨hq.companion, container, hq.parent, (hv.sheetOf?_eq_some.mp hq.stands).1, hq.clear⟩

omit hq in
theorem sheet (id : SheetId) (t : Sheet)
    (ht : (u.keepCompanion derived home placed).get? id = some t) :
    ∃ s, v.get? id = some s ∧ s.SameButLinks t := by
  rcases get?_keepCompanion_cases ht with ht | ⟨-, t', ht', rfl⟩
  · exact h.sheet id t ht
  · obtain ⟨s, hs, hst⟩ := h.sheet id t' ht'
    exact ⟨s, hs, hst.trans
      ((Sheet.SameButLinks.addInbound _ _).trans (Sheet.SameButLinks.addParent _ _))⟩

theorem inbound (hv : v.Tidy) (id : SheetId) (s t : Sheet) (c : NodeId) (hs : v.get? id = some s)
    (ht : (u.keepCompanion derived home placed).get? id = some t) (hc : c ∈ t.inbound) :
    c ∈ s.inbound ∨ v.doc.contains c = false ∧
      ∃ r home', (done id r ∨ (id = derived ∧ r = rule)) ∧ v.companionHome d id r = some home' ∧
        (u.keepCompanion derived home placed).sheetOf? c = some home' := by
  have hbefore : ∀ t', u.get? id = some t' → c ∈ t'.inbound → c ∈ s.inbound ∨
      v.doc.contains c = false ∧ ∃ r home', (done id r ∨ (id = derived ∧ r = rule)) ∧
        v.companionHome d id r = some home' ∧
        (u.keepCompanion derived home placed).sheetOf? c = some home' := by
    intro t' ht' hc
    rcases h.inbound id s t' c hs ht' hc with hc | ⟨hnew, r, home', hd, hr, hc⟩
    · exact Or.inl hc
    · refine Or.inr ⟨hnew, r, home', Or.inl hd, hr, ?_⟩
      rw [hq.sheetOf?_kept h (h.tidy.sheetOf?_eq_some.mp hc).1, hc]
  rcases get?_keepCompanion_cases ht with ht | ⟨rfl, t', ht', rfl⟩
  · exact hbefore t ht hc
  · have hc : c ∈ Ordered.insert NodeId.before placed.1 t'.inbound := hc
    rw [Ordered.mem_insert] at hc
    rcases hc with rfl | hc
    · exact Or.inr ⟨hq.new, rule, home, Or.inr ⟨rfl, rfl⟩, hq.serves, hq.sheetOf?_placed h hv⟩
    · exact hbefore t' ht' hc

theorem parents (id : SheetId) (s t : Sheet) (p : SheetId) (hs : v.get? id = some s)
    (ht : (u.keepCompanion derived home placed).get? id = some t) (hm : p ∈ t.parents) :
    p ∈ s.parents ∨
      ∃ r, (done id r ∨ (id = derived ∧ r = rule)) ∧ v.companionHome d id r = some p := by
  have hbefore : ∀ t', u.get? id = some t' → p ∈ t'.parents → p ∈ s.parents ∨
      ∃ r, (done id r ∨ (id = derived ∧ r = rule)) ∧ v.companionHome d id r = some p := by
    intro t' ht' hm
    rcases h.parents id s t' p hs ht' hm with hm | ⟨r, hd, hr⟩
    · exact Or.inl hm
    · exact Or.inr ⟨r, Or.inl hd, hr⟩
  rcases get?_keepCompanion_cases ht with ht | ⟨rfl, t', ht', rfl⟩
  · exact hbefore t ht hm
  · have hm : p ∈ Ordered.insert (· < ·) home t'.parents := hm
    rw [Ordered.mem_insert] at hm
    rcases hm with rfl | hm
    · exact Or.inr ⟨rule, Or.inr ⟨rfl, rfl⟩, hq.serves⟩
    · exact hbefore t' ht' hm

/-- The companions there were are kept. -/
theorem companion_kept (id : SheetId) (r : NodeId) (hd : done id r) :
    ∃ t c home', (u.keepCompanion derived home placed).get? id = some t ∧ c ∈ t.inbound ∧
      v.companionHome d id r = some home' ∧
      (u.keepCompanion derived home placed).sheetOf? c = some home' ∧ home' ∈ t.parents := by
  obtain ⟨t, c, home', ht, hc, hr, ho, hm⟩ := h.companion id r hd
  have ho' : (u.keepCompanion derived home placed).sheetOf? c = some home' := by
    rw [hq.sheetOf?_kept h (h.tidy.sheetOf?_eq_some.mp ho).1, ho]
  obtain ⟨t', ht', hinbound, hparents⟩ := exists_keepCompanion derived home placed ht
  exact ⟨t', c, home', ht', hinbound c hc, hr, ho', hparents home' hm⟩

/-- The new companion is there. -/
theorem companion_placed (hv : v.Tidy) :
    ∃ t c home', (u.keepCompanion derived home placed).get? derived = some t ∧ c ∈ t.inbound ∧
      v.companionHome d derived rule = some home' ∧
      (u.keepCompanion derived home placed).sheetOf? c = some home' ∧ home' ∈ t.parents := by
  obtain ⟨t, ht⟩ := get?_isSome.mpr (h.size.symm ▸ hq.valid)
  refine ⟨(t.addInbound placed.1).addParent home, placed.1, home, ?_, ?_, hq.serves,
    hq.sheetOf?_placed h hv, ?_⟩
  · rw [get?_keepCompanion, if_pos rfl, ht]
    rfl
  · exact (Ordered.mem_insert ..).mpr (Or.inl rfl)
  · exact (Ordered.mem_insert ..).mpr (Or.inl rfl)

end Placing

namespace Accompanied

variable (h : Accompanied v d done u)
include h

/-- A companion is kept at the derived stylesheet. -/
theorem keep (hv : v.Tidy) {derived home : SheetId} {container rule : NodeId}
    {placed : NodeId × Document} (hq : Placing v u d derived home container rule placed) :
    Accompanied v d (fun id r => done id r ∨ (id = derived ∧ r = rule))
      (u.keepCompanion derived home placed) where
  tidy := hq.tidy
  grown := h.grown.trans hq.grown
  added := hq.added h hv
  size := size_keepCompanion.trans h.size
  sheet := Placing.sheet h
  kept id hno := by
    have hne : id ≠ derived := fun heq => hno rule (Or.inr ⟨heq, rfl⟩)
    rw [get?_keepCompanion, if_neg hne]
    exact h.kept id fun r hd => hno r (Or.inl hd)
  inbound := hq.inbound h hv
  parents := hq.parents h
  companion id r hd := by
    rcases hd with hd | ⟨rfl, rfl⟩
    · exact hq.companion_kept h id r hd
    · exact hq.companion_placed h hv

/-- An import that is placed where a companion belongs is one. -/
theorem placing (hv : v.Tidy) (horigin : ∀ x n, v.doc.get? x = some n → n.origin = none)
    {container rule : NodeId} {home derived : SheetId} {node : Node} {placed : NodeId × Document}
    (hhome : v.sheetOf? container = some home) (hclean : v.doc.OutsideImports container)
    (hrule : v.companionHome d derived rule = some home) (hderived : derived < v.sheets.size)
    (hform : node.isRoot = false) (himport : node.isImportRule = true)
    (hadded : node.isAdded = true) (hp : Document.Placed u.doc container node placed) :
    Placing v u d derived home container rule placed := by
  have hlive := h.grown.live container (hv.sheetOf?_eq_some.mp hhome).1
  have hwf := h.tidy.wellFormed
  have hgrown := hp.grown hwf hlive
  have hcompanion := hp.isCompanion hwf hlive himport hadded
  refine ⟨hhome, hclean, hrule, hderived, hgrown, ?_, hp.parent hwf hlive, hcompanion, ?_,
    fun x hx hn => hp.fresh hwf hx hn⟩
  · rw [Tidy, roots_keepCompanion]
    exact hp.tidy hlive h.tidy hform
  · cases hc : v.doc.contains placed.1 with
    | false => rfl
    | true =>
      obtain ⟨n, hn, -, ha⟩ := hcompanion
      rw [(h.grown.trans hgrown).data _ hc] at hn
      rw [Node.isAdded, horigin _ n hn] at ha
      cases ha

end Accompanied

/-! ### One companion -/

/-- Companions can be added: no node was added before, and donors were split into stylesheets. -/
structure Hosting (v : Workspace) (d : Derivations) : Prop where
  tidy : v.Tidy
  origin : ∀ x n, v.doc.get? x = some n → n.origin = none
  host : ∀ donor derived, d.of? donor = some derived → derived < v.sheets.size

theorem outsideImports_root (h : v.Tidy) {id : SheetId} {s : Sheet} (hs : v.get? id = some s) :
    v.doc.OutsideImports s.root := by
  intro a ha
  obtain ⟨n, hn⟩ := contains_iff_get?.mp (h.live hs)
  have haroot : a = s.root := by
    rcases ha.cases_parent with heq | ⟨p, hp, -⟩
    · exact heq.symm
    · rw [h.parent?_root hs] at hp
      cases hp
  rw [haroot, hn]
  exact isImportRule_of_isRoot ((Document.Tidy.form h s.root n hn).mpr (root_mem_roots hs))

theorem isImportRule_addedImport (params : String) (origin : Origin) :
    (Node.addedImport params origin).isImportRule = true := by
  simp [Node.isImportRule, Node.isAt, Node.addedImport, Node.atRule, Text.sameCaseless]

theorem exists_parent_of_import (h : v.Tidy) {rule : NodeId} (hr : v.doc.ImportAt rule) :
    ∃ p, v.doc.parent? rule = some p := by
  obtain ⟨n, -, -, hn, himport, -⟩ := hr.readable
  refine Document.Tidy.exists_parent h (contains_iff_get?.mpr ⟨n, hn⟩) fun hroot => ?_
  rw [isImportRule_of_isRoot ((Document.Tidy.form h rule n hn).mpr hroot)] at himport
  cases himport

/-- The parameters of a companion in `t`, beside an import with the parameters `written`. -/
def companionParams (t : Sheet) (target : FilePath) (written specifier : String) : String :=
  Css.plainImport (FilePath.specifierInImport t.dir? target specifier) (Css.importQuote written)

section addCompanion

variable {donor derived importer : SheetId} {rule : NodeId} {target : FilePath}
  {written specifier : String} {t : Sheet} (hx : u.sheetOf? rule = some importer)
  (hwritten : (u.doc.get? rule).bind Node.params? = some written)
  (hspecifier : Css.specifier? written = some specifier)
include hx hwritten hspecifier

/-- The companion goes to the stylesheet derived from the importer. -/
theorem addCompanion_host {host : SheetId} (hhost : (d.of? importer).filter (· != derived) = some host)
    (ht : u.get? host = some t) :
    addCompanion d donor derived target u rule = u.keepCompanion derived host
      (importInHost u.doc t.root
        (Node.addedImport (companionParams t target written specifier) ⟨donor, specifier⟩)
        (companionParams t target written specifier)) := by
  simp only [addCompanion, hx, hwritten, hspecifier, hhost, ht, Option.bind_eq_bind,
    Option.bind_some, Option.getD_some]
  rfl

/-- The companion goes beside the import. -/
theorem addCompanion_beside {placed : NodeId × Document}
    (hhost : (d.of? importer).filter (· != derived) = none) (ht : u.get? importer = some t)
    (hplaced : importBeside? u.doc rule
      (Node.addedImport (companionParams t target written specifier) ⟨donor, specifier⟩)
      (companionParams t target written specifier) = some placed) :
    addCompanion d donor derived target u rule = u.keepCompanion derived importer placed := by
  rw [companionParams] at hplaced
  simp only [addCompanion, hx, hwritten, hspecifier, hhost, ht, hplaced, Option.bind_eq_bind,
    Option.bind_some, Option.getD_none]
  rfl

end addCompanion

/-- An import of a donor that a companion is to be added for. -/
structure Errand where
  donor : SheetId
  derived : SheetId
  rule : NodeId
deriving DecidableEq, Repr

/-- The companion that an import of a donor is to have, and the stylesheet it goes to. -/
structure Commission (v : Workspace) (d : Derivations) (donor derived : SheetId) (rule : NodeId)
    (home : SheetId) (node : Node) : Prop where
  pair : (donor, derived) ∈ d.pairs
  served : ∃ s, v.get? donor = some s ∧ rule ∈ s.inbound
  serves : v.companionHome d derived rule = some home
  worded : ∃ t r target written specifier, v.get? home = some t ∧ v.get? derived = some r ∧
    r.file = some target ∧ (v.doc.get? rule).bind Node.params? = some written ∧
    Css.specifier? written = some specifier ∧
    node = Node.addedImport (companionParams t target written specifier) ⟨donor, specifier⟩

namespace Commission

variable {donor derived home : SheetId} {rule : NodeId} {node : Node}
  (h : Commission v d donor derived rule home node)
include h

theorem form : node.isRoot = false := by
  obtain ⟨_, _, _, _, _, -, -, -, -, -, rfl⟩ := h.worded
  rfl

theorem isImportRule : node.isImportRule = true := by
  obtain ⟨_, _, _, _, _, -, -, -, -, -, rfl⟩ := h.worded
  exact isImportRule_addedImport _ _

theorem isAdded : node.isAdded = true := by
  obtain ⟨_, _, _, _, _, -, -, -, -, -, rfl⟩ := h.worded
  rfl

end Commission

/-- An import of a donor that is to have a companion. -/
structure Awaits (v : Workspace) (d : Derivations) (donor derived : SheetId) (target : FilePath)
    (rule : NodeId) : Prop where
  pair : (donor, derived) ∈ d.pairs
  served : ∃ s, v.get? donor = some s ∧ rule ∈ s.inbound
  readable : v.doc.ImportAt rule
  target : ∃ r, v.get? derived = some r ∧ r.file = some target

/-- A companion is delivered: in front of the stylesheet derived from the importer, or beside the
import. -/
inductive Delivery (v u : Workspace) (d : Derivations) (e : Errand) (node : Node) (params : String) :
    SheetId → NodeId → NodeId × Document → Prop where
  | front {importer home t} : v.sheetOf? e.rule = some importer → d.of? importer = some home →
      home ≠ e.derived → v.get? home = some t →
      Delivery v u d e node params home t.root (importInHost u.doc t.root node params)
  | beside {home container placed} : v.sheetOf? e.rule = some home →
      (∀ host, d.of? home = some host → host = e.derived) → v.doc.parent? e.rule = some container →
      importBeside? u.doc e.rule node params = some placed →
      Delivery v u d e node params home container placed

namespace Delivery

variable {e : Errand} {node : Node} {params : String} {home : SheetId} {container : NodeId}
  {placed : NodeId × Document} (hd : Delivery v u d e node params home container placed)
include hd

theorem stands (hv : v.Tidy) : v.sheetOf? container = some home := by
  cases hd with
  | front _ _ _ ht => exact hv.sheetOf?_eq_some.mpr ⟨hv.live ht, _, ht, Within.refl _⟩
  | beside hhome _ hparent _ =>
    rw [← hhome]
    exact hv.sheetOf?_within (contains_of_parent? hparent) (Within.of_parent hparent)

theorem clear (hv : v.Tidy) (hrule : v.doc.ImportAt e.rule) : v.doc.OutsideImports container := by
  cases hd with
  | front _ _ _ ht => exact outsideImports_root hv ht
  | beside _ _ hparent _ => exact fun a ha => hrule.outermost a ⟨container, hparent, ha⟩

theorem toPlaced (h : Accompanied v d done u) (hparams : node.params? = some params) :
    Document.Placed u.doc container node placed := by
  cases hd with
  | front => exact Document.placed_importInHost hparams ..
  | beside _ _ hparent hplaced =>
    obtain ⟨placed', hplaced', hp⟩ := Document.placed_importBeside hparams h.tidy.wellFormed
      (h.grown.parent?_eq_some hparent)
    cases hplaced.symm.trans hplaced'
    exact hp

end Delivery

/-- Where the companion of an import goes, and that it does. -/
theorem addCompanion_eq (h : Accompanied v d done u) (hb : Hosting v d) {donor derived : SheetId}
    {rule : NodeId} {target : FilePath} (hs : Awaits v d donor derived target rule) :
    ∃ container home node params placed, node.params? = some params ∧
      Commission v d donor derived rule home node ∧
      Delivery v u d ⟨donor, derived, rule⟩ node params home container placed ∧
      addCompanion d donor derived target u rule = u.keepCompanion derived home placed := by
  have hrule := hs.readable
  obtain ⟨r, hr, htarget⟩ := hs.target
  obtain ⟨n, written, specifier, hn, -, hwritten, hspecifier⟩ := hrule.readable
  have hlive : v.doc.contains rule = true := contains_iff_get?.mpr ⟨n, hn⟩
  obtain ⟨importer, s, himporter, himporters, hwithin⟩ := hb.tidy.exists_sheetOf? hlive
  have hu : u.sheetOf? rule = some importer := by rw [h.sheetOf?_base hb.tidy hlive, himporter]
  have hbefore : (v.doc.get? rule).bind Node.params? = some written := by
    rw [hn]
    exact hwritten
  have hdata : (u.doc.get? rule).bind Node.params? = some written := by
    rw [h.grown.data rule hlive]
    exact hbefore
  have hhome : v.companionHome d derived rule = some (d.hostOf importer derived) := by
    rw [companionHome, himporter]
    rfl
  have hcommission : ∀ home t t', v.companionHome d derived rule = some home →
      v.get? home = some t' → t'.SameButLinks t → Commission v d donor derived rule home
        (Node.addedImport (companionParams t target written specifier) ⟨donor, specifier⟩) := by
    intro home t t' hserves ht' hsame
    have hdir : t.dir? = t'.dir? := Sheet.dir?_congr hsame.file
    rw [companionParams, hdir]
    exact ⟨hs.pair, hs.served, hserves, t', r, target, written, specifier, ht', hr, htarget, hbefore,
      hspecifier, rfl⟩
  cases hhost : (d.of? importer).filter (· != derived) with
  | some host =>
    obtain ⟨hof, hne⟩ := Option.filter_eq_some_iff.mp hhost
    have howner : d.hostOf importer derived = host := by rw [Derivations.hostOf, hhost]; rfl
    obtain ⟨t, ht⟩ := get?_isSome.mpr (h.size.symm ▸ hb.host importer host hof)
    obtain ⟨t', ht', hsame⟩ := h.sheet host t ht
    rw [howner] at hhome
    have hdelivery : ∀ node params, Delivery v u d ⟨donor, derived, rule⟩ node params host t'.root
        (importInHost u.doc t'.root node params) := fun _ _ =>
      .front himporter hof (bne_iff_ne.mp hne) ht'
    rw [← hsame.root] at hdelivery
    exact ⟨t.root, host, _, _, _, rfl, hcommission host t t' hhome ht' hsame, hdelivery _ _,
      addCompanion_host hu hdata hspecifier hhost ht⟩
  | none =>
    have howner : d.hostOf importer derived = importer := by rw [Derivations.hostOf, hhost]; rfl
    obtain ⟨t, ht⟩ := get?_isSome.mpr (h.size.symm ▸ lt_size himporters)
    obtain ⟨t', ht', hsame⟩ := h.sheet importer t ht
    obtain ⟨p, hp⟩ := exists_parent_of_import hb.tidy hrule
    have hup : u.doc.parent? rule = some p := h.grown.parent?_eq_some hp
    rw [howner] at hhome
    have hform : (Node.addedImport (companionParams t target written specifier)
        ⟨donor, specifier⟩).params? = some (companionParams t target written specifier) := rfl
    obtain ⟨placed, hplaced, -⟩ := Document.placed_importBeside hform h.tidy.wellFormed hup
    have hown : ∀ host, d.of? importer = some host → host = derived := by
      intro host hof
      simpa [hof, Option.filter] using hhost
    exact ⟨p, importer, _, _, placed, hform, hcommission importer t t' hhome ht' hsame,
      .beside himporter hown hp hplaced, addCompanion_beside hu hdata hspecifier hhost ht hplaced⟩

/-- Every new import is one that was commissioned, and reads as one that each stylesheet it points
at has commissioned. -/
structure Worded (v : Workspace) (d : Derivations) (u : Workspace) : Prop where
  node : ∀ x, u.doc.contains x = true → v.doc.contains x = false →
    ∃ donor derived rule home node, Commission v d donor derived rule home node ∧
      u.sheetOf? x = some home ∧ u.doc.get? x = some node
  inbound : ∀ id t c, u.get? id = some t → c ∈ t.inbound → v.doc.contains c = false →
    ∃ donor rule home node n, Commission v d donor id rule home node ∧
      u.sheetOf? c = some home ∧ u.doc.get? c = some n ∧ n.params? = node.params?

/-- One more companion is kept. -/
theorem Worded.keep (hw : Worded v d u) (h : Accompanied v d done u) (hv : v.Tidy)
    {donor derived home : SheetId} {container rule : NodeId} {node : Node}
    {placed : NodeId × Document} (hc : Commission v d donor derived rule home node)
    (hp : Document.Placed u.doc container node placed)
    (hlive : u.doc.contains container = true)
    (hq : Placing v u d derived home container rule placed) :
    Worded v d (u.keepCompanion derived home placed) where
  node x hx hn := by
    cases hu : u.doc.contains x with
    | true =>
      obtain ⟨donor, derived, rule, home', node, hcommission, hhome, hdata⟩ := hw.node x hu hn
      exact ⟨donor, derived, rule, home', node, hcommission,
        (hq.sheetOf?_kept h hu).trans hhome, (hq.grown.data x hu).trans hdata⟩
    | false =>
      have hplaced := hq.only x hx hu
      subst hplaced
      exact ⟨donor, derived, rule, home, node, hc, hq.sheetOf?_placed h hv,
        hp.get?_of_new h.tidy.wellFormed hlive hu⟩
  inbound id t c ht hm hn := by
    have hbefore : ∀ t', u.get? id = some t' → c ∈ t'.inbound →
        ∃ donor rule home' node n, Commission v d donor id rule home' node ∧
          (u.keepCompanion derived home placed).sheetOf? c = some home' ∧
          placed.2.get? c = some n ∧ n.params? = node.params? := by
      intro t' ht' hm
      obtain ⟨donor, rule, home', node, n, hcommission, hhome, hdata, hparams⟩ :=
        hw.inbound id t' c ht' hm hn
      have hu := contains_iff_get?.mpr ⟨n, hdata⟩
      exact ⟨donor, rule, home', node, n, hcommission, (hq.sheetOf?_kept h hu).trans hhome,
        (hq.grown.data c hu).trans hdata, hparams⟩
    rcases get?_keepCompanion_cases ht with ht | ⟨rfl, t', ht', rfl⟩
    · exact hbefore t ht hm
    · have hm : c ∈ Ordered.insert NodeId.before placed.1 t'.inbound := hm
      rw [Ordered.mem_insert] at hm
      rcases hm with rfl | hm
      · obtain ⟨n, hdata, hparams⟩ := hp.get?_params h.tidy.wellFormed hlive
        exact ⟨donor, rule, home, node, n, hc, hq.sheetOf?_placed h hv, hdata, hparams⟩
      · exact hbefore t' ht' hm

/-- An errand that is run on `u`: its companion is delivered. -/
structure Service (v u : Workspace) (d : Derivations) (e : Errand) (home : SheetId)
    (container : NodeId) (node : Node) (params : String) (placed : NodeId × Document) : Prop where
  readable : v.doc.ImportAt e.rule
  text : node.params? = some params
  commission : Commission v d e.donor e.derived e.rule home node
  delivery : Delivery v u d e node params home container placed
  placing : Placing v u d e.derived home container e.rule placed

/-- Every errand is run. -/
theorem Accompanied.exists_service (h : Accompanied v d done u) (hb : Hosting v d) {e : Errand}
    {target : FilePath} (hs : Awaits v d e.donor e.derived target e.rule) :
    ∃ home container node params placed, Service v u d e home container node params placed ∧
      addCompanion d e.donor e.derived target u e.rule = u.keepCompanion e.derived home placed := by
  obtain ⟨container, home, node, params, placed, hparams, hcommission, hdelivery, heq⟩ :=
    addCompanion_eq h hb hs
  obtain ⟨r, hr, -⟩ := hs.target
  exact ⟨home, container, node, params, placed, ⟨hs.readable, hparams, hcommission, hdelivery,
    h.placing hb.tidy hb.origin (hdelivery.stands hb.tidy) (hdelivery.clear hb.tidy hs.readable)
      hcommission.serves (lt_size hr) hcommission.form hcommission.isImportRule hcommission.isAdded
      (hdelivery.toPlaced h hparams)⟩, heq⟩

namespace Service

variable {e : Errand} {home : SheetId} {container : NodeId} {node : Node} {params : String}
  {placed : NodeId × Document} (hs : Service v u d e home container node params placed)
  (h : Accompanied v d done u)
include hs h

theorem toPlaced : Document.Placed u.doc container node placed := hs.delivery.toPlaced h hs.text

theorem live (hv : v.Tidy) : u.doc.contains container = true :=
  h.grown.live container (hv.sheetOf?_eq_some.mp hs.placing.stands).1

end Service

theorem Accompanied.addCompanion (h : Accompanied v d done u) (hw : Worded v d u)
    (hb : Hosting v d) {donor derived : SheetId} {rule : NodeId} {target : FilePath}
    (hs : Awaits v d donor derived target rule) :
    Accompanied v d (fun id r => done id r ∨ (id = derived ∧ r = rule))
      (Workspace.addCompanion d donor derived target u rule) ∧
    Worded v d (Workspace.addCompanion d donor derived target u rule) := by
  obtain ⟨home, container, node, params, placed, hservice, heq⟩ :=
    h.exists_service (e := ⟨donor, derived, rule⟩) hb hs
  rw [heq]
  exact ⟨h.keep hb.tidy hservice.placing, hw.keep h hb.tidy hservice.commission
    (hservice.toPlaced h) (hservice.live h hb.tidy) hservice.placing⟩

/-! ### All companions -/

theorem Accompanied.congr {done' : SheetId → NodeId → Prop} (h : Accompanied v d done u)
    (heq : ∀ id rule, done' id rule ↔ done id rule) : Accompanied v d done' u := by
  have : done' = done := by
    funext id rule
    exact propext (heq id rule)
  rw [this]
  exact h

theorem Accompanied.foldl (h : Accompanied v d done u) (hw : Worded v d u) (hb : Hosting v d)
    {donor derived : SheetId} {target : FilePath} (rules : List NodeId)
    (hrules : ∀ rule ∈ rules, Awaits v d donor derived target rule) :
    Accompanied v d (fun id r => done id r ∨ (id = derived ∧ r ∈ rules))
      (rules.foldl (Workspace.addCompanion d donor derived target) u) ∧
    Worded v d (rules.foldl (Workspace.addCompanion d donor derived target) u) := by
  induction rules generalizing u done with
  | nil => exact ⟨h.congr (by simp), hw⟩
  | cons rule rules ih =>
    obtain ⟨hstep, hworded⟩ := h.addCompanion hw hb (hrules rule (List.mem_cons_self ..))
    obtain ⟨hall, hworded⟩ := ih hstep hworded fun r hr => hrules r (List.mem_cons_of_mem _ hr)
    refine ⟨hall.congr fun id r => ?_, hworded⟩
    rw [List.mem_cons, or_assoc, ← and_or_left]

/-- The imports that get companions when some donors are through. -/
def Edges (v : Workspace) (pairs : List (SheetId × SheetId)) (derived : SheetId) (rule : NodeId) :
    Prop :=
  ∃ donor s, (donor, derived) ∈ pairs ∧ v.get? donor = some s ∧ rule ∈ s.inbound

/-- Pairs of a donor and its derived stylesheet whose imports can get companions. -/
structure Paired (v : Workspace) (pairs : List (SheetId × SheetId)) : Prop where
  donor : ∀ donor derived, (donor, derived) ∈ pairs → ∃ s, v.get? donor = some s
  derived : ∀ donor derived, (donor, derived) ∈ pairs →
    ∃ t, v.get? derived = some t ∧ t.file.isSome = true
  rules : ∀ donor derived s, (donor, derived) ∈ pairs → v.get? donor = some s →
    ∀ rule ∈ s.inbound, v.doc.ImportAt rule
  /-- No donor is a derived stylesheet. -/
  apart : ∀ donor derived other, (donor, derived) ∈ pairs → (other, donor) ∉ pairs

/-- Fewer pairs. -/
theorem Paired.front {before after : List (SheetId × SheetId)} (h : Paired v (before ++ after)) :
    Paired v before where
  donor donor derived hp := h.donor donor derived (List.mem_append_left _ hp)
  derived donor derived hp := h.derived donor derived (List.mem_append_left _ hp)
  rules donor derived s hp := h.rules donor derived s (List.mem_append_left _ hp)
  apart donor derived other hp ho :=
    h.apart donor derived other (List.mem_append_left _ hp) (List.mem_append_left _ ho)

theorem Accompanied.authoredImports (h : Accompanied v d done u)
    (horigin : ∀ x n, v.doc.get? x = some n → n.origin = none) {donor : SheetId} {s : Sheet}
    (hs : v.get? donor = some s) (hrules : ∀ rule ∈ s.inbound, v.doc.ImportAt rule)
    (hno : ∀ rule, ¬ done donor rule) : u.authoredImports donor = s.inbound := by
  unfold Workspace.authoredImports
  rw [h.kept donor hno, hs]
  refine List.filter_eq_self.mpr fun rule hr => ?_
  obtain ⟨n, -, -, hn, -⟩ := (hrules rule hr).readable
  rw [h.grown.data rule (contains_iff_get?.mpr ⟨n, hn⟩), hn, Option.any_some, Node.isAdded,
    horigin rule n hn]
  rfl

/-! ### All companions, one after another -/

/-- The errands for the imports of some donors, in the order in which they are run. -/
def errands (v : Workspace) (pairs : List (SheetId × SheetId)) : List Errand :=
  pairs.flatMap fun (donor, derived) => (v.authoredImports donor).map (Errand.mk donor derived)

theorem mem_errands {pairs : List (SheetId × SheetId)} {e : Errand} : e ∈ v.errands pairs ↔
    (e.donor, e.derived) ∈ pairs ∧ e.rule ∈ v.authoredImports e.donor := by
  rw [errands, List.mem_flatMap]
  constructor
  · rintro ⟨⟨donor, derived⟩, hp, he⟩
    obtain ⟨rule, hrule, rfl⟩ := List.mem_map.mp he
    exact ⟨hp, hrule⟩
  · intro ⟨hp, hrule⟩
    exact ⟨_, hp, List.mem_map.mpr ⟨e.rule, hrule, rfl⟩⟩

/-- An errand is run: the companion names the file that the derived stylesheet has in `v`. -/
def serve (v : Workspace) (d : Derivations) (u : Workspace) (e : Errand) : Workspace :=
  match (v.get? e.derived).bind Sheet.file with
  | none => u
  | some target => addCompanion d e.donor e.derived target u e.rule

theorem serve_eq {e : Errand} {t : Sheet} {target : FilePath} (ht : v.get? e.derived = some t)
    (htarget : t.file = some target) :
    v.serve d u e = Workspace.addCompanion d e.donor e.derived target u e.rule := by
  simp only [serve, ht, Option.bind_some, htarget]

/-- The imports of one more donor get their companions. -/
theorem Accompanied.addCompanions {before : List (SheetId × SheetId)}
    (h : Accompanied v d (v.Edges before) u) (hw : Worded v d u) (hb : Hosting v d)
    {donor derived : SheetId} (hp : Paired v (before ++ [(donor, derived)]))
    (hpair : (donor, derived) ∈ d.pairs) :
    Workspace.addCompanions d u (donor, derived) =
        .ok ((v.errands [(donor, derived)]).foldl (v.serve d) u) ∧
      Accompanied v d (v.Edges (before ++ [(donor, derived)]))
        ((v.errands [(donor, derived)]).foldl (v.serve d) u) ∧
      Worded v d ((v.errands [(donor, derived)]).foldl (v.serve d) u) := by
  have hmem : (donor, derived) ∈ before ++ [(donor, derived)] := by simp
  obtain ⟨t, ht, hfile⟩ := hp.derived donor derived hmem
  obtain ⟨target, htarget⟩ := Option.isSome_iff_exists.mp hfile
  obtain ⟨t', ht', hsame⟩ := h.get?_of_left ht
  have htarget' : t'.file = some target := hsame.file.trans htarget
  have hrun : ∀ rules : List NodeId, (rules.map (Errand.mk donor derived)).foldl (v.serve d) u =
      rules.foldl (Workspace.addCompanion d donor derived target) u := by
    intro rules
    rw [List.foldl_map]
    exact congrArg (List.foldl · u rules) (funext fun u => funext fun rule => serve_eq ht htarget)
  have hno : ∀ rule, ¬ v.Edges before donor rule := by
    rintro rule ⟨other, s, ho, -⟩
    exact hp.apart donor derived other hmem (List.mem_append_left _ ho)
  obtain ⟨s, hs⟩ := hp.donor donor derived hmem
  have hrules := hp.rules donor derived s hmem hs
  have hauthored : v.authoredImports donor = s.inbound :=
    (accompanied_refl (d := d) hb.tidy).authoredImports hb.origin hs hrules fun _ hd => hd
  have hauthoredu := h.authoredImports hb.origin hs hrules hno
  have hserved : ∀ rule ∈ s.inbound, Awaits v d donor derived target rule := fun rule hr =>
    ⟨hpair, ⟨s, hs, hr⟩, hrules rule hr, t, ht, htarget⟩
  obtain ⟨hall, hworded⟩ := h.foldl hw hb s.inbound hserved
  simp only [errands, List.flatMap_cons, List.flatMap_nil, List.append_nil, hrun, hauthored]
  refine ⟨?_, hall.congr fun id rule => ⟨?_, ?_⟩, hworded⟩
  · simp only [Workspace.addCompanions, sheet_eq_ok.mpr ht', bind, Except.bind, htarget', hauthoredu]
    rfl
  · intro hex
    obtain ⟨other, s', ho, hso, hrule⟩ := hex
    rcases List.mem_append.mp ho with ho | ho
    · exact Or.inl ⟨other, s', ho, hso, hrule⟩
    · cases List.mem_singleton.mp ho
      rw [hs] at hso
      cases hso
      exact Or.inr ⟨rfl, hrule⟩
  · rintro (⟨other, s', ho, hso, hrule⟩ | ⟨rfl, hrule⟩)
    · exact ⟨other, s', List.mem_append_left _ ho, hso, hrule⟩
    · exact ⟨donor, s, hmem, hs, hrule⟩

/-- **Every import of every donor gets its companion.** -/
theorem Accompanied.foldlM {before after : List (SheetId × SheetId)} (hb : Hosting v d)
    (hp : Paired v (before ++ after)) (hpairs : d.pairs = before ++ after)
    (h : Accompanied v d (v.Edges before) u) (hw : Worded v d u) :
    after.foldlM (Workspace.addCompanions d) u = .ok ((v.errands after).foldl (v.serve d) u) ∧
      Accompanied v d (v.Edges (before ++ after)) ((v.errands after).foldl (v.serve d) u) ∧
      Worded v d ((v.errands after).foldl (v.serve d) u) := by
  induction after generalizing before u with
  | nil => exact ⟨rfl, by simpa [errands] using h, hw⟩
  | cons pair after ih =>
    rw [List.append_cons] at hp hpairs
    obtain ⟨hnext, hacc, hworded⟩ := h.addCompanions hw hb hp.front (hpairs ▸ by simp)
    obtain ⟨hlast, hall, hworded⟩ := ih hp hpairs hacc hworded
    have hrun : (v.errands (pair :: after)).foldl (v.serve d) u =
        (v.errands after).foldl (v.serve d) ((v.errands [pair]).foldl (v.serve d) u) := by
      simp [errands, List.foldl_append]
    rw [hrun, List.append_cons]
    refine ⟨?_, hall, hworded⟩
    rw [List.foldlM_cons, hnext]
    exact hlast

end Workspace

end Strata
