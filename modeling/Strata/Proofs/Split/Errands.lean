import Strata.Proofs.Split.Outcome

/-! What errands leave behind.

Companions are added one errand after another, and each errand finds what those before it have added.
`Attended` is what they keep up: every new node stands where an errand has it stand and reads as that
errand words it, every errand that was run has its companion there, and no node has two new imports
with the same parameters below it. -/
namespace Strata

/-- The first of those with the same key, in their order. -/
def firstsBy {α κ : Type} [DecidableEq κ] (key : α → κ) (as : List α) : List α :=
  as.foldl (fun kept a => if key a ∈ kept.map key then kept else kept ++ [a]) []

section firstsBy

variable {α κ : Type} [DecidableEq κ] {key : α → κ}

theorem firstsBy_concat (as : List α) (a : α) : firstsBy key (as ++ [a]) =
    if key a ∈ (firstsBy key as).map key then firstsBy key as else firstsBy key as ++ [a] := by
  rw [firstsBy, List.foldl_append]
  rfl

theorem firstsBy_sublist (as : List α) : (firstsBy key as).Sublist as := by
  induction as using List.reverseRecOn with
  | nil => exact List.Sublist.refl _
  | append_singleton as a ih =>
    rw [firstsBy_concat]
    split
    · exact ih.trans (List.sublist_append_left ..)
    · exact ih.append_right [a]

end firstsBy

namespace Workspace

open Forest

variable {w v u : Workspace} {settings : Settings} {d : Derivations} {done : List Errand}
  {ran : SheetId → NodeId → Prop} {e : Errand} {home : SheetId} {container : NodeId} {node : Node}
  {params : String} {placed : NodeId × Document}

/-! ### Where a companion belongs, and what it reads -/

/-- Where the companion of an import belongs: at the top of the stylesheet derived from the importer,
unless that is the one to be imported, or beside the import. -/
inductive Site (v : Workspace) (d : Derivations) (e : Errand) : SheetId → NodeId → Prop where
  | front {importer home t} : v.sheetOf? e.rule = some importer → d.of? importer = some home →
      home ≠ e.derived → v.get? home = some t → Site v d e home t.root
  | beside {importer container} : v.sheetOf? e.rule = some importer →
      (∀ host, d.of? importer = some host → host = e.derived) →
      v.doc.parent? e.rule = some container → Site v d e importer container

/-- A companion belongs to one place. -/
theorem Site.unique {home' : SheetId} {container' : NodeId} (h : v.Site d e home container)
    (h' : v.Site d e home' container') : home' = home ∧ container' = container := by
  cases h with
  | front himporter hof hne ht =>
    cases h' with
    | front himporter' hof' _ ht' =>
      cases himporter.symm.trans himporter'
      cases hof.symm.trans hof'
      cases ht.symm.trans ht'
      exact ⟨rfl, rfl⟩
    | beside himporter' hown _ =>
      cases himporter.symm.trans himporter'
      exact absurd (hown home hof) hne
  | beside himporter hown hparent =>
    cases h' with
    | front himporter' hof' hne _ =>
      cases himporter.symm.trans himporter'
      exact absurd (hown home' hof') hne
    | beside himporter' _ hparent' =>
      cases himporter.symm.trans himporter'
      cases hparent.symm.trans hparent'
      exact ⟨rfl, rfl⟩

/-- The companion of an import as it reads in `home`: it names the file of the derived stylesheet and
nothing else, in the quotes of the import, and remembers that. -/
def companionOf? (v : Workspace) (home : SheetId) (e : Errand) : Option Node := do
  let owner ← v.get? home
  let target ← (← v.get? e.derived).file
  let written ← (v.doc.get? e.rule).bind Node.params?
  let specifier ← Css.specifier? written
  return Node.addedImport (companionParams owner target written specifier) ⟨e.donor, specifier⟩

/-- What a companion is worded after. -/
theorem companionOf?_eq_some : v.companionOf? home e = some node ↔
    ∃ t r target written specifier, v.get? home = some t ∧ v.get? e.derived = some r ∧
      r.file = some target ∧ (v.doc.get? e.rule).bind Node.params? = some written ∧
      Css.specifier? written = some specifier ∧
      node = Node.addedImport (companionParams t target written specifier) ⟨e.donor, specifier⟩ := by
  constructor
  · intro h
    obtain ⟨t, ht, h⟩ := Option.bind_eq_some_iff.mp h
    obtain ⟨r, hr, h⟩ := Option.bind_eq_some_iff.mp h
    obtain ⟨target, hfile, h⟩ := Option.bind_eq_some_iff.mp h
    obtain ⟨written, hwritten, h⟩ := Option.bind_eq_some_iff.mp h
    obtain ⟨specifier, hspecifier, h⟩ := Option.bind_eq_some_iff.mp h
    cases h
    exact ⟨t, r, target, written, specifier, ht, hr, hfile, hwritten, hspecifier, rfl⟩
  · rintro ⟨t, r, target, written, specifier, ht, hr, hfile, hwritten, hspecifier, rfl⟩
    simp only [companionOf?, ht, hr, hfile, hwritten, hspecifier, Option.bind_eq_bind,
      Option.bind_some, Option.pure_def]

theorem Commission.companionOf?_eq (h : Commission v d e.donor e.derived e.rule home node) :
    v.companionOf? home e = some node := companionOf?_eq_some.mpr h.worded

theorem Delivery.site (h : Delivery v u d e node params home container placed) :
    v.Site d e home container := by
  cases h with
  | front himporter hof hne ht => exact .front himporter hof hne ht
  | beside hhome hown hparent _ => exact .beside hhome hown hparent

/-! ### The run -/

/-- **What every errand keeps, all errands keep.** -/
theorem Accompanied.run (inv : List Errand → Workspace → Prop) (hb : Hosting v d)
    (hkeep : ∀ {ran done u e home container node params placed}, Accompanied v d ran u →
      inv done u → Service v u d e home container node params placed →
      inv (done ++ [e]) (u.keepCompanion e.derived home placed))
    (h : Accompanied v d ran u) (hinv : inv done u) {es : List Errand}
    (hes : ∀ e ∈ es, ∃ target, Awaits v d e.donor e.derived target e.rule) :
    inv (done ++ es) (es.foldl (v.serve d) u) := by
  induction es generalizing ran done u with
  | nil => simpa using hinv
  | cons e es ih =>
    obtain ⟨target, hawaits⟩ := hes e (List.mem_cons_self ..)
    obtain ⟨home, container, node, params, placed, hservice, heq⟩ := h.exists_service hb hawaits
    obtain ⟨r, hr, htarget⟩ := hawaits.target
    rw [List.foldl_cons, serve_eq hr htarget, heq, List.append_cons]
    exact ih (h.keep hb.tidy hservice.placing) (hkeep h hinv hservice)
      fun e he => hes e (List.mem_cons_of_mem _ he)

/-! ### What one errand leaves -/

/-- What the errands in `done` have left. -/
structure Attended (v : Workspace) (d : Derivations) (done : List Errand) (u : Workspace) :
    Prop where
  created : ∀ x, u.doc.contains x = true → v.doc.contains x = false → ∃ e ∈ done, ∃ home container,
    v.Site d e home container ∧ u.doc.parent? x = some container ∧
      v.companionOf? home e = u.doc.get? x
  served : ∀ e ∈ done, ∃ home container node c t, v.Site d e home container ∧
    v.companionOf? home e = some node ∧ v.doc.contains c = false ∧
    u.doc.parent? c = some container ∧ (u.doc.get? c).bind Node.params? = node.params? ∧
    u.get? e.derived = some t ∧ c ∈ t.inbound ∧ home ∈ t.parents
  sole : ∀ p c c', u.doc.parent? c = some p → u.doc.parent? c' = some p →
    v.doc.contains c = false → v.doc.contains c' = false →
    (u.doc.get? c).bind Node.params? = (u.doc.get? c').bind Node.params? → c = c'

theorem attended_refl : Attended v d [] v where
  created x hx hn := by
    rw [hx] at hn
    cases hn
  served _ he := by cases he
  sole p c c' hc _ hn _ _ := by
    rw [contains_of_parent? hc] at hn
    cases hn

section service

variable (h : Accompanied v d ran u) (hs : Service v u d e home container node params placed)
include h hs

/-- A node that is none of those before is the one that was inserted, and none like it was there. -/
theorem Service.unlike {x c : NodeId} (hx : placed.2.contains x = true)
    (hu : u.doc.contains x = false) (hc : u.doc.parent? c = some container)
    (hnew : v.doc.contains c = false) : (u.doc.get? c).bind Node.params? ≠ node.params? := by
  obtain ⟨⟨n, hn, himport, hadded⟩, -⟩ := h.added c (contains_of_parent? hc) hnew
  rw [hn, Option.bind_some]
  cases hs.toPlaced h with
  | present =>
    rw [hx] at hu
    cases hu
  | inserted index hno => exact hno c ((h.tidy.wellFormed.listed c container).mpr hc) n hn hadded himport

theorem Service.placed_params (hv : v.Tidy) :
    (placed.2.get? placed.1).bind Node.params? = node.params? := by
  obtain ⟨n, hn, hparams⟩ := (hs.toPlaced h).get?_params h.tidy.wellFormed (hs.live h hv)
  rw [hn, Option.bind_some, hparams]

variable (ha : Attended v d done u) (hv : v.Tidy)
include ha hv

theorem Attended.created_step (x : NodeId) (hx : placed.2.contains x = true)
    (hn : v.doc.contains x = false) : ∃ e' ∈ done ++ [e], ∃ home' container',
      v.Site d e' home' container' ∧ placed.2.parent? x = some container' ∧
        v.companionOf? home' e' = placed.2.get? x := by
  have hq := hs.placing
  cases hu : u.doc.contains x with
  | true =>
    obtain ⟨e', he', home', container', hsite, hparent, hreads⟩ := ha.created x hu hn
    exact ⟨e', List.mem_append_left _ he', home', container', hsite,
      hq.grown.parent?_eq_some hparent, hreads.trans (hq.grown.data x hu).symm⟩
  | false =>
    have hplaced := hq.only x hx hu
    subst hplaced
    refine ⟨e, List.mem_append_right _ (List.mem_singleton_self _), home, container,
      hs.delivery.site, hq.parent, ?_⟩
    rw [(hs.toPlaced h).get?_of_new h.tidy.wellFormed (hs.live h hv) hu]
    exact hs.commission.companionOf?_eq

theorem Attended.served_step (e' : Errand) (he' : e' ∈ done ++ [e]) :
    ∃ home' container' node' c t, v.Site d e' home' container' ∧
      v.companionOf? home' e' = some node' ∧ v.doc.contains c = false ∧
      placed.2.parent? c = some container' ∧ (placed.2.get? c).bind Node.params? = node'.params? ∧
      (u.keepCompanion e.derived home placed).get? e'.derived = some t ∧ c ∈ t.inbound ∧
      home' ∈ t.parents := by
  have hq := hs.placing
  rcases List.mem_append.mp he' with he' | he'
  · obtain ⟨home', container', node', c, t, hsite, hnode, hnew, hparent, hparams, ht, hc, hm⟩ :=
      ha.served e' he'
    have hparams' : (placed.2.get? c).bind Node.params? = node'.params? := by
      rw [hq.grown.data c (contains_of_parent? hparent), hparams]
    obtain ⟨t', ht', hinbound, hparents⟩ := exists_keepCompanion e.derived home placed ht
    exact ⟨home', container', node', c, t', hsite, hnode, hnew, hq.grown.parent?_eq_some hparent,
      hparams', ht', hinbound c hc, hparents home' hm⟩
  · cases List.mem_singleton.mp he'
    obtain ⟨t, ht⟩ := get?_isSome.mpr (h.size.symm ▸ hq.valid)
    refine ⟨home, container, node, placed.1, (t.addInbound placed.1).addParent home,
      hs.delivery.site, hs.commission.companionOf?_eq, hq.new, hq.parent, hs.placed_params h hv,
      ?_, (Ordered.mem_insert ..).mpr (Or.inl rfl), (Ordered.mem_insert ..).mpr (Or.inl rfl)⟩
    rw [get?_keepCompanion, if_pos rfl, ht]
    rfl

theorem Attended.sole_step (p c c' : NodeId) (hc : placed.2.parent? c = some p)
    (hc' : placed.2.parent? c' = some p) (hn : v.doc.contains c = false)
    (hn' : v.doc.contains c' = false)
    (hsame : (placed.2.get? c).bind Node.params? = (placed.2.get? c').bind Node.params?) :
    c = c' := by
  have hq := hs.placing
  -- A node that is new now is not like one that was there.
  have hone : ∀ c c', placed.2.parent? c = some p → placed.2.parent? c' = some p →
      v.doc.contains c' = false →
      (placed.2.get? c).bind Node.params? = (placed.2.get? c').bind Node.params? →
      u.doc.contains c = false → u.doc.contains c' = true → False := by
    intro c c' hc hc' hn' hsame hu hu'
    have hplaced := hq.only c (contains_of_parent? hc) hu
    subst hplaced
    rw [hq.parent] at hc
    cases hc
    rw [hq.grown.parent c' hu'] at hc'
    refine hs.unlike h (contains_of_parent? hq.parent) hu hc' hn' ?_
    rw [← hq.grown.data c' hu', ← hsame, hs.placed_params h hv]
  cases hu : u.doc.contains c with
  | true =>
    cases hu' : u.doc.contains c' with
    | true =>
      rw [hq.grown.parent c hu] at hc
      rw [hq.grown.parent c' hu'] at hc'
      rw [hq.grown.data c hu, hq.grown.data c' hu'] at hsame
      exact ha.sole p c c' hc hc' hn hn' hsame
    | false => exact (hone c' c hc' hc hn hsame.symm hu' hu).elim
  | false =>
    cases hu' : u.doc.contains c' with
    | true => exact (hone c c' hc hc' hn' hsame hu hu').elim
    | false =>
      rw [hq.only c (contains_of_parent? hc) hu, hq.only c' (contains_of_parent? hc') hu']

/-- One more errand is run. -/
theorem Attended.step : Attended v d (done ++ [e]) (u.keepCompanion e.derived home placed) where
  created := ha.created_step h hs hv
  served := ha.served_step h hs hv
  sole := ha.sole_step h hs hv

end service

/-! ### The top of a derived stylesheet -/

/-- The companion of an import belongs at the top of `home`. -/
def fronts (v : Workspace) (d : Derivations) (home : SheetId) (e : Errand) : Bool :=
  (v.sheetOf? e.rule).any fun importer => d.of? importer == some home && home != e.derived

/-- The parameters of the companion of an import in `home`. -/
def wording (v : Workspace) (home : SheetId) (e : Errand) : Option String :=
  (v.companionOf? home e).bind Node.params?

/-- The errands that companions at the top of `home` are made for, in the order in which they are
run. Others find there what they want. -/
def madeAt (v : Workspace) (d : Derivations) (home : SheetId) (es : List Errand) : List Errand :=
  firstsBy (v.wording home) (es.filter (v.fronts d home))

theorem madeAt_concat_of_not (hno : v.fronts d home e = false) :
    v.madeAt d home (done ++ [e]) = v.madeAt d home done := by
  simp [madeAt, List.filter_append, hno]

section fronts

variable (hfronts : v.fronts d home e = true)
include hfronts

theorem madeAt_concat_of_mem {e' : Errand} (he' : e' ∈ v.madeAt d home done)
    (hsame : v.wording home e' = v.wording home e) :
    v.madeAt d home (done ++ [e]) = v.madeAt d home done := by
  unfold madeAt at *
  rw [List.filter_append, List.filter_cons_of_pos hfronts, List.filter_nil, firstsBy_concat,
    if_pos (List.mem_map.mpr ⟨e', he', hsame⟩)]

theorem madeAt_concat (hno : ∀ e' ∈ v.madeAt d home done, v.wording home e' ≠ v.wording home e) :
    v.madeAt d home (done ++ [e]) = v.madeAt d home done ++ [e] := by
  unfold madeAt at *
  rw [List.filter_append, List.filter_cons_of_pos hfronts, List.filter_nil, firstsBy_concat,
    if_neg]
  intro hm
  obtain ⟨e', he', hsame⟩ := List.mem_map.mp hm
  exact hno e' he' hsame

end fronts

/-- No import stands below a node. -/
def Importless (doc : Document) (top : NodeId) : Prop :=
  ∀ c ∈ doc.children top, (doc.get? c).any Node.isImportRule = false

/-- `line` are the companions at the top of `home`, in front of what was there. -/
structure Line (v u : Workspace) (d : Derivations) (done : List Errand) (home : SheetId)
    (top : NodeId) (line : List NodeId) : Prop where
  children : u.doc.children top = line ++ v.doc.children top
  reads : line.map u.doc.get? = (v.madeAt d home done).map (v.companionOf? home)

/-- Where no import stood below the root, companions are lined up. -/
def Fronted (v : Workspace) (d : Derivations) (done : List Errand) (u : Workspace) : Prop :=
  ∀ home t, v.get? home = some t → Importless v.doc t.root → ∃ line, Line v u d done home t.root line

theorem fronted_refl : Fronted v d [] v := fun _ _ _ _ => ⟨[], rfl, rfl⟩

theorem isAdded_companionOf? (h : v.companionOf? home e = some node) :
    node.isAdded = true ∧ node.isImportRule = true := by
  obtain ⟨_, _, _, _, _, -, -, -, -, -, rfl⟩ := companionOf?_eq_some.mp h
  exact ⟨rfl, isImportRule_addedImport _ _⟩

section line

variable {top : NodeId} {line : List NodeId} (hl : Line v u d done home top line)
  (h : Accompanied v d ran u)
include hl

/-- A node in the line was made for an errand. -/
theorem Line.exists_madeAt {c : NodeId} (hc : c ∈ line) :
    ∃ e ∈ v.madeAt d home done, v.companionOf? home e = u.doc.get? c := by
  have hm : u.doc.get? c ∈ (v.madeAt d home done).map (v.companionOf? home) :=
    hl.reads ▸ List.mem_map_of_mem hc
  obtain ⟨e, he, hreads⟩ := List.mem_map.mp hm
  exact ⟨e, he, hreads⟩

/-- An errand that something is made for has a node in the line. -/
theorem Line.exists_node {e : Errand} (he : e ∈ v.madeAt d home done) :
    ∃ c ∈ line, u.doc.get? c = v.companionOf? home e := by
  have hm : v.companionOf? home e ∈ line.map u.doc.get? := hl.reads ▸ List.mem_map_of_mem he
  obtain ⟨c, hc, hreads⟩ := List.mem_map.mp hm
  exact ⟨c, hc, hreads⟩

include h

theorem Line.parent {c : NodeId} (hc : c ∈ line) : u.doc.parent? c = some top :=
  (h.tidy.wellFormed.listed c top).mp (hl.children ▸ List.mem_append_left _ hc)

theorem Line.get? {c : NodeId} (hc : c ∈ line) :
    ∃ n, u.doc.get? c = some n ∧ n.isAdded = true ∧ n.isImportRule = true := by
  obtain ⟨e, -, hreads⟩ := hl.exists_madeAt hc
  obtain ⟨n, hn⟩ := contains_iff_get?.mp (contains_of_parent? (hl.parent h hc))
  exact ⟨n, hn, isAdded_companionOf? (hreads.trans hn)⟩

/-- The imports that the root starts with are the line. -/
theorem Line.leading (hv : v.Tidy) (himportless : Importless v.doc top) :
    ((u.doc.children top).takeWhile fun c => (u.doc.get? c).any Node.isImportRule) = line := by
  have hrest : (v.doc.children top).takeWhile
      (fun c => (u.doc.get? c).any Node.isImportRule) = [] := by
    cases hline : v.doc.children top with
    | nil => rfl
    | cons c cs =>
      have hm : c ∈ v.doc.children top := hline ▸ List.mem_cons_self ..
      have hlive := contains_of_parent? ((hv.wellFormed.listed c top).mp hm)
      have hno : (u.doc.get? c).any Node.isImportRule = false := by
        rw [h.grown.data c hlive, himportless c hm]
      exact List.takeWhile_cons_of_neg (by simp [hno])
  rw [hl.children, List.takeWhile_append_of_pos, hrest, List.append_nil]
  intro c hc
  obtain ⟨n, hn, -, himport⟩ := hl.get? h hc
  have hn : u.doc.get? c = some n := hn
  rw [hn, Option.any_some, himport]

end line

section service

variable {top : NodeId} {line : List NodeId} (h : Accompanied v d ran u) (hb : Hosting v d)
  (hs : Service v u d e home container node params placed)
include h hb hs

/-- Where the companion does not go nothing changes. -/
theorem Line.elsewhere {other : SheetId} (hl : Line v u d done other top line)
    (hne : top ≠ container) (hno : v.fronts d other e = false) :
    Line v (u.keepCompanion e.derived home placed) d (done ++ [e]) other top line where
  children := by
    show placed.2.children top = _
    rw [(hs.toPlaced h).children_of_ne h.tidy.wellFormed (hs.live h hb.tidy) hne, hl.children]
  reads := by
    rw [madeAt_concat_of_not hno, ← hl.reads]
    exact List.map_congr_left fun c hc =>
      hs.placing.grown.data c (contains_of_parent? (hl.parent h hc))

variable (hl : Line v u d done home top line) (hfronts : v.fronts d home e = true)
include hl hfronts

/-- An import in the line serves one more errand. -/
theorem Line.present {c : NodeId} (hc : addedImport? u.doc top params = some c)
    (hplaced : placed = importInHost u.doc top node params) :
    Line v (u.keepCompanion e.derived home placed) d (done ++ [e]) home top line := by
  have hdoc : placed.2 = u.doc := by rw [hplaced, importInHost, hc]
  have hfound := List.find?_some hc
  obtain ⟨n, hn, hadded⟩ := (Option.any_eq_true _ _).mp hfound
  simp only [Bool.and_eq_true, beq_iff_eq] at hadded
  have hmade : v.madeAt d home (done ++ [e]) = v.madeAt d home done := by
    have hm := List.mem_of_find?_eq_some hc
    rw [hl.children] at hm
    rcases List.mem_append.mp hm with hm | hm
    · obtain ⟨e', he', hreads⟩ := hl.exists_madeAt hm
      refine madeAt_concat_of_mem hfronts he' ?_
      rw [wording, wording, hreads, hs.commission.companionOf?_eq, hn, Option.bind_some,
        Option.bind_some, hadded.2, hs.text]
    · have hlive := contains_of_parent? ((hb.tidy.wellFormed.listed c top).mp hm)
      have horigin := hadded.1.1
      rw [Node.isAdded, hb.origin c n ((h.grown.data c hlive).symm.trans hn)] at horigin
      cases horigin
  refine ⟨?_, ?_⟩
  · show placed.2.children top = _
    rw [hdoc, hl.children]
  · show line.map placed.2.get? = _
    rw [hdoc, hmade, hl.reads]

/-- A new import ends the line. -/
theorem Line.inserted (himportless : Importless v.doc top) (hcontainer : container = top)
    (hno : addedImport? u.doc top params = none)
    (hplaced : placed = importInHost u.doc top node params) :
    Line v (u.keepCompanion e.derived home placed) d (done ++ [e]) home top (line ++ [placed.1]) := by
  have hlive : u.doc.contains top = true := hcontainer ▸ hs.live h hb.tidy
  have hwf := h.tidy.wellFormed
  have hnew : placed = u.doc.insertChild top line.length node := by
    rw [hplaced, importInHost, hno, ← hl.leading h hb.tidy himportless]
  have hmade : v.madeAt d home (done ++ [e]) = v.madeAt d home done ++ [e] := by
    refine madeAt_concat hfronts fun e' he' hsame => ?_
    obtain ⟨c, hc, hreads⟩ := hl.exists_node he'
    obtain ⟨n, hn, hadded, himport⟩ := hl.get? h hc
    refine Document.not_added_of_addedImport? hs.text hno c
      ((hwf.listed c top).mpr (hl.parent h hc)) n hn hadded himport ?_
    rw [wording, wording, ← hreads, hs.commission.companionOf?_eq] at hsame
    have hn : u.doc.get? c = some n := hn
    rwa [hn] at hsame
  refine ⟨?_, ?_⟩
  · show placed.2.children top = _
    rw [hnew, children_insertChild hwf hlive, if_pos rfl, hl.children, List.length_append,
      Nat.min_eq_left (Nat.le_add_right ..), insertIdx_behind, List.append_assoc, insertChild_fst]
    rfl
  · have hread : placed.2.get? placed.1 = v.companionOf? home e := by
      rw [hs.commission.companionOf?_eq, hnew, get?_insertChild hwf hlive, insertChild_fst, if_pos rfl]
    rw [hmade, List.map_append, List.map_append, ← hl.reads]
    refine congrArg₂ _ (List.map_congr_left fun c hc => ?_) (congrArg (fun x => [x]) hread)
    exact hs.placing.grown.data c (contains_of_parent? (hl.parent h hc))

end service

/-- One more errand is run. -/
theorem Fronted.step (hf : Fronted v d done u) (h : Accompanied v d ran u) (hb : Hosting v d)
    (hs : Service v u d e home container node params placed) :
    Fronted v d (done ++ [e]) (u.keepCompanion e.derived home placed) := by
  intro top t ht himportless
  obtain ⟨line, hl⟩ := hf top t ht himportless
  have hdelivery := hs.delivery
  cases hdelivery with
  | @front importer _ t' himporter hof hne ht' =>
    by_cases heq : top = home
    · subst heq
      cases ht.symm.trans ht'
      have hfronts : v.fronts d top e = true := by simp [fronts, himporter, hof, hne]
      cases hfound : addedImport? u.doc t.root params with
      | some c => exact ⟨line, hl.present h hb hs hfronts hfound rfl⟩
      | none => exact ⟨_, hl.inserted h hb hs hfronts himportless rfl hfound rfl⟩
    · refine ⟨line, hl.elsewhere h hb hs (fun hroot => ?_) ?_⟩
      · exact heq (hb.tidy.id_unique ht ht' hroot)
      · simp [fronts, himporter, hof, Ne.symm heq]
  | @beside home container placed hhome hown hparent =>
    refine ⟨line, hl.elsewhere h hb hs (fun hroot => ?_) ?_⟩
    · have hm := (hb.tidy.wellFormed.listed e.rule t.root).mpr (hroot ▸ hparent)
      obtain ⟨n, -, -, hn, himport, -⟩ := hs.readable.readable
      have hno := himportless e.rule hm
      have hn : v.doc.get? e.rule = some n := hn
      rw [hn, Option.any_some, himport] at hno
      cases hno
    · rw [fronts, hhome, Option.any_some, Bool.and_eq_false_iff]
      by_cases hof : d.of? home = some top
      · exact Or.inr (by simp [hown top hof])
      · exact Or.inl (by simp [hof])

/-! ### Splits -/

/-- Errands whose imports are those of `v`. -/
theorem Accompanied.companionOf?_eq (h : Accompanied v d ran u) (hlive : v.doc.contains e.rule = true)
    (home : SheetId) : u.companionOf? home e = v.companionOf? home e := by
  have hnone : ∀ id, v.get? id = none → u.get? id = none := by
    intro id hid
    cases ht : u.get? id with
    | none => rfl
    | some t =>
      obtain ⟨s, hs, -⟩ := h.sheet id t ht
      cases hid.symm.trans hs
  unfold companionOf?
  rw [h.grown.data e.rule hlive]
  cases hs : v.get? home with
  | none => simp only [hnone home hs, Option.bind_eq_bind, Option.bind_none]
  | some s =>
    obtain ⟨t, ht, hst⟩ := h.get?_of_left hs
    cases hr : v.get? e.derived with
    | none =>
      simp only [ht, hnone e.derived hr, Option.bind_eq_bind, Option.bind_none, Option.bind_some]
    | some r =>
      obtain ⟨q, hq, hrq⟩ := h.get?_of_left hr
      simp only [ht, hq, Option.bind_eq_bind, Option.bind_some, companionParams, hrq.file,
        Sheet.dir?_congr hst.file]

theorem Site.of_accompanied (hs : v.Site d e home container) (h : Accompanied v d ran u)
    (hv : v.Tidy) (hlive : v.doc.contains e.rule = true) : u.Site d e home container := by
  have hsheet := h.sheetOf?_base hv hlive
  cases hs with
  | front himporter hof hne ht =>
    obtain ⟨t, ht', hst⟩ := h.get?_of_left ht
    rw [← hst.root]
    exact .front (hsheet.trans himporter) hof hne ht'
  | beside himporter hown hparent =>
    exact .beside (hsheet.trans himporter) hown (h.grown.parent?_eq_some hparent)

namespace Parted

variable (h : Parted w settings d v u) (hw : w.Recorded)
include h hw

/-- The imports of a donor are the same throughout. -/
theorem authoredImports_eq {donor derived : SheetId} (hp : (donor, derived) ∈ d.pairs) :
    ∃ s, w.get? donor = some s ∧ v.get? donor = some s ∧ w.authoredImports donor = s.inbound ∧
      v.authoredImports donor = s.inbound ∧ u.authoredImports donor = s.inbound := by
  obtain ⟨s, hs⟩ := get?_isSome.mpr (h.lt_size hp)
  have hv := h.divided.original_root hs
  have hb := hosting hw h.divided h.donors
  have hpaired := paired hw h.divided h.donors
  have hrules := hpaired.rules donor derived s hp hv
  have hno : ∀ rule, ¬ v.Edges d.pairs donor rule := by
    rintro rule ⟨other, s', ho, -⟩
    exact hpaired.apart donor derived other hp ho
  exact ⟨s, hs, hv, hw.authoredImports_eq hs,
    (accompanied_refl (d := d) hb.tidy).authoredImports hb.origin hv hrules fun _ hd => hd,
    h.accompanied.authoredImports hb.origin hv hrules hno⟩

theorem errands_eq :
    v.errands d.pairs = w.errands d.pairs ∧ u.errands d.pairs = w.errands d.pairs := by
  have hcongr : ∀ x : Workspace, (∀ donor derived, (donor, derived) ∈ d.pairs →
      x.authoredImports donor = w.authoredImports donor) →
      x.errands d.pairs = w.errands d.pairs := by
    intro x hx
    exact List.flatMap_congr fun pair hp => by simp only [hx pair.1 pair.2 hp]
  refine ⟨hcongr v fun donor derived hp => ?_, hcongr u fun donor derived hp => ?_⟩ <;>
  · obtain ⟨s, -, -, hwrules, hvrules, hurules⟩ := h.authoredImports_eq hw hp
    simp [hwrules, hvrules, hurules]

/-- Every errand is one for an import that can be read. -/
theorem exists_awaits {e : Errand} (he : e ∈ v.errands d.pairs) :
    ∃ target, Awaits v d e.donor e.derived target e.rule := by
  obtain ⟨hp, hrule⟩ := mem_errands.mp he
  obtain ⟨s, hs, hv, -, hvrules, -⟩ := h.authoredImports_eq hw hp
  have hpaired := paired hw h.divided h.donors
  obtain ⟨t, ht, hfile⟩ := hpaired.derived e.donor e.derived hp
  obtain ⟨target, htarget⟩ := Option.isSome_iff_exists.mp hfile
  rw [hvrules] at hrule
  exact ⟨target, hp, ⟨s, hv, hrule⟩, hpaired.rules e.donor e.derived s hp hv e.rule hrule, t, ht,
    htarget⟩

theorem live_rule {e : Errand} (he : e ∈ v.errands d.pairs) : v.doc.contains e.rule = true := by
  obtain ⟨target, hawaits⟩ := h.exists_awaits hw he
  obtain ⟨n, -, -, hn, -⟩ := hawaits.readable.readable
  exact contains_iff_get?.mpr ⟨n, hn⟩

theorem attended : Attended v d (v.errands d.pairs) u := by
  have hb := hosting hw h.divided h.donors
  have hrun := (accompanied_refl (d := d) hb.tidy).run (Attended v d) hb
    (fun h ha hs => ha.step h hs hb.tidy) attended_refl fun e he => h.exists_awaits hw he
  rwa [← h.run] at hrun

theorem fronted : Fronted v d (v.errands d.pairs) u := by
  have hb := hosting hw h.divided h.donors
  have hrun := (accompanied_refl (d := d) hb.tidy).run (Fronted v d) hb
    (fun h hf hs => hf.step h hb hs) fronted_refl fun e he => h.exists_awaits hw he
  rwa [← h.run] at hrun

end Parted

end Workspace

end Strata
