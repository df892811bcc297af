import Strata.Proofs.Split.Layout

/-! Every import of a donor has its companion, and one only.

What errands leave (`Attended`) is said here of the workspace after the split alone: where the
companion of an import belongs (`Site`), what it reads (`companionOf?`), and that there is one such
node there, which the derived stylesheet knows (`Escort`). -/
namespace Strata.Workspace

open Forest

variable {w v u : Workspace} {settings : Settings} {d : Derivations} {e : Errand} {home : SheetId}
  {container companion : NodeId}

/-- A child that is an import that was added, with some parameters. -/
def AddedBelow (doc : Document) (container : NodeId) (params : Option String) (c : NodeId) : Prop :=
  c ∈ doc.children container ∧
    ∃ n, doc.get? c = some n ∧ n.isAdded = true ∧ n.isImportRule = true ∧ n.params? = params

/-- An import that was added remembers an import of a donor: the donor and a specifier of it. -/
def Remembers (u : Workspace) (d : Derivations) (companion : NodeId) : Prop :=
  ∃ n e params specifier, u.doc.get? companion = some n ∧ e ∈ u.errands d.pairs ∧
    (u.doc.get? e.rule).bind Node.params? = some params ∧ Css.specifier? params = some specifier ∧
    n.origin = some ⟨e.donor, specifier⟩

/-- `companion` is the companion of an import. -/
structure Escort (u : Workspace) (d : Derivations) (e : Errand) (home : SheetId)
    (container companion : NodeId) : Prop where
  site : u.Site d e home container
  only : ∃ node, u.companionOf? home e = some node ∧
    ∀ c, AddedBelow u.doc container node.params? c ↔ c = companion
  points : ∃ t, u.get? e.derived = some t ∧ companion ∈ t.inbound ∧ home ∈ t.parents
  remembers : u.Remembers d companion
  /-- At the top of a stylesheet derived from the importer it is among the imports in front. -/
  leading : ∀ importer, u.sheetOf? e.rule = some importer → d.of? importer = some home →
    companion ∈ (u.doc.children container).takeWhile fun c =>
      (u.doc.get? c).any Node.isImportRule

/-- Every import of every donor has a companion, and apart from these only roots are new. -/
structure Escorted (w : Workspace) (d : Derivations) (u : Workspace) : Prop where
  escort : ∀ e ∈ u.errands d.pairs, ∃ home container companion, u.Escort d e home container companion
  created : ∀ x, u.doc.contains x = true → w.doc.contains x = false →
    (∃ donor derived t, (donor, derived) ∈ d.pairs ∧ u.get? derived = some t ∧ t.root = x) ∨
    ∃ e ∈ u.errands d.pairs, ∃ home container, u.Escort d e home container x

/-- A companion remembers the import that it was made for. -/
theorem origin_companionOf? {node : Node} (h : v.companionOf? home e = some node) :
    ∃ params specifier, (v.doc.get? e.rule).bind Node.params? = some params ∧
      Css.specifier? params = some specifier ∧ node.origin = some ⟨e.donor, specifier⟩ := by
  obtain ⟨_, _, _, written, specifier, -, -, -, hwritten, hspecifier, rfl⟩ :=
    companionOf?_eq_some.mp h
  exact ⟨written, specifier, hwritten, hspecifier, rfl⟩

namespace Parted

variable (h : Parted w settings d v u) (hw : w.Recorded)
include h hw

/-- What is new and reads as an import was added, below any node. -/
theorem addedBelow_iff (ha : Attended v d (v.errands d.pairs) u) {node : Node}
    (hc : u.doc.parent? companion = some container) (hnew : v.doc.contains companion = false)
    (hparams : (u.doc.get? companion).bind Node.params? = node.params?) (c : NodeId) :
    AddedBelow u.doc container node.params? c ↔ c = companion := by
  have hwf := h.accompanied.tidy.wellFormed
  constructor
  · rintro ⟨hm, n, hn, hadded, -, hsame⟩
    have hparent := (hwf.listed c container).mp hm
    have hcnew : v.doc.contains c = false := by
      by_contra hold
      rw [Bool.not_eq_false] at hold
      rw [h.accompanied.grown.data c hold] at hn
      rw [Node.isAdded, h.divided.origin hw.origin c n hn] at hadded
      cases hadded
    refine ha.sole container c companion hparent hc hcnew hnew ?_
    rw [hparams, hn]
    exact hsame
  · rintro rfl
    obtain ⟨⟨n, hn, himport, hadded⟩, -⟩ := h.accompanied.added c (contains_of_parent? hc) hnew
    rw [hn] at hparams
    exact ⟨(hwf.listed c container).mpr hc, n, hn, hadded, himport, hparams⟩

/-- A new import is the companion of some errand. -/
theorem remembers_errand (hnew : v.doc.contains companion = false)
    (hlive : u.doc.contains companion = true) : u.Remembers d companion := by
  obtain ⟨e, he, home, container, -, -, hreads⟩ := (h.attended hw).created companion hlive hnew
  obtain ⟨n, hn⟩ := contains_iff_get?.mp hlive
  rw [← h.accompanied.companionOf?_eq (h.live_rule hw he) home] at hreads
  obtain ⟨params, specifier, hparams, hspecifier, horigin⟩ := origin_companionOf? (hreads.trans hn)
  rw [(h.errands_eq hw).1, ← (h.errands_eq hw).2] at he
  exact ⟨n, e, params, specifier, hn, he, hparams, hspecifier, horigin⟩

variable (hat : Text.sameCaseless settings.atRule "import" = false)
include hat

theorem leading (hsite : v.Site d e home container) (hc : u.doc.parent? companion = some container)
    (hnew : v.doc.contains companion = false) {importer : SheetId}
    (himporter : v.sheetOf? e.rule = some importer) (hof : d.of? importer = some home) :
    companion ∈ (u.doc.children container).takeWhile fun c =>
      (u.doc.get? c).any Node.isImportRule := by
  cases hsite with
  | @front _ _ t _ _ _ ht =>
    have hle := (h.divided.pair importer home ((of?_eq_some h.donors).mp hof)).1
    obtain ⟨t', ht', hst⟩ := h.accompanied.get?_of_left ht
    obtain ⟨line, hline, -⟩ := h.exists_line hw hat hle ht'
    rw [hst.root] at hline
    rw [hline.leading h.accompanied h.divided.tidy (h.importless hw hat hle ht)]
    have hm := (h.accompanied.tidy.wellFormed.listed companion t.root).mpr hc
    rw [hline.children] at hm
    refine (List.mem_append.mp hm).resolve_right fun hold => ?_
    rw [contains_of_parent? ((h.divided.tidy.wellFormed.listed _ _).mp hold)] at hnew
    cases hnew
  | beside hhome hown _ =>
    -- The importer would be derived from itself.
    rw [himporter] at hhome
    cases hhome
    have hp := (of?_eq_some h.donors).mp hof
    exact absurd (h.lt_size hp) (Nat.not_lt.mpr (h.divided.pair _ _ hp).1)

theorem exists_escort {e : Errand} (he : e ∈ v.errands d.pairs) :
    ∃ home container companion node, v.Site d e home container ∧
      v.companionOf? home e = some node ∧ v.doc.contains companion = false ∧
      u.doc.parent? companion = some container ∧
      (u.doc.get? companion).bind Node.params? = node.params? ∧
      u.Escort d e home container companion := by
  have ha := h.attended hw
  have hlive := h.live_rule hw he
  obtain ⟨home, container, node, c, t, hsite, hnode, hnew, hparent, hparams, ht, hc, hm⟩ :=
    ha.served e he
  have hcompanion := h.accompanied.companionOf?_eq hlive home
  refine ⟨home, container, c, node, hsite, hnode, hnew, hparent, hparams,
    hsite.of_accompanied h.accompanied h.divided.tidy hlive,
    ⟨node, hcompanion.trans hnode, h.addedBelow_iff hw ha hparent hnew hparams⟩, ⟨t, ht, hc, hm⟩,
    h.remembers_errand hw hnew (contains_of_parent? hparent), fun importer himporter hof => ?_⟩
  rw [h.accompanied.sheetOf?_base h.divided.tidy hlive] at himporter
  exact h.leading hw hat hsite hparent hnew himporter hof

theorem escorted : Escorted w d u where
  escort e he := by
    rw [(h.errands_eq hw).2, ← (h.errands_eq hw).1] at he
    obtain ⟨home, container, companion, node, -, -, -, -, -, hescort⟩ := h.exists_escort hw hat he
    exact ⟨home, container, companion, hescort⟩
  created x hx hn := by
    cases hv : v.doc.contains x with
    | true =>
      have hlive := ((h.divided.live x).mp hv).resolve_left fun hold => by rw [hn] at hold; cases hold
      obtain ⟨id, t, hid, ht, hroot⟩ := hlive
      obtain ⟨donor, hp⟩ := h.beside.donor id hid (Workspace.lt_size ht)
      obtain ⟨t', ht', hst⟩ := h.accompanied.get?_of_left ht
      exact Or.inl ⟨donor, id, t', hp, ht', hst.root.trans hroot⟩
    | false =>
      have ha := h.attended hw
      obtain ⟨e, he, home, container, hsite, hparent, hreads⟩ := ha.created x hx hv
      obtain ⟨home', container', c, node, hsite', hnode, hnew, hparent', hparams, hescort⟩ :=
        h.exists_escort hw hat he
      obtain ⟨rfl, rfl⟩ := hsite.unique hsite'
      have heq : c = x := by
        refine ha.sole _ c x hparent' hparent hnew hv ?_
        rw [hparams, ← hreads, hnode, Option.bind_some]
      rw [(h.errands_eq hw).1, ← (h.errands_eq hw).2] at he
      exact Or.inr ⟨e, he, home', container', heq ▸ hescort⟩

end Parted

/-- **Every import of a donor has one companion where it belongs, and nothing else is created but the
roots of derived stylesheets.** -/
theorem escorted_by_split (sources : List (Option FilePath × String)) (resolve : Resolution)
    (base : FilePath) (settings : Settings)
    (hat : Text.sameCaseless settings.atRule "import" = false) {table : List (List SheetId)}
    {w : Workspace}
    (hl : ((filled sources).connect resolve base).1.inheritLayers = .ok (table, w)) :
    ∃ u d, w.split settings = .ok (u, d) ∧ Escorted w d u := by
  have hw := analysed (fresh_filled sources) hl
  obtain ⟨v, u, d, hsplit, h⟩ := exists_split hw settings
  exact ⟨u, d, hsplit, h.escorted hw hat⟩

/-- The two imports of the root share one companion there, and the third import, which stands in a
donor, has its companion at the top of what that is split into. -/
theorem escorted_shared : ∃ table w u d, ((filled sharedTop).connect
      (.known (sharedTop.filterMap Prod.fst)) ⟨"/p"⟩).1.inheritLayers = .ok (table, w) ∧
    w.split {} = .ok (u, d) ∧ d.pairs = [(1, 4), (2, 4), (3, 5)] ∧
    (u.errands d.pairs).map (fun e => (u.sheetOf? e.rule).bind fun importer => d.of? importer) =
      [none, none, some 4] ∧
    Escorted w d u := by
  have hrun : splitsWith sharedTop (.known (sharedTop.filterMap Prod.fst)) ⟨"/p"⟩ {}
      (fun _ u d => d.pairs == [(1, 4), (2, 4), (3, 5)] &&
        (u.errands d.pairs).map (fun e => (u.sheetOf? e.rule).bind fun importer => d.of? importer) ==
          [none, none, some 4]) = true := by decide +kernel
  obtain ⟨table, w, u, d, hl, hsplit, hcheck⟩ := exists_of_splitsWith hrun
  rw [Bool.and_eq_true, beq_iff_eq, beq_iff_eq] at hcheck
  obtain ⟨u', d', hsplit', h⟩ := escorted_by_split _ _ ⟨"/p"⟩ {} (by decide +kernel) hl
  cases hsplit.symm.trans hsplit'
  exact ⟨table, w, u, d, hl, hsplit, hcheck.1, hcheck.2, h⟩

end Strata.Workspace
