import Mathlib.Algebra.GroupWithZero.Nat
import Strata.Proofs.Analysis
import Strata.Proofs.Ordered

/-! The import graph as a relation.

`Points` says what an import means: its specifier is resolved from where the
importer is, and the path is one that a stylesheet holds. Following all imports
of a workspace that some texts filled records this relation and nothing else,
counts every outermost import once, and finds nothing new a second time
(`connected_filled`). -/
namespace Strata

/-! ### Recording an import -/

namespace Sheet

/-- The links are recorded in order, and the layers are those that imports name. -/
structure Settled (s : Sheet) : Prop where
  inbound : s.inbound.Pairwise (NodeId.before · · = true)
  parents : s.parents.Pairwise fun a b => decide (a < b) = true
  namedLayers : s.namedLayers.Pairwise fun a b => decide (a < b) = true
  layers : s.layers = s.namedLayers

/-- One more import is recorded, of a stylesheet that the import names layers for. -/
def link (s : Sheet) (parent : SheetId) (rule : NodeId) (layers : List String) : Sheet :=
  layers.foldl Sheet.nameLayer ((s.addInbound rule).addParent parent)

theorem Unlinked.settled {s : Sheet} (h : s.Unlinked) : s.Settled := by
  constructor <;> simp [h.inbound, h.parents, h.namedLayers, h.layers]

namespace Settled

variable {s : Sheet} (h : s.Settled) {parent : SheetId} {rule : NodeId} {layers : List String}
include h

theorem nameLayer (layer : String) : (s.nameLayer layer).Settled where
  inbound := h.inbound
  parents := h.parents
  namedLayers := Ordered.pairwise_insert Ordered.total_lt_string h.namedLayers layer
  layers := by
    rw [Sheet.nameLayer, h.layers]

theorem link : (s.link parent rule layers).Settled := by
  have hnamed : ∀ {t : Sheet}, t.Settled → (layers.foldl Sheet.nameLayer t).Settled := by
    induction layers with
    | nil => exact id
    | cons layer layers ih => exact fun ht => ih (ht.nameLayer layer)
  exact hnamed ⟨Ordered.pairwise_insert NodeId.total_before h.inbound rule,
    Ordered.pairwise_insert Ordered.total_lt_nat h.parents parent, h.namedLayers, h.layers⟩

/-- An import that is recorded is not recorded again. -/
theorem link_eq_self (hrule : rule ∈ s.inbound) (hparent : parent ∈ s.parents)
    (hlayers : ∀ l ∈ layers, l ∈ s.namedLayers) : s.link parent rule layers = s := by
  have hin : s.addInbound rule = s := by
    rw [addInbound, Ordered.insert_eq_self NodeId.total_before h.inbound hrule]
  have hup : s.addParent parent = s := by
    rw [addParent, Ordered.insert_eq_self Ordered.total_lt_nat h.parents hparent]
  rw [Sheet.link, hin, hup]
  induction layers with
  | nil => rfl
  | cons layer layers ih =>
    have hlayer := hlayers layer List.mem_cons_self
    have hnamed : s.nameLayer layer = s := by
      have hself := Ordered.insert_eq_self Ordered.total_lt_string h.namedLayers hlayer
      have hself' := h.layers.symm ▸ hself
      rw [Sheet.nameLayer, hself, hself']
    rw [List.foldl_cons, hnamed]
    exact ih fun l hl => hlayers l (List.mem_cons_of_mem _ hl)

end Settled

end Sheet

/-! ### Counting -/

def Destination.isSheet : Destination → Bool
  | .sheet .. => true
  | _ => false

namespace DestinationCounts

def total (c : DestinationCounts) : Nat := c.sheet + c.nowhere + c.outside + c.unreadable

theorem total_count (c : DestinationCounts) (d : Destination) : (c.count d).total = c.total + 1 := by
  cases d <;> simp only [count, total] <;> omega

theorem sheet_count (c : DestinationCounts) (d : Destination) :
    (c.count d).sheet = c.sheet + if d.isSheet then 1 else 0 := by
  cases d <;> rfl

theorem total_foldl (c : DestinationCounts) (found : List Destination) :
    (found.foldl count c).total = c.total + found.length := by
  induction found generalizing c with
  | nil => rfl
  | cons d found ih =>
    rw [List.foldl_cons, ih, total_count, List.length_cons]
    omega

theorem sheet_foldl (c : DestinationCounts) (found : List Destination) :
    (found.foldl count c).sheet = c.sheet + found.countP Destination.isSheet := by
  induction found generalizing c with
  | nil => rfl
  | cons d found ih =>
    rw [List.foldl_cons, ih, sheet_count, List.countP_cons]
    omega

end DestinationCounts

namespace Workspace

open Forest

variable {w v : Workspace} {resolve : Resolution} {base : FilePath}

/-! ### All imports in a row -/

/-- An outermost import, the stylesheet it is in, and the directory it leads away from. -/
structure Outgoing where
  source : SheetId
  dir : FilePath
  rule : NodeId

/-- The outermost imports of one stylesheet. -/
def outgoingOf (w : Workspace) (base : FilePath) (id : SheetId) : List Outgoing :=
  match w.get? id with
  | none => []
  | some s => (w.doc.imports s.root).map fun rule => ⟨id, s.dir?.getD base, rule⟩

/-- The outermost imports of all stylesheets. -/
def outgoing (w : Workspace) (base : FilePath) : List Outgoing := w.ids.flatMap (w.outgoingOf base)

def Outgoing.destination (w : Workspace) (resolve : Resolution) (o : Outgoing) : Destination :=
  w.destination resolve o.dir o.rule

def Outgoing.follow (resolve : Resolution) (state : Workspace × DestinationCounts) (o : Outgoing) :
    Workspace × DestinationCounts :=
  followImport resolve o.source o.dir state o.rule

theorem mem_outgoingOf {id : SheetId} {o : Outgoing} : o ∈ w.outgoingOf base id ↔
    ∃ s, w.get? id = some s ∧ o.source = id ∧ o.dir = s.dir?.getD base ∧
      o.rule ∈ w.doc.imports s.root := by
  unfold outgoingOf
  split
  · next hnone => simp [hnone]
  · next s hs =>
    rw [List.mem_map]
    constructor
    · rintro ⟨rule, hrule, rfl⟩
      exact ⟨s, hs, rfl, rfl, hrule⟩
    · rintro ⟨t, ht, rfl, hdir, hrule⟩
      cases hs.symm.trans ht
      exact ⟨o.rule, hrule, by rw [← hdir]⟩

theorem mem_outgoing {o : Outgoing} : o ∈ w.outgoing base ↔
    ∃ s, w.get? o.source = some s ∧ o.dir = s.dir?.getD base ∧ o.rule ∈ w.doc.imports s.root := by
  rw [outgoing, List.mem_flatMap]
  constructor
  · rintro ⟨id, -, ho⟩
    obtain ⟨s, hs, rfl, hdir, hrule⟩ := mem_outgoingOf.mp ho
    exact ⟨s, hs, hdir, hrule⟩
  · rintro ⟨s, hs, hdir, hrule⟩
    exact ⟨o.source, List.mem_range.mpr (lt_size hs), mem_outgoingOf.mpr ⟨s, hs, rfl, hdir, hrule⟩⟩

theorem SameButLinks.outgoingOf (h : SameButLinks w v) (id : SheetId) :
    v.outgoingOf base id = w.outgoingOf base id := by
  unfold Workspace.outgoingOf
  cases ht : v.get? id with
  | none =>
    cases hs : w.get? id with
    | none => rfl
    | some s =>
      obtain ⟨t, ht', -⟩ := h.get?_of_left hs
      cases ht.symm.trans ht'
  | some t =>
    obtain ⟨s, hs, hst⟩ := h.sheet id t ht
    have hdir : t.dir? = s.dir? := Sheet.dir?_congr hst.file
    rw [hs]
    simp only [h.doc, hst.root, hdir]

theorem SameButLinks.outgoing (h : SameButLinks w v) : v.outgoing base = w.outgoing base := by
  unfold Workspace.outgoing ids
  rw [h.size]
  exact List.flatMap_congr fun id _ => h.outgoingOf id

theorem sameButLinks_keepImport (source : SheetId) (rule : NodeId) (found : Destination) :
    SameButLinks v (v.keepImport source rule found) := by
  cases found with
  | sheet target layers =>
    exact SameButLinks.modify v target fun s => (Sheet.SameButLinks.addInbound s rule).trans <|
      (Sheet.SameButLinks.addParent _ source).trans (Sheet.SameButLinks.foldl_nameLayer _ layers)
  | _ => exact SameButLinks.refl v

section follow

variable {state : Workspace × DestinationCounts} (h : SameButLinks w state.1)
include h

theorem sameButLinks_follow (resolve : Resolution) (row : List Outgoing) :
    SameButLinks w (row.foldl (Outgoing.follow resolve) state).1 := by
  induction row generalizing state with
  | nil => exact h
  | cons o row ih => exact ih (h.trans (sameButLinks_keepImport ..))

theorem counts_follow (resolve : Resolution) (row : List Outgoing) :
    (row.foldl (Outgoing.follow resolve) state).2 =
      (row.map (Outgoing.destination w resolve)).foldl DestinationCounts.count state.2 := by
  induction row generalizing state with
  | nil => rfl
  | cons o row ih =>
    have hstep : (Outgoing.follow resolve state o).2 =
        state.2.count (o.destination w resolve) := by
      rw [Outgoing.destination, ← h.destination]
      rfl
    rw [List.foldl_cons, List.map_cons, List.foldl_cons, ← hstep]
    exact ih (h.trans (sameButLinks_keepImport ..))

/-- One stylesheet after another is followed: their imports are known from the start. -/
theorem followImports_eq_foldl (resolve : Resolution) (sources : List SheetId) :
    sources.foldl (followImports resolve base) state =
      (sources.flatMap (w.outgoingOf base)).foldl (Outgoing.follow resolve) state := by
  induction sources generalizing state with
  | nil => rfl
  | cons id sources ih =>
    have hstep : followImports resolve base state id =
        (w.outgoingOf base id).foldl (Outgoing.follow resolve) state := by
      rw [← h.outgoingOf]
      unfold followImports Workspace.outgoingOf
      cases state.1.get? id with
      | none => rfl
      | some s =>
        rw [List.foldl_map]
        rfl
    rw [List.foldl_cons, hstep, List.flatMap_cons, List.foldl_append]
    exact ih (sameButLinks_follow h resolve _)

end follow

theorem connect_eq_foldl (w : Workspace) (resolve : Resolution) (base : FilePath) :
    w.connect resolve base = (w.outgoing base).foldl (Outgoing.follow resolve) (w, {}) := by
  have hstart : SameButLinks w (w, ({} : DestinationCounts)).1 := SameButLinks.refl w
  exact followImports_eq_foldl hstart resolve w.ids

/-- The counts are those of the places that the imports lead to. -/
theorem counts_connect (w : Workspace) (resolve : Resolution) (base : FilePath) :
    (w.connect resolve base).2 =
      ((w.outgoing base).map (Outgoing.destination w resolve)).foldl DestinationCounts.count {} := by
  rw [connect_eq_foldl]
  exact counts_follow (SameButLinks.refl w) resolve _

theorem settled_connect (h : ∀ id s, w.get? id = some s → s.Settled) (resolve : Resolution)
    (base : FilePath) {id : SheetId} {t : Sheet} (ht : (w.connect resolve base).1.get? id = some t) :
    t.Settled := by
  have hrun : ∀ (row : List Outgoing) (state : Workspace × DestinationCounts),
      (∀ id s, state.1.get? id = some s → s.Settled) →
      ∀ id s, (row.foldl (Outgoing.follow resolve) state).1.get? id = some s → s.Settled := by
    intro row
    induction row with
    | nil => exact fun _ hstate => hstate
    | cons o row ih =>
      refine fun state hstate => ih _ fun id s hs => ?_
      rw [Outgoing.follow, followImport] at hs
      cases hfound : state.1.destination resolve o.dir o.rule with
      | sheet target layers =>
        simp only [hfound, keepImport, get?_modify] at hs
        split at hs
        · obtain ⟨before, hbefore, rfl⟩ := Option.map_eq_some_iff.mp hs
          exact (hstate id before hbefore).link
        · exact hstate id s hs
      | _ =>
        simp only [hfound, keepImport] at hs
        exact hstate id s hs
  rw [connect_eq_foldl] at ht
  exact hrun _ (w, {}) h id t ht

/-! ### A second time -/

theorem modify_eq_self {id : SheetId} {change : Sheet → Sheet}
    (h : ∀ s, w.get? id = some s → change s = s) : w.modify id change = w := by
  have hsheets : w.sheets.modify id change = w.sheets := by
    refine Array.ext_getElem? fun x => ?_
    show (w.modify id change).get? x = w.get? x
    rw [get?_modify]
    split
    · next hx =>
      subst hx
      cases hs : w.get? x with
      | none => rfl
      | some s => rw [Option.map_some, h s hs]
    · rfl
  rw [modify, hsheets]

/-- Where all edges are recorded, following the imports changes nothing. -/
theorem connect_fst_eq_self (hl : Linked w v (w.Edge resolve base))
    (hv : ∀ id t, v.get? id = some t → t.Settled) : (v.connect resolve base).1 = v := by
  have hkept : ∀ o ∈ v.outgoing base,
      v.keepImport o.source o.rule (o.destination v resolve) = v := by
    intro o ho
    rw [hl.same.outgoing, mem_outgoing] at ho
    obtain ⟨s, hs, hdir, hrule⟩ := ho
    rw [Outgoing.destination, hl.same.destination, hdir]
    cases hfound : w.destination resolve (s.dir?.getD base) o.rule with
    | sheet target layers =>
      have hedge : w.Edge resolve base o.source target o.rule layers := ⟨s, hs, hrule, hfound⟩
      refine modify_eq_self fun t ht => (hv target t ht).link_eq_self ?_ ?_ fun l hmem => ?_
      · exact (hl.inbound target t ht o.rule).mpr ⟨_, _, hedge⟩
      · exact (hl.parents target t ht o.source).mpr ⟨_, _, hedge⟩
      · exact (hl.named target t ht l).mpr ⟨_, _, _, hedge, hmem⟩
    | _ => rfl
  have hrun : ∀ (row : List Outgoing) (counts : DestinationCounts),
      (∀ o ∈ row, v.keepImport o.source o.rule (o.destination v resolve) = v) →
      (row.foldl (Outgoing.follow resolve) (v, counts)).1 = v := by
    intro row
    induction row with
    | nil => exact fun _ _ => rfl
    | cons o row ih =>
      intro counts hrow
      have hstep : Outgoing.follow resolve (v, counts) o =
          (v, counts.count (o.destination v resolve)) :=
        Prod.ext (hrow o List.mem_cons_self) rfl
      rw [List.foldl_cons, hstep]
      exact ih _ fun o' ho' => hrow o' (List.mem_cons_of_mem _ ho')
  rw [connect_eq_foldl]
  exact hrun _ {} hkept

/-! ### The relation -/

/-- An import in the tree of a stylesheet that is within no other import. -/
structure OutermostImport (w : Workspace) (s : Sheet) (rule : NodeId) : Prop where
  within : w.doc.Within s.root rule
  isImport : (w.doc.get? rule).any Node.isImportRule = true
  outermost : ∀ a, w.doc.Below a rule → (w.doc.get? a).any Node.isImportRule = false

/-- An outermost import of `x` with these parameters has a specifier that is resolved, from the directory
of `x` or else from `base`, to a path that `y` holds. -/
def Points (w : Workspace) (resolve : Resolution) (base : FilePath) (x y : SheetId) (rule : NodeId)
    (params : String) : Prop :=
  ∃ s specifier path, w.get? x = some s ∧ w.OutermostImport s rule ∧
    (w.doc.get? rule).bind Node.params? = some params ∧ Css.specifier? params = some specifier ∧
    resolve specifier (s.dir?.getD base) = some path ∧ w.holderOf? path = some y

theorem destination_eq_sheet {dir : FilePath} {rule : NodeId} {y : SheetId} {layers : List String} :
    w.destination resolve dir rule = .sheet y layers ↔ ∃ params specifier path,
      (w.doc.get? rule).bind Node.params? = some params ∧ Css.specifier? params = some specifier ∧
      resolve specifier dir = some path ∧ w.holderOf? path = some y ∧
      layers = Css.layerNames params := by
  unfold destination
  constructor
  · intro hfound
    split at hfound
    · cases hfound
    · next params hparams =>
      split at hfound
      · cases hfound
      · next specifier hspecifier =>
        split at hfound
        · cases hfound
        · next path hpath =>
          split at hfound
          · cases hfound
          · next target htarget =>
            cases hfound
            exact ⟨params, specifier, path, hparams, hspecifier, hpath, htarget, rfl⟩
  · rintro ⟨params, specifier, path, hparams, hspecifier, hpath, htarget, rfl⟩
    simp only [hparams, hspecifier, hpath, htarget]

section tidy

variable (h : w.Tidy)
include h

theorem mem_imports {id : SheetId} {s : Sheet} (hs : w.get? id = some s) {rule : NodeId} :
    rule ∈ w.doc.imports s.root ↔ w.OutermostImport s rule := by
  have hroot : (w.doc.get? s.root).any Node.isImportRule = false := by
    obtain ⟨n, hn⟩ := contains_iff_get?.mp (h.live hs)
    rw [hn]
    exact isImportRule_of_isRoot ((Document.Tidy.form h s.root n hn).mpr (root_mem_roots hs))
  constructor
  · intro hrule
    obtain ⟨hbelow, himport, hno⟩ := h.wellFormed.mem_outermost.mp hrule
    refine ⟨hbelow.within, himport, fun a ha => ?_⟩
    rcases within_iff.mp (Within.of_top hbelow.within (h.parent?_root hs) ha.within) with rfl | hra
    · exact hroot
    · exact hno a hra ha
  · intro hrule
    refine h.wellFormed.mem_outermost.mpr ⟨?_, hrule.isImport, fun a _ ha => hrule.outermost a ha⟩
    refine (within_iff.mp hrule.within).resolve_left fun heq => ?_
    have himport := hrule.isImport
    rw [heq, hroot] at himport
    cases himport

theorem edge_iff_points {x y : SheetId} {rule : NodeId} {layers : List String} :
    w.Edge resolve base x y rule layers ↔
      ∃ params, w.Points resolve base x y rule params ∧ layers = Css.layerNames params := by
  constructor
  · rintro ⟨s, hs, hrule, hfound⟩
    obtain ⟨params, specifier, path, hparams, hspecifier, hpath, htarget, hlayers⟩ :=
      destination_eq_sheet.mp hfound
    exact ⟨params, ⟨s, specifier, path, hs, (mem_imports h hs).mp hrule, hparams, hspecifier, hpath,
      htarget⟩, hlayers⟩
  · rintro ⟨params, ⟨s, specifier, path, hs, hrule, hparams, hspecifier, hpath, htarget⟩, hlayers⟩
    exact ⟨s, hs, (mem_imports h hs).mpr hrule, destination_eq_sheet.mpr
      ⟨params, specifier, path, hparams, hspecifier, hpath, htarget, hlayers⟩⟩

theorem sheetOf?_of_outermostImport {id : SheetId} {s : Sheet} (hs : w.get? id = some s)
    {rule : NodeId} (hrule : w.OutermostImport s rule) : w.sheetOf? rule = some id :=
  h.sheetOf?_eq_some.mpr ⟨h.live_within hs hrule.within, s, hs, hrule.within⟩

/-- No import is met twice. -/
theorem nodup_outgoing (base : FilePath) : ((w.outgoing base).map Outgoing.rule).Nodup := by
  rw [outgoing, List.map_flatMap, List.nodup_flatMap]
  refine ⟨fun id _ => ?_, List.nodup_range.imp fun {i j} hij rule hi hj => hij ?_⟩
  · unfold outgoingOf
    split
    · exact List.nodup_nil
    · rw [List.map_map]
      exact (List.map_id' _).symm ▸ h.wellFormed.nodup_outermost _ _
  · have hsheet : ∀ {id}, rule ∈ (w.outgoingOf base id).map Outgoing.rule →
        w.sheetOf? rule = some id := by
      intro id hmem
      obtain ⟨o, ho, rfl⟩ := List.mem_map.mp hmem
      obtain ⟨s, hs, -, -, hrule⟩ := mem_outgoingOf.mp ho
      exact sheetOf?_of_outermostImport h hs ((mem_imports h hs).mp hrule)
    exact Option.some.inj ((hsheet hi).symm.trans (hsheet hj))

end tidy

/-- What following the imports of `w` leaves and counts. -/
structure Connected (w v : Workspace) (resolve : Resolution) (base : FilePath)
    (counts : DestinationCounts) : Prop where
  same : SameButLinks w v
  inbound : ∀ y t, v.get? y = some t → ∀ rule,
    rule ∈ t.inbound ↔ ∃ x params, w.Points resolve base x y rule params
  parents : ∀ y t, v.get? y = some t → ∀ x,
    x ∈ t.parents ↔ ∃ rule ∈ t.inbound, v.sheetOf? rule = some x
  namedLayers : ∀ y t, v.get? y = some t → ∀ l,
    l ∈ t.namedLayers ↔ ∃ x rule params, w.Points resolve base x y rule params ∧
      l ∈ Css.layerNames params
  layers : ∀ y t, v.get? y = some t → t.layers = t.namedLayers
  once : ∀ y t, v.get? y = some t → t.inbound.Nodup ∧ t.parents.Nodup ∧ t.namedLayers.Nodup
  edges : counts.sheet = (v.sheets.toList.map fun t => t.inbound.length).sum
  all : ∃ rules : List NodeId, rules.Nodup ∧
    (∀ rule, rule ∈ rules ↔ ∃ id s, w.get? id = some s ∧ w.OutermostImport s rule) ∧
    counts.sheet + counts.nowhere + counts.outside + counts.unreadable = rules.length
  again : v.connect resolve base = (v, counts)

section connected

variable (h : w.Fresh) (hl : Linked w v (w.Edge resolve base))
  (hv : ∀ id t, v.get? id = some t → t.Settled)
include h hl hv

/-- No import is recorded twice. -/
theorem nodup_inbound : (v.sheets.toList.flatMap Sheet.inbound).Nodup := by
  rw [List.nodup_flatMap]
  constructor
  · intro t ht
    obtain ⟨id, hid⟩ := Array.mem_iff_getElem?.mp (Array.mem_toList_iff.mp ht)
    exact Ordered.nodup_of_pairwise NodeId.total_before (hv id t hid).inbound
  · rw [List.pairwise_iff_getElem]
    intro i j hi hj hij rule hri hrj
    have hget : ∀ {k} (hk : k < v.sheets.toList.length), v.get? k = some v.sheets.toList[k] := by
      intro k hk
      rw [get?, ← Array.getElem?_toList, List.getElem?_eq_getElem hk]
    obtain ⟨x, layers, he⟩ := (hl.inbound i _ (hget hi) rule).mp hri
    obtain ⟨x', layers', he'⟩ := (hl.inbound j _ (hget hj) rule).mp hrj
    exact Nat.ne_of_lt hij (he.unique h.tidy he').2

omit h hv in
theorem mem_inbound {rule : NodeId} : rule ∈ v.sheets.toList.flatMap Sheet.inbound ↔
    rule ∈ ((w.outgoing base).filter fun o => (o.destination w resolve).isSheet).map
      Outgoing.rule := by
  rw [List.mem_flatMap, List.mem_map]
  constructor
  · rintro ⟨t, ht, hrule⟩
    obtain ⟨y, hy⟩ := Array.mem_iff_getElem?.mp (Array.mem_toList_iff.mp ht)
    obtain ⟨x, layers, s, hs, hmem, hfound⟩ := (hl.inbound y t hy rule).mp hrule
    refine ⟨⟨x, s.dir?.getD base, rule⟩, List.mem_filter.mpr ⟨?_, ?_⟩, rfl⟩
    · exact mem_outgoing.mpr ⟨s, hs, rfl, hmem⟩
    · rw [Outgoing.destination, hfound]
      rfl
  · rintro ⟨o, ho, rfl⟩
    obtain ⟨ho, hsheet⟩ := List.mem_filter.mp ho
    obtain ⟨s, hs, hdir, hmem⟩ := mem_outgoing.mp ho
    rw [Outgoing.destination, hdir] at hsheet
    cases hfound : w.destination resolve (s.dir?.getD base) o.rule with
    | sheet y layers =>
      have hedge : w.Edge resolve base o.source y o.rule layers := ⟨s, hs, hmem, hfound⟩
      obtain ⟨t, ht, -⟩ := hedge.target
      obtain ⟨t', ht', -⟩ := hl.same.get?_of_left ht
      exact ⟨t', Array.mem_toList_iff.mpr (Array.mem_iff_getElem?.mpr ⟨y, ht'⟩),
        (hl.inbound y t' ht' o.rule).mpr ⟨_, _, hedge⟩⟩
    | _ =>
      rw [hfound] at hsheet
      cases hsheet

/-- As many imports are recorded as lead to a stylesheet. -/
theorem sheet_counts_connect : (w.connect resolve base).2.sheet =
    (v.sheets.toList.map fun t => t.inbound.length).sum := by
  have hcount : (w.connect resolve base).2.sheet =
      ((w.outgoing base).filter fun o => (o.destination w resolve).isSheet).length := by
    rw [counts_connect, DestinationCounts.sheet_foldl, List.countP_map, List.countP_eq_length_filter]
    exact Nat.zero_add _
  have hperm := (List.perm_ext_iff_of_nodup (nodup_inbound h hl hv)
    ((nodup_outgoing h.tidy base).sublist (List.filter_sublist.map _))).mpr fun _ => mem_inbound hl
  rw [hcount, ← List.length_flatMap, hperm.length_eq, List.length_map]

end connected

/-- Following the imports of a fresh workspace records the relation of its imports. -/
theorem connected_connect (h : w.Fresh) (resolve : Resolution) (base : FilePath) :
    Connected w (w.connect resolve base).1 resolve base (w.connect resolve base).2 := by
  have hl := linked_connect h resolve base
  have hv : ∀ id t, (w.connect resolve base).1.get? id = some t → t.Settled := fun _ _ =>
    settled_connect (fun id s hs => (h.sheet id s hs).settled) resolve base
  refine ⟨hl.same, fun y t ht rule => ?_, fun y t ht x => ?_, fun y t ht l => ?_,
    fun y t ht => (hv y t ht).layers, fun y t ht => ?_, sheet_counts_connect h hl hv,
    ⟨(w.outgoing base).map Outgoing.rule, nodup_outgoing h.tidy base, fun rule => ?_, ?_⟩, ?_⟩
  · rw [hl.inbound y t ht]
    simp only [edge_iff_points h.tidy]
    exact ⟨fun ⟨x, _, params, hleads, _⟩ => ⟨x, params, hleads⟩,
      fun ⟨x, params, hleads⟩ => ⟨x, _, params, hleads, rfl⟩⟩
  · rw [hl.parents y t ht]
    constructor
    · rintro ⟨rule, layers, he⟩
      exact ⟨rule, (hl.inbound y t ht rule).mpr ⟨x, layers, he⟩,
        (hl.same.sheetOf? rule).trans (he.sheetOf? h.tidy)⟩
    · rintro ⟨rule, hrule, hx⟩
      obtain ⟨x', layers, he⟩ := (hl.inbound y t ht rule).mp hrule
      rw [hl.same.sheetOf?, he.sheetOf? h.tidy] at hx
      cases hx
      exact ⟨rule, layers, he⟩
  · rw [hl.named y t ht]
    simp only [edge_iff_points h.tidy]
    constructor
    · rintro ⟨x, rule, _, ⟨params, hleads, rfl⟩, hmem⟩
      exact ⟨x, rule, params, hleads, hmem⟩
    · rintro ⟨x, rule, params, hleads, hmem⟩
      exact ⟨x, rule, _, ⟨params, hleads, rfl⟩, hmem⟩
  · exact ⟨Ordered.nodup_of_pairwise NodeId.total_before (hv y t ht).inbound,
      Ordered.nodup_of_pairwise Ordered.total_lt_nat (hv y t ht).parents,
      Ordered.nodup_of_pairwise Ordered.total_lt_string (hv y t ht).namedLayers⟩
  · rw [List.mem_map]
    constructor
    · rintro ⟨o, ho, rfl⟩
      obtain ⟨s, hs, -, hmem⟩ := mem_outgoing.mp ho
      exact ⟨o.source, s, hs, (mem_imports h.tidy hs).mp hmem⟩
    · rintro ⟨id, s, hs, hrule⟩
      exact ⟨⟨id, _, rule⟩, mem_outgoing.mpr ⟨s, hs, rfl, (mem_imports h.tidy hs).mpr hrule⟩, rfl⟩
  · have htotal : (w.connect resolve base).2.total = (w.outgoing base).length := by
      rw [counts_connect, DestinationCounts.total_foldl, List.length_map]
      exact Nat.zero_add _
    rw [List.length_map, ← htotal]
    rfl
  · refine Prod.ext (connect_fst_eq_self hl hv) ?_
    rw [counts_connect, hl.same.outgoing, counts_connect]
    exact congrArg (fun found => List.foldl _ _ found) <|
      List.map_congr_left fun o _ => hl.same.destination resolve o.dir o.rule

/-- **What a workspace that texts filled has recorded after its imports were followed is exactly their
relation**, and it is settled then. -/
theorem connected_filled (sources : List (Option FilePath × String)) (resolve : Resolution)
    (base : FilePath) :
    Connected (filled sources) ((filled sources).connect resolve base).1 resolve base
      ((filled sources).connect resolve base).2 :=
  connected_connect (fresh_filled sources) resolve base

end Workspace

end Strata
