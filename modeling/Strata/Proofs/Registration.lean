import Strata.Proofs.Connection
import Strata.Proofs.Inheritance
import Strata.Proofs.Split.Outcome
import Strata.Proofs.Workspace.Arrangement

/-! The order in which files are registered.

Identifiers of stylesheets and of nodes come from that order, and with them the order in which
imports are followed, ancestors are searched and answers are kept. Nothing of this is seen in what is
found: an edge of one workspace is an edge of a rearranged one (`Rearranged.exists_edge`), and counts,
parents, layers, imports and donors go by the edges (`analysed_in_any_order`). -/
namespace Strata

/-! ### Lists that are alike -/

theorem exists_of_forall₂ {α β : Type} {R : α → β → Prop} {as : List α} {bs : List β}
    (h : List.Forall₂ R as bs) {a : α} (ha : a ∈ as) : ∃ b ∈ bs, R a b := by
  induction h with
  | nil => cases ha
  | @cons _ b _ _ hab _ ih =>
    rcases List.mem_cons.mp ha with rfl | ha
    · exact ⟨b, List.mem_cons_self .., hab⟩
    · obtain ⟨b, hb, hab⟩ := ih ha
      exact ⟨b, List.mem_cons_of_mem _ hb, hab⟩

theorem map_perm_map {α β γ : Type} {f : α → γ} {g : β → γ} {as : List α} {bs : List β}
    (has : (as.map f).Nodup) (hbs : (bs.map g).Nodup) (hleft : ∀ a ∈ as, ∃ b ∈ bs, g b = f a)
    (hright : ∀ b ∈ bs, ∃ a ∈ as, f a = g b) : (as.map f).Perm (bs.map g) := by
  refine (List.perm_ext_iff_of_nodup has hbs).mpr fun c => ?_
  rw [List.mem_map, List.mem_map]
  constructor
  · rintro ⟨a, ha, rfl⟩
    exact hleft a ha
  · rintro ⟨b, hb, rfl⟩
    exact hright b hb

/-! ### Stylesheets -/

/-- What is kept about a stylesheet is in order, and nothing twice. -/
structure Sheet.InOrder (s : Sheet) : Prop where
  inbound : s.inbound.Pairwise (NodeId.before · · = true)
  parents : s.parents.Pairwise fun a b => decide (a < b) = true
  namedLayers : s.namedLayers.Pairwise fun a b => decide (a < b) = true
  layers : s.layers.Pairwise fun a b => decide (a < b) = true

/-! ### Destinations -/

/-- The same kind of destination; stylesheets are related, and get the same layers. -/
inductive Destination.Alike (R : SheetId → SheetId → Prop) : Destination → Destination → Prop where
  | sheet {x y layers} : R x y → Alike R (.sheet x layers) (.sheet y layers)
  | nowhere : Alike R .nowhere .nowhere
  | outside : Alike R .outside .outside
  | unreadable : Alike R .unreadable .unreadable

namespace DestinationCounts

instance : RightCommutative count where
  right_comm c d d' := by cases d <;> cases d' <;> rfl

theorem foldl_alike {R : SheetId → SheetId → Prop} {found found' : List Destination}
    (h : List.Forall₂ (Destination.Alike R) found found') (c : DestinationCounts) :
    found.foldl count c = found'.foldl count c := by
  induction h generalizing c with
  | nil => rfl
  | cons hd _ ih =>
    cases hd <;> exact ih _

end DestinationCounts

namespace Workspace

open Forest

variable {w w' u u' v v' : Workspace} {resolve : Resolution} {base : FilePath} {settings : Settings}

/-! ### Edges -/

namespace Rearranged

variable (h : Rearranged w w')
include h

/-- Twins lead to namesakes. -/
theorem destination_alike {rule rule' : NodeId} (hrule : Twins w.doc w'.doc rule rule')
    (dir : FilePath) : Destination.Alike (w.Namesakes w') (w.destination resolve dir rule)
      (w'.destination resolve dir rule') := by
  unfold destination
  rw [hrule.data]
  cases (Forest.get? w.doc rule).bind Node.params? with
  | none => exact .unreadable
  | some params =>
    cases hspecifier : Css.specifier? params with
    | none => simpa [hspecifier] using .unreadable
    | some specifier =>
      cases hpath : resolve specifier dir with
      | none => simpa [hspecifier, hpath] using .nowhere
      | some path =>
        rcases h.holderOf?_cases path with ⟨hx, hy⟩ | ⟨x, y, hxy, hx, hy⟩
        · simpa [hspecifier, hpath, hx, hy] using .outside
        · simpa [hspecifier, hpath, hx, hy] using .sheet hxy

theorem imports_twins {x y : SheetId} {s t : Sheet} (hs : w.get? x = some s)
    (ht : w'.get? y = some t) (hst : t.file = s.file) :
    List.Forall₂ (Twins w.doc w'.doc) (w.doc.imports s.root) (w'.doc.imports t.root) :=
  Twins.outermost h.left.tidy.wellFormed h.right.tidy.wellFormed (h.twins x y s t hs ht hst) _

/-- The imports of namesakes lead to namesakes, one by one. -/
theorem destinations_alike {x y : SheetId} (hxy : w.Namesakes w' x y) :
    List.Forall₂ (Destination.Alike (w.Namesakes w'))
      ((w.outgoingOf base x).map (Outgoing.destination w resolve))
      ((w'.outgoingOf base y).map (Outgoing.destination w' resolve)) := by
  obtain ⟨s, t, hs, ht, hst, -⟩ := h.exists_sheets hxy
  unfold outgoingOf
  rw [hs, ht]
  simp only [Sheet.dir?_congr hst, List.map_map, List.forall₂_map_left_iff, List.forall₂_map_right_iff]
  exact (h.imports_twins hs ht hst).imp fun _ _ hrule => h.destination_alike hrule _

/-- **The counts do not depend on the order.** -/
theorem counts_eq (resolve : Resolution) (base : FilePath) :
    (w.connect resolve base).2 = (w'.connect resolve base).2 := by
  obtain ⟨ys, hids, hys⟩ := h.exists_ids
  have hrows : List.Forall₂ (Destination.Alike (w.Namesakes w'))
      ((w.outgoing base).map (Outgoing.destination w resolve))
      ((ys.flatMap (w'.outgoingOf base)).map (Outgoing.destination w' resolve)) := by
    rw [outgoing, List.map_flatMap, List.map_flatMap]
    exact List.rel_flatMap hids fun _ _ hxy => h.destinations_alike hxy
  have hperm := (hys.flatMap_right (w'.outgoingOf base)).map (Outgoing.destination w' resolve)
  rw [counts_connect, counts_connect, DestinationCounts.foldl_alike hrows]
  exact hperm.foldl_eq _

/-- An edge has its like, from a namesake to a namesake, along an import at the same address. -/
theorem exists_edge {x y : SheetId} {rule : NodeId} {layers : List String}
    (he : w.Edge resolve base x y rule layers) : ∃ x' y' rule', w.Namesakes w' x x' ∧
      w.Namesakes w' y y' ∧ Twins w.doc w'.doc rule rule' ∧ w'.address rule' = w.address rule ∧
      w'.Edge resolve base x' y' rule' layers := by
  obtain ⟨s, hs, hrule, hfound⟩ := id he
  obtain ⟨x', hxx⟩ := h.exists_namesake (lt_size hs)
  obtain ⟨s', t, hs', ht, hst, -⟩ := h.exists_sheets hxx
  cases hs.symm.trans hs'
  obtain ⟨rule', hrule', htwins⟩ := exists_of_forall₂ (h.imports_twins hs ht hst) hrule
  have halike : Destination.Alike (w.Namesakes w') (w.destination resolve (s.dir?.getD base) rule)
      (w'.destination resolve (s.dir?.getD base) rule') := h.destination_alike htwins _
  rw [hfound] at halike
  generalize hfound' : w'.destination resolve (s.dir?.getD base) rule' = found at halike
  cases halike with
  | @sheet _ y' _ hyy =>
    have he' : w'.Edge resolve base x' y' rule' layers := 
      ⟨t, ht, hrule', Sheet.dir?_congr hst ▸ hfound'⟩
    refine ⟨x', y', rule', hxx, hyy, htwins, ?_, he'⟩
    rw [address, address, he.sheetOf? h.left.tidy, he'.sheetOf? h.right.tidy, htwins.place,
      Option.bind_some, Option.bind_some, hxx.file?]

end Rearranged

/-! ### What is recorded -/

/-- The namesakes of stylesheets in the first workspace have at least what these have. -/
structure Mirrors (v v' : Workspace) : Prop where
  namedLayers : ∀ x y s t, v.Namesakes v' x y → v.get? x = some s → v'.get? y = some t →
    ∀ l ∈ s.namedLayers, l ∈ t.namedLayers
  layers : ∀ x y s t, v.Namesakes v' x y → v.get? x = some s → v'.get? y = some t →
    ∀ l ∈ s.layers, l ∈ t.layers
  inbound : ∀ x y s t, v.Namesakes v' x y → v.get? x = some s → v'.get? y = some t →
    ∀ rule ∈ s.inbound, ∃ rule' ∈ t.inbound, Twins v.doc v'.doc rule rule' ∧
      v'.address rule' = v.address rule

theorem SameButLinks.namesakes (hv : SameButLinks w v) (hv' : SameButLinks w' v') :
    v.Namesakes v' = w.Namesakes w' := by
  funext x y
  simp only [Namesakes, hv.file?, hv'.file?]

theorem SameButLinks.address (hv : SameButLinks w v) (x : NodeId) : v.address x = w.address x := by
  rw [Workspace.address, Workspace.address, hv.sheetOf?, hv.doc, funext hv.file?]

section linked

variable (h : Rearranged w w') (hu : Linked w u (w.Edge resolve base))
  (hu' : Linked w' u' (w'.Edge resolve base))
include h hu hu'

theorem Rearranged.exists_parentOf {x y x' : SheetId} (hx : w.Namesakes w' x x')
    (hp : u.ParentOf x y) : ∃ y', w.Namesakes w' y y' ∧ u'.ParentOf x' y' := by
  obtain ⟨rule, layers, he⟩ := (parentOf_iff_edge hu y x).mp hp
  obtain ⟨y', x'', rule', hyy, hxx, -, -, he'⟩ := h.exists_edge he
  obtain rfl := hx.right_unique h.right hxx
  exact ⟨y', hyy, (parentOf_iff_edge hu' y' x').mpr ⟨rule', layers, he'⟩⟩

theorem Rearranged.exists_above {x top x' : SheetId} (hx : w.Namesakes w' x x')
    (ha : u.Above x top) : ∃ top', w.Namesakes w' top top' ∧ u'.Above x' top' := by
  induction ha with
  | single hp =>
    obtain ⟨y', hyy, hp'⟩ := h.exists_parentOf hu hu' hx hp
    exact ⟨y', hyy, .single hp'⟩
  | tail _ hp ih =>
    obtain ⟨y', hyy, ha'⟩ := ih
    obtain ⟨z', hzz, hp'⟩ := h.exists_parentOf hu hu' hyy hp
    exact ⟨z', hzz, .tail ha' hp'⟩

/-- Layers are inherited in one order when they are in the other. -/
theorem Rearranged.exists_inheritLayers (hok : ∃ table v, u.inheritLayers = .ok (table, v)) :
    ∃ table v, u'.inheritLayers = .ok (table, v) := by
  have hacyclic := (inheritLayers_ok_iff (closed_linked hu)).mp hok
  refine (inheritLayers_ok_iff (closed_linked hu')).mpr fun id habove => ?_
  obtain ⟨p, ⟨t, ht, -⟩, -⟩ := Relation.TransGen.head'_iff.mp habove
  obtain ⟨x, hx⟩ := h.symm.exists_namesake (hu'.same.size ▸ lt_size ht)
  obtain ⟨top, htop, hcycle⟩ := h.symm.exists_above hu' hu hx habove
  obtain rfl := hx.right_unique h.left htop
  exact hacyclic x hcycle

theorem Rearranged.mem_namedLayers {x y : SheetId} {s t : Sheet} (hxy : w.Namesakes w' x y)
    (hs : u.get? x = some s) (ht : u'.get? y = some t) {l : String} (hl : l ∈ s.namedLayers) :
    l ∈ t.namedLayers := by
  obtain ⟨source, rule, layers, he, hmem⟩ := (hu.named x s hs l).mp hl
  obtain ⟨source', y', rule', -, hyy, -, -, he'⟩ := h.exists_edge he
  obtain rfl := hxy.right_unique h.right hyy
  exact (hu'.named y t ht l).mpr ⟨source', rule', layers, he', hmem⟩

variable {table table' : List (List SheetId)} (hl : u.inheritLayers = .ok (table, v))
  (hl' : u'.inheritLayers = .ok (table', v'))
include hl hl'

/-- **What is recorded of a file does not depend on the order.** -/
theorem Rearranged.mirrors : Mirrors v v' := by
  have hi := sameButLinks_inheritLayers hl
  have hi' := sameButLinks_inheritLayers hl'
  have hsame := hu.same.trans hi
  have hsame' := hu'.same.trans hi'
  have hnames := hsame.namesakes hsame'
  have hnamed : ∀ {x y s t}, w.Namesakes w' x y → u.get? x = some s → u'.get? y = some t →
      ∀ l ∈ s.namedLayers, l ∈ t.namedLayers := fun hxy hs ht _ hmem =>
    h.mem_namedLayers hu hu' hxy hs ht hmem
  refine ⟨fun x y s t hxy hs ht l hmem => ?_, fun x y s t hxy hs ht l hmem => ?_,
    fun x y s t hxy hs ht rule hrule => ?_⟩ <;> rw [hnames] at hxy
  · rw [get?_inheritLayers hl] at hs
    rw [get?_inheritLayers hl'] at ht
    obtain ⟨s', hs', rfl⟩ := Option.map_eq_some_iff.mp hs
    obtain ⟨t', ht', rfl⟩ := Option.map_eq_some_iff.mp ht
    exact hnamed hxy hs' ht' l hmem
  · obtain ⟨s', hs', -⟩ := hi.sheet x s hs
    obtain ⟨t', ht', -⟩ := hi'.sheet y t ht
    rw [mem_layers_inheritLayers hl' ht' ht, hu'.layers y t' ht']
    rcases (mem_layers_inheritLayers hl hs' hs l).mp hmem with hown | ⟨top, a, habove, ha, hmem⟩
    · exact Or.inl (hnamed hxy hs' ht' l ((hu.layers x s' hs' l).mp hown))
    · obtain ⟨top', htop, habove'⟩ := h.exists_above hu hu' hxy habove
      obtain ⟨_, b, -, hb, -⟩ := h.exists_sheets htop
      obtain ⟨b', hb', -⟩ := hu'.same.get?_of_left hb
      exact Or.inr ⟨top', b', habove', hb', hnamed htop ha hb' l hmem⟩
  · obtain ⟨source, layers, he⟩ := (mem_inbound_inherited hu hl hs rule).mp hrule
    obtain ⟨source', y', rule', -, hyy, htwins, haddress, he'⟩ := h.exists_edge he
    obtain rfl := hxy.right_unique h.right hyy
    refine ⟨rule', (mem_inbound_inherited hu' hl' ht rule').mpr ⟨source', layers, he'⟩, ?_, ?_⟩
    · rw [hsame.doc, hsame'.doc]
      exact htwins
    · rw [hsame.address, hsame'.address, haddress]

end linked

/-! ### What is split -/

section mirrors

variable (h : Rearranged v v') (hm : Mirrors v v')
include h hm

theorem Rearranged.exists_imports {x y y' : SheetId} (hyy : v.Namesakes v' y y')
    (hi : v.Imports x y) : ∃ x', v.Namesakes v' x x' ∧ v'.Imports x' y' := by
  obtain ⟨s, rule, hs, hrule, hx⟩ := hi
  obtain ⟨s', t, hs', ht, -⟩ := h.exists_sheets hyy
  cases hs.symm.trans hs'
  obtain ⟨rule', hrule', -, haddress⟩ := hm.inbound y y' s t hyy hs ht rule hrule
  obtain ⟨-, owner, howner, -⟩ := h.left.tidy.sheetOf?_eq_some.mp hx
  obtain ⟨path, hpath⟩ := h.left.exists_file (lt_size howner)
  have hpath' : (v'.sheetOf? rule').bind v'.file? = some path := by
    rw [← hpath, ← Option.bind_some x v.file?, ← hx]
    exact congrArg Prod.fst haddress
  obtain ⟨x', hx', hpath'⟩ := Option.bind_eq_some_iff.mp hpath'
  exact ⟨x', ⟨path, hpath, hpath'⟩, t, rule', ht, hrule', hx'⟩

omit hm in
theorem Rearranged.utilities_twins {x y : SheetId} (hxy : v.Namesakes v' x y) :
    List.Forall₂ (Twins v.doc v'.doc) (v.utilities settings x) (v'.utilities settings y) := by
  obtain ⟨s, t, hs, ht, -, htwins⟩ := h.exists_sheets hxy
  unfold utilities
  rw [hs, ht]
  exact Twins.outermost h.left.tidy.wellFormed h.right.tidy.wellFormed htwins _

theorem Rearranged.canSplit (ha' : v'.Analysed) {x y : SheetId} (hxy : v.Namesakes v' x y)
    (hx : v.CanSplit settings x) : v'.CanSplit settings y := by
  obtain ⟨s, t, hs, ht, hfile, -⟩ := h.exists_sheets hxy
  have hcandidate := (isEligible_iff hs).mp hx.eligible
  obtain ⟨layer, hlayer, hmem⟩ := hcandidate.layered
  refine ⟨(isEligible_iff ht).mpr ⟨hfile ▸ hcandidate.file, (ha'.plain y t ht).1,
    (ha'.plain y t ht).2, layer, hlayer, hm.layers x y s t hxy hs ht layer hmem⟩, fun hnone => ?_⟩
  have hlen : (v.utilities settings x).length = (v'.utilities settings y).length :=
    (h.utilities_twins hxy).length_eq
  rw [hnone, List.length_nil] at hlen
  exact hx.utilities (List.length_eq_zero_iff.mp hlen)

omit hm in
/-- A stylesheet that may stay whole has a namesake that may, unless this has imports of its own. -/
theorem Rearranged.isSelfContained (hm : Mirrors v' v) {x y : SheetId} (hxy : v.Namesakes v' x y)
    (hx : v.IsSelfContained settings x) : v'.IsSelfContained settings y := by
  obtain ⟨s, t, hs, ht, -, htwins⟩ := h.exists_sheets hxy
  rw [IsSelfContained, Bool.and_eq_true, consistsOf_iff hs, isPlainlyImported_iff hs] at hx
  rw [IsSelfContained, Bool.and_eq_true, consistsOf_iff ht, isPlainlyImported_iff ht]
  obtain ⟨⟨hsome, hall⟩, hplain⟩ := hx
  have hf := h.left.tidy.wellFormed
  have hg := h.right.tidy.wellFormed
  have hchildren := Twins.children hf hg htwins
  refine ⟨⟨fun hnone => ?_, fun child' hchild' => ?_⟩, fun rule' hrule' n hn hauthored => ?_⟩
  · rw [hnone, List.forall₂_nil_right_iff] at hchildren
    exact hsome hchildren
  · obtain ⟨child, hchild, hct⟩ := exists_of_forall₂ (Twins.children hg hf htwins.symm) hchild'
    have hmem := hall child hchild
    unfold utilities at hmem ⊢
    rw [hs] at hmem
    rw [ht]
    refine (hg.mem_outermost_child hchild').mpr ?_
    rw [← hct.data]
    exact (hf.mem_outermost_child hchild).mp hmem
  · obtain ⟨rule, hrule, hrt, -⟩ := hm.inbound y x t s hxy.symm ht hs rule' hrule'
    exact hplain rule hrule n (hrt.data.trans hn) hauthored

theorem Rearranged.splits (ha' : v'.Analysed) {x y : SheetId} (hxy : v.Namesakes v' x y)
    (hx : v.Splits settings x) : v'.Splits settings y := by
  induction hx generalizing y with
  | mixed hcan hself =>
    exact .mixed (h.canSplit hm ha' hxy hcan) fun hself' =>
      hself (h.symm.isSelfContained hm hxy.symm hself')
  | handed hcan himports _ ih =>
    obtain ⟨importer', hi, himports'⟩ := h.exists_imports hm hxy himports
    exact .handed (h.canSplit hm ha' hxy hcan) himports' (ih hi)

end mirrors

/-! ### Any order -/

theorem Catalogued.nodup_files (hc : v.Catalogued) {ids : List SheetId} (hids : ids.Nodup)
    (hlive : ∀ id ∈ ids, id < v.sheets.size) : (ids.map v.file?).Nodup := by
  refine List.Nodup.map_on (fun x hx y hy hxy => ?_) hids
  obtain ⟨path, hpath⟩ := hc.exists_file (hlive x hx)
  exact hc.file?_inj hpath (hxy.symm.trans hpath)

/-- The same stylesheets are split. -/
theorem Rearranged.donors_perm (h : Rearranged v v') (ha : v.Analysed) (ha' : v'.Analysed)
    (hm : Mirrors v v') (hm' : Mirrors v' v) (settings : Settings) :
    ((v.donors settings).map v.file?).Perm ((v'.donors settings).map v'.file?) := by
  have hlive : ∀ {u : Workspace}, ∀ id ∈ u.donors settings, id < u.sheets.size := by
    intro u id hid
    obtain ⟨s, hs⟩ := (canSplit_of_mem_donors hid).get?
    exact lt_size hs
  refine map_perm_map (h.left.nodup_files (donors_nodup v settings) hlive)
    (h.right.nodup_files (donors_nodup v' settings) hlive) (fun x hx => ?_) fun y hy => ?_
  · obtain ⟨y, hxy⟩ := h.exists_namesake (hlive x hx)
    exact ⟨y, (mem_donors ha' y).mpr (h.splits hm ha' hxy ((mem_donors ha x).mp hx)), hxy.file?⟩
  · obtain ⟨x, hyx⟩ := h.symm.exists_namesake (hlive y hy)
    exact ⟨x, (mem_donors ha x).mpr (h.symm.splits hm' ha hyx ((mem_donors ha' y).mp hy)), hyx.file?⟩

/-- All that is found out about files, in two workspaces. Files are known by their paths, imports by
their addresses. -/
structure SameFindings (v v' : Workspace) : Prop where
  paths : (v.ids.map v.file?).Perm (v'.ids.map v'.file?)
  distinct : (v.ids.map v.file?).Nodup
  apart : ∀ a b, v.doc.contains a = true → v.address a = v.address b → a = b
  namedLayers : ∀ x y s t, v.Namesakes v' x y → v.get? x = some s → v'.get? y = some t →
    s.namedLayers = t.namedLayers
  layers : ∀ x y s t, v.Namesakes v' x y → v.get? x = some s → v'.get? y = some t →
    s.layers = t.layers
  parents : ∀ x y s t, v.Namesakes v' x y → v.get? x = some s → v'.get? y = some t →
    (s.parents.map v.file?).Perm (t.parents.map v'.file?)
  inbound : ∀ x y s t, v.Namesakes v' x y → v.get? x = some s → v'.get? y = some t →
    (s.inbound.map v.address).Perm (t.inbound.map v'.address)

section findings

variable {table table' : List (List SheetId)}

/-- The lists that are kept about a stylesheet are in order. -/
theorem inOrder_inheritLayers (hf : w.Fresh)
    (hl : (w.connect resolve base).1.inheritLayers = .ok (table, v)) {id : SheetId} {t : Sheet}
    (ht : v.get? id = some t) : t.InOrder := by
  have hsettled : ∀ id s, (w.connect resolve base).1.get? id = some s → s.Settled := fun _ _ hs =>
    settled_connect (fun id s hs => (hf.sheet id s hs).settled) resolve base hs
  have hnamed : ∀ id s, (w.connect resolve base).1.get? id = some s → s.Uninherited := fun id s hs =>
    ⟨(hsettled id s hs).layers, (hsettled id s hs).namedLayers⟩
  have hlayers := sorted_inheritLayers hl hnamed ht
  rw [get?_inheritLayers hl] at ht
  obtain ⟨s, hs, rfl⟩ := Option.map_eq_some_iff.mp ht
  have hs := hsettled id s hs
  exact ⟨hs.inbound, hs.parents, hs.namedLayers, hlayers⟩

/-- Imports of one stylesheet have addresses of their own. -/
theorem nodup_addresses (hc : v.Catalogued) (ha : v.Analysed) {x : SheetId} {s : Sheet}
    (hs : v.get? x = some s) (ho : s.InOrder) : (s.inbound.map v.address).Nodup := by
  refine List.Nodup.map_on (fun a hrule b _ => hc.eq_of_address ?_)
    (Ordered.nodup_of_pairwise NodeId.total_before ho.inbound)
  obtain ⟨n, -, -, hn, -⟩ := (ha.rule x s a hs hrule).1.readable
  exact contains_iff_get?.mpr ⟨n, hn⟩

/-- Parents have paths of their own. -/
theorem nodup_parents (hc : v.Catalogued) (ha : v.Analysed) {x : SheetId} {s : Sheet}
    (hs : v.get? x = some s) (ho : s.InOrder) : (s.parents.map v.file?).Nodup := by
  refine hc.nodup_files (Ordered.nodup_of_pairwise Ordered.total_lt_nat ho.parents) fun p hp => ?_
  exact lt_size_of_imports ((ha.parents x p).mp ⟨s, hs, hp⟩) ha.tidy

theorem Rearranged.exists_parent (h : Rearranged v v') (ha : v.Analysed) (ha' : v'.Analysed)
    (hm : Mirrors v v') {x y : SheetId} {s t : Sheet} (hxy : v.Namesakes v' x y)
    (hs : v.get? x = some s) (ht : v'.get? y = some t) {p : SheetId} (hp : p ∈ s.parents) :
    ∃ q ∈ t.parents, v'.file? q = v.file? p := by
  obtain ⟨q, hpq, hq⟩ := h.exists_imports hm hxy ((ha.parents x p).mp ⟨s, hs, hp⟩)
  obtain ⟨t', ht', hmem⟩ := (ha'.parents y q).mpr hq
  cases ht.symm.trans ht'
  exact ⟨q, hmem, hpq.file?⟩

theorem Mirrors.exists_address (hm : Mirrors v v') {x y : SheetId} {s t : Sheet}
    (hxy : v.Namesakes v' x y) (hs : v.get? x = some s) (ht : v'.get? y = some t) {rule : NodeId}
    (hrule : rule ∈ s.inbound) : ∃ rule' ∈ t.inbound, v'.address rule' = v.address rule := by
  obtain ⟨rule', hrule', -, haddress⟩ := hm.inbound x y s t hxy hs ht rule hrule
  exact ⟨rule', hrule', haddress⟩

theorem Rearranged.sameFindings (h : Rearranged v v') (ha : v.Analysed) (ha' : v'.Analysed)
    (hm : Mirrors v v') (hm' : Mirrors v' v) (ho : ∀ id s, v.get? id = some s → s.InOrder)
    (ho' : ∀ id t, v'.get? id = some t → t.InOrder) : SameFindings v v' where
  paths := h.paths
  distinct := h.left.nodup
  apart _ _ := h.left.eq_of_address
  namedLayers x y s t hxy hs ht :=
    Ordered.eq_of_pairwise Ordered.total_lt_string (ho x s hs).namedLayers (ho' y t ht).namedLayers
      fun l => ⟨hm.namedLayers x y s t hxy hs ht l, hm'.namedLayers y x t s hxy.symm ht hs l⟩
  layers x y s t hxy hs ht :=
    Ordered.eq_of_pairwise Ordered.total_lt_string (ho x s hs).layers (ho' y t ht).layers
      fun l => ⟨hm.layers x y s t hxy hs ht l, hm'.layers y x t s hxy.symm ht hs l⟩
  parents x y s t hxy hs ht :=
    map_perm_map (nodup_parents h.left ha hs (ho x s hs)) (nodup_parents h.right ha' ht (ho' y t ht))
      (fun _ hp => h.exists_parent ha ha' hm hxy hs ht hp)
      fun _ hq => h.symm.exists_parent ha' ha hm' hxy.symm ht hs hq
  inbound x y s t hxy hs ht :=
    map_perm_map (nodup_addresses h.left ha hs (ho x s hs))
      (nodup_addresses h.right ha' ht (ho' y t ht))
      (fun _ hrule => hm.exists_address hxy hs ht hrule)
      fun _ hrule => hm'.exists_address hxy.symm ht hs hrule

end findings

/-- **The order in which files are registered is not seen in any finding.** The same imports are
counted, layers are inherited in one order when they are in the other, and then all that is recorded
of a file is the same, and the same files are split. -/
theorem analysed_in_any_order {sources sources' : List (FilePath × String)}
    (hperm : sources.Perm sources')
    (hdistinct : (sources.map fun source => source.1.normalize).Nodup)
    (hparse : ∀ source ∈ sources, ∃ trees, Css.parse source.2 = .ok trees) :
    ∃ w w', loadFiles sources = .ok w ∧ loadFiles sources' = .ok w' ∧
      ∀ (resolve : Resolution) (base : FilePath),
        (w.connect resolve base).2 = (w'.connect resolve base).2 ∧
        ((∃ table v, (w.connect resolve base).1.inheritLayers = .ok (table, v)) ↔
          ∃ table v, (w'.connect resolve base).1.inheritLayers = .ok (table, v)) ∧
        ∀ table v table' v', (w.connect resolve base).1.inheritLayers = .ok (table, v) →
          (w'.connect resolve base).1.inheritLayers = .ok (table', v') →
          SameFindings v v' ∧ ∀ settings, ∃ u d u' d', v.split settings = .ok (u, d) ∧
            v'.split settings = .ok (u', d') ∧
            (d.pairs.map fun pair => v.file? pair.1).Perm
              (d'.pairs.map fun pair => v'.file? pair.1) := by
  obtain ⟨w, hw, hreads⟩ := exists_loadFiles hdistinct hparse
  obtain ⟨w', hw', hreads'⟩ := exists_loadFiles ((hperm.map _).nodup_iff.mp hdistinct)
    fun source hs => hparse source (hperm.mem_iff.mpr hs)
  have h := hreads.rearranged hreads' hperm hdistinct
  refine ⟨w, w', hw, hw', fun resolve base => ⟨h.counts_eq resolve base, ?_, ?_⟩⟩
  · have hu := linked_connect hreads.fresh resolve base
    have hu' := linked_connect hreads'.fresh resolve base
    exact ⟨h.exists_inheritLayers hu hu', h.symm.exists_inheritLayers hu' hu⟩
  · intro table v table' v' hl hl'
    have hu := linked_connect hreads.fresh resolve base
    have hu' := linked_connect hreads'.fresh resolve base
    have ha := analysed hreads.fresh hl
    have ha' := analysed hreads'.fresh hl'
    have hm := h.mirrors hu hu' hl hl'
    have hm' := h.symm.mirrors hu' hu hl' hl
    have hr := h.of_sameButLinks (hu.same.trans (sameButLinks_inheritLayers hl))
      (hu'.same.trans (sameButLinks_inheritLayers hl'))
    refine ⟨hr.sameFindings ha ha' hm hm' (fun _ _ => inOrder_inheritLayers hreads.fresh hl)
      fun _ _ => inOrder_inheritLayers hreads'.fresh hl', fun settings => ?_⟩
    obtain ⟨_, u, d, hsplit, hparted⟩ := exists_split ha settings
    obtain ⟨_, u', d', hsplit', hparted'⟩ := exists_split ha' settings
    refine ⟨u, d, u', d', hsplit, hsplit', ?_⟩
    have hdonors := hr.donors_perm ha ha' hm hm' settings
    rw [← hparted.donors, ← hparted'.donors, List.map_map, List.map_map] at hdonors
    exact hdonors

/-- Utilities that are imported for one layer, and from a file that is imported for another. -/
def forTwoLayers : List (FilePath × String) :=
  [(⟨"/p/b.css"⟩, "@utility b { color: red }"), (⟨"/p/a.css"⟩, "@import './b.css';"),
    (⟨"/p/index.css"⟩, "@import './a.css' layer(utilities);\n@import './b.css' layer(components);")]

/-- The first file is split when it is registered first and when it is registered last. -/
theorem analysed_in_reverse : ∃ w w' table v table' v' u' d',
    loadFiles forTwoLayers = .ok w ∧ loadFiles forTwoLayers.reverse = .ok w' ∧
    (w.connect (.known (forTwoLayers.map Prod.fst)) ⟨"/p"⟩).1.inheritLayers = .ok (table, v) ∧
    (w'.connect (.known (forTwoLayers.map Prod.fst)) ⟨"/p"⟩).1.inheritLayers = .ok (table', v') ∧
    SameFindings v v' ∧ v'.split {} = .ok (u', d') ∧
    (d'.pairs.map fun pair => v'.file? pair.1) = [some ⟨"/p/b.css"⟩] := by
  have hread : ∀ source ∈ forTwoLayers, (Css.read source.2).2 = none := by decide +kernel
  have hrun : ((loadFiles forTwoLayers).toOption.bind fun w =>
      (w.connect (.known (forTwoLayers.map Prod.fst)) ⟨"/p"⟩).1.inheritLayers.toOption.bind
        fun (_, v) => (v.split {}).toOption.map fun (_, d) =>
          d.pairs.map fun pair => v.file? pair.1) = some [some ⟨"/p/b.css"⟩] := by
    decide +kernel
  obtain ⟨w, w', hw, hw', hall⟩ := analysed_in_any_order (List.reverse_perm forTwoLayers).symm
    (by decide +kernel) fun source hs => ⟨_, Css.parse_eq_ok.mpr (Prod.ext rfl (hread source hs))⟩
  obtain ⟨-, hboth, hfindings⟩ := hall (.known (forTwoLayers.map Prod.fst)) ⟨"/p"⟩
  rw [hw] at hrun
  cases hl : (w.connect (.known (forTwoLayers.map Prod.fst)) ⟨"/p"⟩).1.inheritLayers with
  | error e => simp [Except.toOption, hl] at hrun
  | ok result =>
    obtain ⟨table, v⟩ := result
    obtain ⟨table', v', hl'⟩ := hboth.mp ⟨table, v, hl⟩
    obtain ⟨hsame, hsplits⟩ := hfindings table v table' v' hl hl'
    obtain ⟨u, d, u', d', hd, hd', hperm⟩ := hsplits {}
    have hpairs : (d.pairs.map fun pair => v.file? pair.1) = [some ⟨"/p/b.css"⟩] := by
      simpa [Except.toOption, hl, hd] using hrun
    rw [hpairs] at hperm
    exact ⟨w, w', table, v, table', v', u', d', hw, hw', hl, hl', hsame, hd',
      List.perm_singleton.mp hperm.symm⟩

end Workspace

end Strata
