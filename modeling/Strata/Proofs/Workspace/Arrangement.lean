import Mathlib.Data.List.Perm.Basic
import Strata.Proofs.Analysis
import Strata.Proofs.Forest.Twins
import Strata.Proofs.Workspace.Files

/-! Workspaces that differ in the order of their stylesheets.

A workspace is `Catalogued` when every stylesheet holds a path of its own, so that the path tells it
from the others. `Rearranged` workspaces have the same paths, and for each a tree that is alike;
identifiers of stylesheets and of nodes may differ as they like. Files that are loaded in two orders
give such workspaces (`Reads.rearranged`). -/
namespace Strata.Workspace

open Forest

variable {w w' : Workspace}

/-- The path of a stylesheet. -/
def file? (w : Workspace) (id : SheetId) : Option FilePath := (w.get? id).bind Sheet.file

/-- The path of the stylesheet that a node is in, and its place there. -/
def address (w : Workspace) (x : NodeId) : Option FilePath × List Nat :=
  ((w.sheetOf? x).bind w.file?, w.doc.place x)

theorem file?_eq_some {id : SheetId} {path : FilePath} :
    w.file? id = some path ↔ ∃ s, w.get? id = some s ∧ s.file = some path :=
  Option.bind_eq_some_iff

theorem SameButLinks.file? {v : Workspace} (h : SameButLinks w v) (id : SheetId) :
    v.file? id = w.file? id := by
  have hmap := congrArg (·[id]?) (h.map_eq Sheet.file fun _ _ hst => hst.file)
  simp only [Array.getElem?_map] at hmap
  have hbind := congrArg (·.bind fun file => file) hmap
  simp only [Option.bind_map] at hbind
  exact hbind

/-! ### Workspaces that paths index -/

structure Catalogued (w : Workspace) : Prop where
  tidy : w.Tidy
  held : ∀ id s, w.get? id = some s → ∃ path, s.Holds path
  nodup : (w.ids.map w.file?).Nodup

namespace Catalogued

variable (h : w.Catalogued)
include h

theorem file?_inj {i j : SheetId} {path : FilePath} (hi : w.file? i = some path)
    (hj : w.file? j = some path) : i = j := by
  obtain ⟨s, hs, -⟩ := file?_eq_some.mp hi
  obtain ⟨t, ht, -⟩ := file?_eq_some.mp hj
  exact List.inj_on_of_nodup_map h.nodup (List.mem_range.mpr (lt_size hs))
    (List.mem_range.mpr (lt_size ht)) (hi.trans hj.symm)

theorem exists_file {id : SheetId} (hid : id < w.sheets.size) : ∃ path, w.file? id = some path := by
  obtain ⟨s, hs⟩ := get?_isSome.mpr hid
  obtain ⟨path, hpath⟩ := h.held id s hs
  exact ⟨path, file?_eq_some.mpr ⟨s, hs, hpath.file⟩⟩

theorem oneHolder : w.OneHolder := fun _ _ s t _ hs ht hsp htp =>
  h.file?_inj (file?_eq_some.mpr ⟨s, hs, hsp.file⟩) (file?_eq_some.mpr ⟨t, ht, htp.file⟩)

theorem holderOf?_eq_some {path : FilePath} {id : SheetId} :
    w.holderOf? path = some id ↔ w.file? id = some path.normalize := by
  rw [h.oneHolder.holderOf?_eq_some, file?_eq_some]
  refine exists_congr fun s => and_congr_right fun hs => ⟨Sheet.Holds.file, fun hfile => ?_⟩
  obtain ⟨other, hother⟩ := h.held id s hs
  obtain rfl := Option.some.inj (hfile.symm.trans hother.file)
  exact hother

/-- Two nodes are not at one address. -/
theorem eq_of_address {a b : NodeId} (ha : w.doc.contains a = true)
    (hab : w.address a = w.address b) : a = b := by
  obtain ⟨id, s, hid, hs, hwa⟩ := h.tidy.exists_sheetOf? ha
  obtain ⟨path, hpath⟩ := h.exists_file (lt_size hs)
  obtain ⟨hsheets, hplace⟩ := Prod.ext_iff.mp hab
  rw [address, address, hid, Option.bind_some, hpath] at hsheets
  obtain ⟨other, hb, hother⟩ := Option.bind_eq_some_iff.mp hsheets.symm
  obtain rfl := h.file?_inj hpath hother
  obtain ⟨-, t, ht, hwb⟩ := h.tidy.sheetOf?_eq_some.mp hb
  cases hs.symm.trans ht
  exact h.tidy.wellFormed.eq_of_place (h.tidy.parent?_root hs) hwa hwb hplace

theorem of_sameButLinks {v : Workspace} (hv : SameButLinks w v) : v.Catalogued where
  tidy := hv.tidy h.tidy
  held id t ht := by
    obtain ⟨s, hs, hst⟩ := hv.sheet id t ht
    obtain ⟨path, hpath⟩ := h.held id s hs
    exact ⟨path, (Sheet.SameFile.of_sameButLinks hst).holds_iff.mpr hpath⟩
  nodup := by
    rw [ids, hv.size, funext hv.file?]
    exact h.nodup

end Catalogued

/-! ### Two orders -/

/-- Stylesheets of two workspaces with the same path. -/
def Namesakes (w w' : Workspace) (x y : SheetId) : Prop :=
  ∃ path, w.file? x = some path ∧ w'.file? y = some path

theorem Namesakes.symm {x y : SheetId} (h : w.Namesakes w' x y) : w'.Namesakes w y x := by
  obtain ⟨path, hx, hy⟩ := h
  exact ⟨path, hy, hx⟩

theorem Namesakes.file? {x y : SheetId} (h : w.Namesakes w' x y) : w'.file? y = w.file? x := by
  obtain ⟨path, hx, hy⟩ := h
  rw [hx, hy]

theorem Namesakes.right_unique (hc : w'.Catalogued) {x y z : SheetId} (hy : w.Namesakes w' x y)
    (hz : w.Namesakes w' x z) : y = z := by
  obtain ⟨path, hx, hy⟩ := hy
  exact hc.file?_inj hy (hz.file?.trans hx)

structure Rearranged (w w' : Workspace) : Prop where
  left : w.Catalogued
  right : w'.Catalogued
  paths : (w.ids.map w.file?).Perm (w'.ids.map w'.file?)
  twins : ∀ x y s t, w.get? x = some s → w'.get? y = some t → t.file = s.file →
    Twins w.doc w'.doc s.root t.root

namespace Rearranged

variable (h : Rearranged w w')
include h

theorem symm : Rearranged w' w where
  left := h.right
  right := h.left
  paths := h.paths.symm
  twins x y s t hs ht hst := (h.twins y x t s ht hs hst.symm).symm

/-- What is linked does not matter. -/
theorem of_sameButLinks {v v' : Workspace} (hv : SameButLinks w v) (hv' : SameButLinks w' v') :
    Rearranged v v' where
  left := h.left.of_sameButLinks hv
  right := h.right.of_sameButLinks hv'
  paths := by
    rw [ids, ids, hv.size, hv'.size, funext hv.file?, funext hv'.file?]
    exact h.paths
  twins x y s t hs ht hst := by
    obtain ⟨s', hs', hss⟩ := hv.sheet x s hs
    obtain ⟨t', ht', htt⟩ := hv'.sheet y t ht
    rw [hv.doc, hv'.doc, hss.root, htt.root]
    exact h.twins x y s' t' hs' ht' (htt.file.symm.trans (hst.trans hss.file))

theorem exists_namesake {x : SheetId} (hx : x < w.sheets.size) : ∃ y, w.Namesakes w' x y := by
  obtain ⟨path, hpath⟩ := h.left.exists_file hx
  have hmem : w.file? x ∈ w'.ids.map w'.file? :=
    h.paths.subset (List.mem_map_of_mem (List.mem_range.mpr hx))
  obtain ⟨y, -, hy⟩ := List.mem_map.mp hmem
  exact ⟨y, path, hpath, hy.trans hpath⟩

theorem exists_ids : ∃ ys, List.Forall₂ (w.Namesakes w') w.ids ys ∧ ys.Perm w'.ids := by
  have hown : List.Forall₂ (fun path y => w'.file? y = path) (w'.ids.map w'.file?) w'.ids :=
    List.forall₂_map_left_iff.mpr (List.forall₂_same.mpr fun _ _ => rfl)
  obtain ⟨ys, hpaths, hys⟩ := List.perm_comp_forall₂ h.paths hown
  have hfiled : ∀ x ∈ w.ids, ∃ path, w.file? x = some path :=
    fun x hx => h.left.exists_file (List.mem_range.mp hx)
  have hboth := (List.forall₂_and_left _ _).mpr ⟨hfiled, List.forall₂_map_left_iff.mp hpaths⟩
  refine ⟨ys, hboth.imp fun x y hxy => ?_, hys⟩
  obtain ⟨⟨path, hpath⟩, hy⟩ := hxy
  exact ⟨path, hpath, hy.trans hpath⟩

theorem exists_sheets {x y : SheetId} (hxy : w.Namesakes w' x y) : ∃ s t, w.get? x = some s ∧
    w'.get? y = some t ∧ t.file = s.file ∧ Twins w.doc w'.doc s.root t.root := by
  obtain ⟨path, hx, hy⟩ := hxy
  obtain ⟨s, hs, hsfile⟩ := file?_eq_some.mp hx
  obtain ⟨t, ht, htfile⟩ := file?_eq_some.mp hy
  have hfile := htfile.trans hsfile.symm
  exact ⟨s, t, hs, ht, hfile, h.twins x y s t hs ht hfile⟩

/-- A path is held in both or in neither. -/
theorem holderOf?_cases (path : FilePath) :
    w.holderOf? path = none ∧ w'.holderOf? path = none ∨ ∃ x y, w.Namesakes w' x y ∧
      w.holderOf? path = some x ∧ w'.holderOf? path = some y := by
  have hother : ∀ {u u' : Workspace}, Rearranged u u' → ∀ x, u.holderOf? path = some x →
      ∃ y, u.Namesakes u' x y ∧ u'.holderOf? path = some y := by
    intro u u' hu x hx
    have hfile := hu.left.holderOf?_eq_some.mp hx
    obtain ⟨s, hs, -⟩ := file?_eq_some.mp hfile
    obtain ⟨y, hxy⟩ := hu.exists_namesake (lt_size hs)
    exact ⟨y, hxy, hu.right.holderOf?_eq_some.mpr (hxy.file?.trans hfile)⟩
  cases hx : w.holderOf? path with
  | some x =>
    obtain ⟨y, hxy, hy⟩ := hother h x hx
    exact Or.inr ⟨x, y, hxy, rfl, hy⟩
  | none =>
    cases hy : w'.holderOf? path with
    | none => exact Or.inl ⟨rfl, rfl⟩
    | some y =>
      obtain ⟨x, -, hx'⟩ := hother h.symm y hy
      cases hx.symm.trans hx'

end Rearranged

/-! ### Files that are loaded -/

/-- Some files are loaded, one after another. -/
def loadFiles (sources : List (FilePath × String)) : Except MigrationError Workspace :=
  loadAll (sources.map fun (path, text) => (some path, text))

/-- A stylesheet that holds a file and has the trees of its text. -/
structure ReadAs (doc : Document) (source : FilePath × String) (s : Sheet) : Prop where
  holds : s.Holds source.1.normalize
  content : s.content = source.2
  loadedPrint : s.loadedPrint = Css.print (Css.read source.2).1
  root : doc.get? s.root = some .root
  bears : doc.Bears (fun x => doc.contains x = true) (doc.children s.root) (Css.read source.2).1

/-- The stylesheets are some files, in their order. -/
structure Reads (sources : List (FilePath × String)) (w : Workspace) : Prop where
  fresh : w.Fresh
  sheets : List.Forall₂ (ReadAs w.doc) sources w.sheets.toList

theorem ReadAs.withText (h : w.Tidy) {source : FilePath × String} {s : Sheet}
    (hs : ReadAs w.doc source s) (text : String) :
    ReadAs (w.doc.withText text).2 source s := by
  have hlive := contains_iff_get?.mpr ⟨_, hs.root⟩
  obtain ⟨-, hget, hchildren⟩ := Document.withText_keeps h.wellFormed text hlive
  refine ⟨hs.holds, hs.content, hs.loadedPrint, hget.trans hs.root,
    hchildren ▸ hs.bears.congr fun x hx => ?_⟩
  exact Document.withText_keeps h.wellFormed text hx

theorem Reads.exists_source {sources : List (FilePath × String)} (h : Reads sources w) {id : SheetId}
    {s : Sheet} (hs : w.get? id = some s) : ∃ source ∈ sources, ReadAs w.doc source s := by
  obtain ⟨hlen, hall⟩ := List.forall₂_iff_get.mp h.sheets
  obtain ⟨hlt, rfl⟩ := Array.getElem?_eq_some_iff.mp hs
  exact ⟨_, List.get_mem sources ⟨id, hlen ▸ hlt⟩, hall id (hlen ▸ hlt) hlt⟩

/-- One more file is loaded, where no other has its path. -/
theorem Reads.load {sources : List (FilePath × String)} (h : Reads sources w) {path : FilePath}
    {text : String} {trees : Grove Node}
    (hnew : path.normalize ∉ sources.map fun source => source.1.normalize)
    (hparse : Css.parse text = .ok trees) :
    ∃ id v, w.load (some path) text = (.ok id, v) ∧ Reads (sources ++ [(path, text)]) v := by
  have hfree : w.taken? (some path.normalize) = none := by
    cases hholder : w.holderOf? path.normalize with
    | none => simp [taken?, hholder]
    | some id =>
      obtain ⟨s, hs, hfile⟩ := normalize_of_holderOf? hholder
      obtain ⟨source, hsource, hread⟩ := h.exists_source hs
      rw [FilePath.normalize_normalize, hread.holds.file] at hfile
      exact absurd (List.mem_map.mpr ⟨source, hsource, Option.some.inj hfile⟩) hnew
  have hparsed : (Css.read text).2 = none := by
    rw [Css.parse_eq_ok.mp hparse]
  have hload : ∃ id v, w.load (some path) text = (.ok id, v) := by
    unfold Workspace.load
    simp only [Option.map_some, hfree]
    split
    · next hfail => cases hparsed.symm.trans hfail
    · exact ⟨_, _, rfl⟩
  obtain ⟨id, v, hv⟩ := hload
  refine ⟨id, v, hv, ?_, ?_⟩
  · have hfresh := h.fresh.load (some path) text
    rwa [hv] at hfresh
  · obtain ⟨-, _, htrees, rfl⟩ := load_ok hv h.fresh.tidy.wellFormed
    have hread := Css.parse_eq_ok.mp htrees
    have hold := h.sheets.imp fun _ _ hs => ReadAs.withText h.fresh.tidy hs text
    show List.Forall₂ _ _ (w.sheets.push _).toList
    rw [Array.toList_push]
    refine List.rel_append hold (.cons ⟨⟨rfl, rfl⟩, rfl, by rw [hread], ?_, ?_⟩ .nil)
    · exact Document.get?_withText_root h.fresh.tidy.wellFormed text
    · exact Document.bears_withText h.fresh.tidy.wellFormed text

/-- Files with paths of their own are loaded when their texts can be read. -/
theorem exists_loadFiles {sources : List (FilePath × String)}
    (hdistinct : (sources.map fun source => source.1.normalize).Nodup)
    (hparse : ∀ source ∈ sources, ∃ trees, Css.parse source.2 = .ok trees) :
    ∃ w, loadFiles sources = .ok w ∧ Reads sources w := by
  induction sources using List.reverseRecOn with
  | nil => exact ⟨{}, rfl, fresh_empty, .nil⟩
  | append_singleton sources source ih =>
    obtain ⟨path, text⟩ := source
    rw [List.map_append, List.nodup_append] at hdistinct
    obtain ⟨hbefore, -, hnew⟩ := hdistinct
    obtain ⟨w, hw, hreads⟩ := ih hbefore fun source hs => hparse source (List.mem_append_left _ hs)
    obtain ⟨trees, htrees⟩ := hparse (path, text) (by simp)
    obtain ⟨id, v, hv, hmore⟩ := hreads.load
      (fun hmem => hnew _ hmem _ (List.mem_singleton.mpr rfl) rfl) htrees
    refine ⟨v, ?_, hmore⟩
    rw [loadFiles, loadAll] at hw
    rw [loadFiles, loadAll, List.map_append, List.foldlM_append, hw]
    simp only [List.map_cons, List.map_nil, List.foldlM_cons, List.foldlM_nil, bind, Except.bind, hv]
    rfl

theorem Reads.exists_sheet {sources : List (FilePath × String)} (h : Reads sources w)
    {source : FilePath × String} (hmem : source ∈ sources) :
    ∃ id s, w.get? id = some s ∧ ReadAs w.doc source s := by
  obtain ⟨hlen, hall⟩ := List.forall₂_iff_get.mp h.sheets
  obtain ⟨i, hi, rfl⟩ := List.getElem_of_mem hmem
  refine ⟨i, _, ?_, hall i hi (hlen ▸ hi)⟩
  rw [get?, ← Array.getElem?_toList, List.get_eq_getElem, List.getElem?_eq_getElem]

/-- What has been loaded was read from its files. -/
theorem reads_of_loadFiles {sources : List (FilePath × String)} (h : loadFiles sources = .ok w) :
    Reads sources w := by
  induction sources using List.reverseRecOn generalizing w with
  | nil =>
    cases h
    exact ⟨fresh_empty, .nil⟩
  | append_singleton sources source ih =>
    obtain ⟨path, text⟩ := source
    rw [loadFiles, loadAll, List.map_append, List.foldlM_append] at h
    simp only [List.map_cons, List.map_nil, List.foldlM_cons, List.foldlM_nil, bind, Except.bind] at h
    split at h
    · cases h
    · next v hv =>
      have hreads := ih hv
      rcases hload : v.load (some path) text with ⟨_ | id, next⟩
      · rw [hload] at h
        cases h
      · rw [hload] at h
        cases h
        obtain ⟨hfree, trees, hparse, -⟩ := load_ok hload hreads.fresh.tidy.wellFormed
        have hnew : path.normalize ∉ sources.map fun source => source.1.normalize := by
          intro hmem
          obtain ⟨source, hsource, hpath⟩ := List.mem_map.mp hmem
          obtain ⟨id, s, hs, hread⟩ := hreads.exists_sheet hsource
          exact not_held_of_taken? hfree (FilePath.normalize_normalize path) hs (hpath ▸ hread.holds)
        obtain ⟨id', v', hv', hmore⟩ := hreads.load hnew hparse
        cases hload.symm.trans hv'
        exact hmore

namespace Reads

variable {sources sources' : List (FilePath × String)} (h : Reads sources w)
include h

theorem paths : w.ids.map w.file? = sources.map fun source => some source.1.normalize := by
  obtain ⟨hlen, hall⟩ := List.forall₂_iff_get.mp h.sheets
  refine List.ext_getElem (by simp [ids, hlen]) fun i hi hj => ?_
  rw [List.length_map] at hj
  have hfile := (hall i hj (hlen ▸ hj)).holds.file
  have hlt : i < w.ids.length := by simpa using hi
  have hid : w.ids[i] = i := List.getElem_range _
  rw [List.getElem_map, List.getElem_map, hid]
  refine file?_eq_some.mpr ⟨_, ?_, hfile⟩
  rw [get?, ← Array.getElem?_toList, List.get_eq_getElem, List.getElem?_eq_getElem]

theorem catalogued (hdistinct : (sources.map fun source => source.1.normalize).Nodup) :
    w.Catalogued where
  tidy := h.fresh.tidy
  held id s hs := by
    obtain ⟨source, -, hread⟩ := h.exists_source hs
    exact ⟨_, hread.holds⟩
  nodup := by
    have hsome := hdistinct.map fun _ _ heq => Option.some.inj heq
    rw [List.map_map] at hsome
    rw [h.paths]
    exact hsome

/-- **The same files in two orders give the same stylesheets.** -/
theorem rearranged (h' : Reads sources' w') (hperm : sources.Perm sources')
    (hdistinct : (sources.map fun source => source.1.normalize).Nodup) : Rearranged w w' where
  left := h.catalogued hdistinct
  right := h'.catalogued ((hperm.map _).nodup_iff.mp hdistinct)
  paths := by
    rw [h.paths, h'.paths]
    exact hperm.map _
  twins x y s t hs ht hst := by
    obtain ⟨source, hmem, hread⟩ := h.exists_source hs
    obtain ⟨source', hmem', hread'⟩ := h'.exists_source ht
    have hpath : source'.1.normalize = source.1.normalize :=
      Option.some.inj (hread'.holds.file.symm.trans (hst.trans hread.holds.file))
    obtain rfl := List.inj_on_of_nodup_map hdistinct (hperm.mem_iff.mpr hmem') hmem hpath
    exact Twins.of_bears h.fresh.tidy.wellFormed h'.fresh.tidy.wellFormed
      (h.fresh.tidy.parent?_root hs) (h'.fresh.tidy.parent?_root ht)
      (hread'.root.trans hread.root.symm) hread.bears hread'.bears

end Reads

end Strata.Workspace
