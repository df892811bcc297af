import Strata.Proofs.FileSet
import Strata.Proofs.Forest.Planting
import Strata.Proofs.Workspace.Links

/-! Stylesheets and their files.

`OneHolder` says that no path is held twice. `SameFile` relates two states of a stylesheet that only
differ in what a plan does not read, or in the mark for deletion. `loadAll` registers some texts, all of
which are accepted; the workspace is then `Loaded` from the files among them: each file is a stylesheet
of its own that holds its path and prints as its text was read. -/
namespace Strata

namespace Document

open Forest

section withText

variable {doc : Document} (h : doc.WellFormed) (text : String)
include h

theorem get?_withText_root :
    (doc.withText text).2.get? (doc.withText text).1 = some .root := by
  have hst := h.stocked
  refine ((planted_withText h text).grown.data _ ((contains_create hst _ _).mpr (Or.inl rfl))).trans ?_
  exact (get?_create hst _ _).trans (if_pos rfl)

/-- A new sheet has its text below its root, planted in document order. -/
theorem planted_below_root : (doc.withText text).2.Bears
    (fun x => (doc.withText text).2.contains x = true)
    ((doc.withText text).2.children (doc.withText text).1) (Css.read text).1 ∧
      Visits (doc.withText text).2.children ((doc.withText text).2.children (doc.withText text).1)
        ((doc.create .root).2.plant (doc.create .root).1 (Css.read text).1).1 := by
  have hst := h.stocked
  have hbare : (doc.create .root).2.children (doc.create .root).1 = [] := by
    rw [children_create hst, children_eq_nil (not_contains_created hst _)]
  obtain ⟨tops, hchildren, hbears, hmet⟩ := exists_planted (h.create _)
    ((contains_create hst _ _).mpr (Or.inl rfl)) (Css.read text).1
  rw [hbare, List.nil_append] at hchildren
  exact ⟨hchildren ▸ hbears.congr fun x hx => ⟨hx.2, rfl, rfl⟩, hchildren ▸ hmet⟩

theorem bears_withText : (doc.withText text).2.Bears
    (fun x => (doc.withText text).2.contains x = true)
    ((doc.withText text).2.children (doc.withText text).1) (Css.read text).1 :=
  (planted_below_root h text).1

/-- What lives beside a new sheet stays as it is. -/
theorem withText_keeps {x : NodeId} (hx : doc.contains x = true) :
    (doc.withText text).2.contains x = true ∧ (doc.withText text).2.get? x = doc.get? x ∧
      (doc.withText text).2.children x = doc.children x := by
  obtain ⟨-, hgrown, hdead, -⟩ := grown_withText h text
  have hne : x ≠ (doc.withText text).1 := by
    rintro rfl
    rw [hdead] at hx
    cases hx
  refine ⟨hgrown.live x hx, hgrown.data x hx, ?_⟩
  have hst := h.stocked
  refine (children_plant (h.create _) ((contains_create hst _ _).mpr (Or.inl rfl)) _
    ((contains_create hst _ _).mpr (Or.inr hx)) hne).trans ?_
  rw [children_create hst]

/-- A new sheet has the trees of its text. -/
theorem grove_withText : (doc.withText text).2.grove (doc.withText text).1 = (Css.read text).1 :=
  (grown_withText h text).1.grove_eq (bears_withText h text)

/-- A new sheet prints as its text was read. -/
theorem css_withText :
    Document.css (doc.withText text).2 (doc.withText text).1 = Css.print (Css.read text).1 := by
  rw [css, get?_withText_root h text]
  simp only [Node.isRoot, Node.root, beq_self_eq_true, if_true, grove_withText h text]

end withText

end Document

namespace Sheet

/-- All that a plan reads off the record of a stylesheet, but the mark for deletion. -/
structure SameFile (s t : Sheet) : Prop where
  file : t.file = s.file
  holdsFile : t.holdsFile = s.holdsFile
  derived : t.derived = s.derived
  loadedPrint : t.loadedPrint = s.loadedPrint

namespace SameFile

variable {s t r : Sheet}

theorem refl (s : Sheet) : SameFile s s := ⟨rfl, rfl, rfl, rfl⟩

theorem trans (h : SameFile s t) (h' : SameFile t r) : SameFile s r :=
  ⟨h'.file.trans h.file, h'.holdsFile.trans h.holdsFile, h'.derived.trans h.derived,
    h'.loadedPrint.trans h.loadedPrint⟩

theorem of_sameButLinks (h : s.SameButLinks t) : SameFile s t :=
  ⟨h.file, h.holdsFile, h.derived, by rw [h]⟩

theorem holds_iff (h : SameFile s t) {path : FilePath} : t.Holds path ↔ s.Holds path :=
  ⟨fun ht => ⟨h.file ▸ ht.file, h.holdsFile ▸ ht.held⟩,
    fun hs => ⟨h.file.trans hs.file, h.holdsFile.trans hs.held⟩⟩

end SameFile

end Sheet

namespace Workspace

open Forest

variable {w v u : Workspace} {files : FileSet} {path : FilePath}

/-! ### Holders -/

/-- No path is held twice. -/
def OneHolder (w : Workspace) : Prop := ∀ i j s t path, w.get? i = some s → w.get? j = some t →
  s.Holds path → t.Holds path → i = j

theorem not_holds_of_holderOf?_eq_none (h : w.holderOf? path = none) {id : SheetId} {s : Sheet}
    (hs : w.get? id = some s) : ¬ s.Holds path.normalize := by
  intro hh
  have hno := Array.findIdx?_eq_none_iff.mp h s (Array.mem_of_getElem? hs)
  simp [hh.file, hh.held] at hno

theorem OneHolder.holderOf? (h : w.OneHolder) {id : SheetId} {s : Sheet} (hs : w.get? id = some s)
    (hh : s.Holds path) (hnormal : path.normalize = path) : w.holderOf? path = some id := by
  cases hfound : w.holderOf? path with
  | none => exact absurd (hnormal.symm ▸ hh) (not_holds_of_holderOf?_eq_none hfound hs)
  | some other =>
    obtain ⟨hlt, hholds, -⟩ := Array.findIdx?_eq_some_iff_getElem.mp hfound
    rw [Bool.and_eq_true, beq_iff_eq, hnormal] at hholds
    rw [h other id _ s path (Array.getElem?_eq_getElem hlt) hs ⟨hholds.2, hholds.1⟩ hh]

/-- A look-up finds the one stylesheet that holds the normal form of the path. -/
theorem OneHolder.holderOf?_eq_some (h : w.OneHolder) {id : SheetId} :
    w.holderOf? path = some id ↔ ∃ s, w.get? id = some s ∧ s.Holds path.normalize := by
  constructor
  · intro hfound
    obtain ⟨hlt, hholds, -⟩ := Array.findIdx?_eq_some_iff_getElem.mp hfound
    rw [Bool.and_eq_true, beq_iff_eq] at hholds
    exact ⟨w.sheets[id], Array.getElem?_eq_getElem hlt, hholds.2, hholds.1⟩
  · rintro ⟨s, hs, hh⟩
    rw [← holderOf?_normalize]
    exact h.holderOf? hs hh (FilePath.normalize_normalize path)

theorem get?_assignFile {id : SheetId} {path : FilePath} (h : w.assignFile id path = .ok v)
    (x : SheetId) : v.get? x = (w.get? x).map fun s =>
      if x = id then { s with file := some path.normalize, holdsFile := true }
      else if s.file = some path.normalize then { s with holdsFile := false } else s := by
  unfold assignFile at h
  simp only at h
  split at h
  · cases h
  · cases h
    rw [get?_modify]
    have hget : ∀ release : Sheet → Sheet,
        get? { w with sheets := w.sheets.map release } x = (w.get? x).map release := fun _ => by
      simp [get?]
    rw [hget]
    cases hs : w.get? x with
    | none => simp
    | some s =>
      by_cases hx : x = id
      · simp only [hx, if_true, Option.map_some, Option.some.injEq]
        split <;> rfl
      · simp [hx]

/-! ### The same files -/

/-- The second workspace has the same stylesheets for the same files. -/
structure SameFiles (w v : Workspace) : Prop where
  size : v.sheets.size = w.sheets.size
  sheet : ∀ id t, v.get? id = some t → ∃ s, w.get? id = some s ∧ s.SameFile t

namespace SameFiles

theorem of_sheets (h : v.sheets = w.sheets) : SameFiles w v :=
  ⟨by rw [h], fun _ t ht => ⟨t, by rwa [get?, ← h], .refl t⟩⟩

theorem of_sameButLinks (h : w.SameButLinks v) : SameFiles w v where
  size := h.size
  sheet id t ht := by
    obtain ⟨s, hs, hst⟩ := h.sheet id t ht
    exact ⟨s, hs, .of_sameButLinks hst⟩

theorem modify (w : Workspace) (id : SheetId) {change : Sheet → Sheet}
    (hsame : ∀ s : Sheet, s.SameFile (change s)) : SameFiles w (w.modify id change) where
  size := size_modify id change
  sheet x t ht := by
    rw [get?_modify] at ht
    split at ht
    · obtain ⟨s, hs, rfl⟩ := Option.map_eq_some_iff.mp ht
      exact ⟨s, hs, hsame s⟩
    · exact ⟨t, ht, .refl t⟩

theorem trans (h : SameFiles w v) (h' : SameFiles v u) : SameFiles w u where
  size := h'.size.trans h.size
  sheet id t ht := by
    obtain ⟨s, hs, hst⟩ := h'.sheet id t ht
    obtain ⟨r, hr, hrs⟩ := h.sheet id s hs
    exact ⟨r, hr, hrs.trans hst⟩

variable (h : SameFiles w v)
include h

theorem get?_of_left {id : SheetId} {s : Sheet} (hs : w.get? id = some s) :
    ∃ t, v.get? id = some t ∧ s.SameFile t := by
  obtain ⟨t, ht⟩ := get?_isSome.mpr (h.size ▸ lt_size hs)
  obtain ⟨s', hs', hst⟩ := h.sheet id t ht
  rw [hs] at hs'
  cases hs'
  exact ⟨t, ht, hst⟩

theorem oneHolder (hw : w.OneHolder) : v.OneHolder := by
  intro i j s t path hs ht hsp htp
  obtain ⟨s', hs', hss⟩ := h.sheet i s hs
  obtain ⟨t', ht', htt⟩ := h.sheet j t ht
  exact hw i j s' t' path hs' ht' (hss.holds_iff.mp hsp) (htt.holds_iff.mp htp)

end SameFiles

/-! ### Loading -/

/-- Some texts are loaded, one after another, up to the first that is refused. -/
def loadAll (sources : List (Option FilePath × String)) : Except MigrationError Workspace :=
  sources.foldlM (fun w (file, text) =>
    match w.load file text with
    | (.ok _, w) => .ok w
    | (.error e, _) => .error e) {}

/-- The files among some texts. -/
def filesOf (sources : List (Option FilePath × String)) : FileSet :=
  sources.foldl (fun files (file, text) =>
    match file with
    | some path => files.insert path.normalize text
    | none => files) []

/-- A stylesheet that is what a file held. -/
structure ReadFrom (files : FileSet) (s : Sheet) (path : FilePath) : Prop where
  normal : path.normalize = path
  holds : s.Holds path
  print : ∃ text trees, files.get? path = some text ∧ Css.parse text = .ok trees ∧
    s.loadedPrint = Css.print trees

structure Loaded (files : FileSet) (w : Workspace) : Prop where
  normal : files.Normal
  oneHolder : w.OneHolder
  original : ∀ id s, w.get? id = some s → s.derived = false
  read : ∀ id s path, w.get? id = some s → s.file = some path → ReadFrom files s path
  all : ∀ path ∈ files.paths, ∃ id s, w.get? id = some s ∧ s.file = some path

theorem loaded_nil : Loaded [] {} where
  normal := FileSet.normal_nil
  oneHolder i j s t path hs := by simp [get?] at hs
  original id s hs := by simp [get?] at hs
  read id s path hs := by simp [get?] at hs
  all path hp := by cases hp

/-- A text that is loaded becomes one more stylesheet. -/
theorem load_ok {file : Option FilePath} {text : String} {id : SheetId}
    (h : w.load file text = (.ok id, v)) (hw : w.doc.WellFormed) :
    w.taken? (file.map FilePath.normalize) = none ∧ ∃ trees, Css.parse text = .ok trees ∧
      v = ({ w with doc := (w.doc.withText text).2 }.push
        { Sheet.new (file.map FilePath.normalize) text (w.doc.withText text).1 with
          loadedPrint := Css.print trees }).2 := by
  rcases load_steps w file text with ⟨e, -, heq⟩ | ⟨hfree, ⟨source, -, heq⟩ | ⟨trees, hparse, heq⟩⟩
  · cases heq.symm.trans h
  · cases heq.symm.trans h
  · cases heq.symm.trans h
    rw [Document.css_withText hw, Css.parse_eq_ok.mp hparse]
    exact ⟨hfree, trees, hparse, rfl⟩

theorem not_held_of_taken? {file : FilePath} (h : w.taken? (some file) = none)
    (hnormal : file.normalize = file) {id : SheetId} {s : Sheet} (hs : w.get? id = some s) :
    ¬ s.Holds file := by
  have hfree : w.holderOf? file = none := by
    cases hholder : w.holderOf? file with
    | none => rfl
    | some other => simp [taken?, hholder] at h
  have := not_holds_of_holderOf?_eq_none hfree hs
  rwa [hnormal] at this

/-- One more holder, of a path that nobody holds. -/
theorem OneHolder.push (h : w.OneHolder) {t : Sheet}
    (hfree : ∀ path, t.Holds path → ∀ id s, w.get? id = some s → ¬ s.Holds path) :
    (w.push t).2.OneHolder := by
  intro i j s r path hs hr hsp hrp
  rcases get?_push_cases hs with hi | ⟨hi, rfl⟩
  · rcases get?_push_cases hr with hj | ⟨-, rfl⟩
    · exact h i j s r path hi hj hsp hrp
    · exact absurd hsp (hfree path hrp i s hi)
  · rcases get?_push_cases hr with hj | ⟨hj, -⟩
    · exact absurd hrp (hfree path hsp j r hj)
    · exact hi.trans hj.symm

section load

variable (h : Loaded files w) {t : Sheet} (ht : t.derived = false)
include h ht

/-- One more stylesheet without a file. -/
theorem Loaded.pushAnonymous (hfile : t.file = none) : Loaded files (w.push t).2 where
  normal := h.normal
  oneHolder := h.oneHolder.push fun path hh => by
    rw [hh.file] at hfile
    cases hfile
  original id s hs := by
    rcases get?_push_cases hs with hs | ⟨-, rfl⟩
    · exact h.original id s hs
    · exact ht
  read id s path hs hp := by
    rcases get?_push_cases hs with hs | ⟨-, rfl⟩
    · exact h.read id s path hs hp
    · rw [hp] at hfile
      cases hfile
  all path hp := by
    obtain ⟨id, s, hs, hfile⟩ := h.all path hp
    exact ⟨id, s, get?_push_of_left hs t, hfile⟩

/-- One more stylesheet that is what a new file held. -/
theorem Loaded.push {text : String} {trees : Grove Node} (hnormal : path.normalize = path)
    (hh : t.Holds path) (hfree : ∀ id s, w.get? id = some s → ¬ s.Holds path)
    (hparse : Css.parse text = .ok trees) (hprint : t.loadedPrint = Css.print trees) :
    Loaded (files.insert path text) (w.push t).2 where
  normal := h.normal.insert hnormal text
  oneHolder := h.oneHolder.push fun other hother => by
    have heq : other = path := Option.some.inj (hother.file.symm.trans hh.file)
    exact heq ▸ hfree
  original id s hs := by
    rcases get?_push_cases hs with hs | ⟨-, rfl⟩
    · exact h.original id s hs
    · exact ht
  read id s other hs hp := by
    rcases get?_push_cases hs with hs | ⟨-, rfl⟩
    · obtain ⟨hother, hheld, old, trees, hget, hrest⟩ := h.read id s other hs hp
      refine ⟨hother, hheld, old, trees, ?_, hrest⟩
      rw [FileSet.get?_insert, if_neg, hget]
      rw [FilePath.same_iff_eq hnormal hother]
      rintro rfl
      exact hfree id s hs hheld
    · have heq : other = path := Option.some.inj (hp.symm.trans hh.file)
      subst heq
      refine ⟨hnormal, hh, text, trees, ?_, hparse, hprint⟩
      rw [FileSet.get?_insert, if_pos (FilePath.same_refl other)]
  all other hp := by
    obtain ⟨hother, contents, hget⟩ := (h.normal.insert hnormal text).mem_paths.mp hp
    rw [FileSet.get?_insert] at hget
    split at hget
    · next hsame =>
      rw [← (FilePath.same_iff_eq hnormal hother).mp hsame]
      exact ⟨w.sheets.size, t, by rw [get?_push, if_pos rfl], hh.file⟩
    · obtain ⟨id, s, hs, hfile⟩ := h.all other (h.normal.mem_paths.mpr ⟨hother, contents, hget⟩)
      exact ⟨id, s, get?_push_of_left hs t, hfile⟩

end load

/-- **Texts that are all accepted are loaded from the files among them.** -/
theorem loaded_loadAll {sources : List (Option FilePath × String)} (h : loadAll sources = .ok w) :
    w.Fresh ∧ Loaded (filesOf sources) w := by
  have hrun : ∀ (v : Workspace) (files : FileSet), v.Fresh → Loaded files v →
      sources.foldlM (fun w (file, text) =>
        match w.load file text with
        | (.ok _, w) => .ok w
        | (.error e, _) => .error e) v = (.ok w : Except MigrationError Workspace) →
      w.Fresh ∧ Loaded (sources.foldl (fun files (file, text) =>
        match file with
        | some path => files.insert path.normalize text
        | none => files) files) w := by
    clear h
    induction sources with
    | nil =>
      intro v files hfresh hloaded h
      cases h
      exact ⟨hfresh, hloaded⟩
    | cons source sources ih =>
      obtain ⟨file, text⟩ := source
      intro v files hfresh hloaded h
      rw [List.foldlM_cons] at h
      have hnext := hfresh.load file text
      rcases hload : v.load file text with ⟨_ | id, next⟩
      · simp [hload] at h
        cases h
      · simp only [hload] at h hnext
        refine ih next _ hnext ?_ h
        obtain ⟨hfree, trees, hparse, rfl⟩ := load_ok hload hfresh.tidy.wellFormed
        have hdoc : Loaded files { v with doc := (v.doc.withText text).2 } :=
          ⟨hloaded.normal, hloaded.oneHolder, hloaded.original, hloaded.read, hloaded.all⟩
        cases file with
        | none => exact hdoc.pushAnonymous rfl rfl
        | some path =>
          have hnormal := FilePath.normalize_normalize path
          exact hdoc.push rfl hnormal ⟨rfl, rfl⟩
            (fun id s hs => not_held_of_taken? hfree hnormal hs) hparse rfl
  exact hrun {} [] fresh_empty loaded_nil h

theorem Loaded.congr (h : Loaded files w) (hsame : w.SameFiles v) : Loaded files v where
  normal := h.normal
  oneHolder := hsame.oneHolder h.oneHolder
  original id t ht := by
    obtain ⟨s, hs, hst⟩ := hsame.sheet id t ht
    exact hst.derived.trans (h.original id s hs)
  read id t path ht hfile := by
    obtain ⟨s, hs, hst⟩ := hsame.sheet id t ht
    obtain ⟨hnormal, hheld, hprint⟩ := h.read id s path hs (hst.file ▸ hfile)
    exact ⟨hnormal, hst.holds_iff.mpr hheld, hst.loadedPrint ▸ hprint⟩
  all path hp := by
    obtain ⟨id, s, hs, hfile⟩ := h.all path hp
    obtain ⟨t, ht, hst⟩ := hsame.get?_of_left hs
    exact ⟨id, t, ht, hst.file.trans hfile⟩

end Workspace

end Strata
