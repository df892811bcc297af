import Strata.Proofs.Document.History
import Strata.Proofs.Workspace.Files

/-! Which stylesheet a path leads to.

A workspace is made by calls that load texts, add derived stylesheets and assign
paths, and its document is edited in between. `Indexed` is what every call keeps,
one that fails too: no path is held twice, files are normal, and the roots are
apart. What a look-up finds after a call follows from what it found before
(`holderOf?_push`, `holderOf?_assignFile`), and `consistent_of_calls` says what a
workspace made by calls answers. -/
namespace Strata

namespace Workspace

open Forest

variable {w v : Workspace} {id : SheetId} {path : FilePath}

/-! ### Calls -/

/-- What is asked of a workspace while it is made. -/
inductive Call where
  | load (file : Option FilePath) (text : String)
  | addDerived (file : FilePath) (root : NodeId)
  | assignFile (id : SheetId) (path : FilePath)
  | edit (e : Document.Edit)

namespace Call

/-- A derived stylesheet gets a root that is no other's, and edits leave the roots of the stylesheets
where they are. Paths and identifiers may be any. -/
def Allowed (w : Workspace) : Call → Prop
  | addDerived _ root => w.doc.contains root = true ∧ w.doc.parent? root = none ∧ root ∉ w.roots
  | edit e => e.Allowed w.doc ∧ ∀ root ∈ w.roots,
      Forest.contains (e.perform w.doc).document root = true ∧
        Forest.parent? (e.perform w.doc).document root = none
  | load .. | assignFile .. => True

/-- What a call leaves. One that fails leaves the stylesheets as they were. -/
def perform (w : Workspace) : Call → Workspace
  | load file text => (w.load file text).2
  | addDerived file root =>
    match w.addDerived file root with
    | .ok (_, v) => v
    | .error _ => w
  | assignFile id path =>
    match w.assignFile id path with
    | .ok v => v
    | .error _ => w
  | edit e => { w with doc := (e.perform w.doc).document }

end Call

theorem taken?_eq_some {file : Option FilePath} {e : MigrationError} : w.taken? file = some e ↔
    ∃ path id, file = some path ∧ w.holderOf? path = some id ∧ e = .duplicateFile path := by
  cases file with
  | none => simp [taken?]
  | some path =>
    cases hholder : w.holderOf? path with
    | none => simp [taken?, hholder]
    | some other => simp [taken?, hholder, eq_comm]

section free

variable {file : Option FilePath} (hfree : w.taken? (file.map FilePath.normalize) = none)
include hfree

theorem not_held_of_taken?_eq_none (hfile : file.map FilePath.normalize = some path) {s : Sheet}
    (hs : w.get? id = some s) : ¬ s.Holds path := by
  rw [hfile] at hfree
  obtain ⟨original, -, rfl⟩ := Option.map_eq_some_iff.mp hfile
  exact not_held_of_taken? hfree (FilePath.normalize_normalize original) hs

theorem oneHolder_push (h : w.OneHolder) {s : Sheet} (hfile : s.file = file.map FilePath.normalize) :
    (w.push s).2.OneHolder :=
  h.push fun _ hh _ _ ht => not_held_of_taken?_eq_none hfree (hfile.symm.trans hh.file) ht

end free

theorem kept_of_assignFile {target : FilePath} (hok : w.assignFile id target = .ok v) :
    (∃ s, w.get? id = some s) ∧ v.doc = w.doc ∧ v.sheets.size = w.sheets.size := by
  unfold assignFile at hok
  split at hok
  · cases hok
  · next s hs =>
    cases hok
    exact ⟨⟨s, hs⟩, rfl, by simp [modify]⟩

theorem roots_assignFile (hok : w.assignFile id path = .ok v) : v.roots = w.roots := by
  obtain ⟨-, -, hsize⟩ := kept_of_assignFile hok
  refine roots_congr hsize fun x t ht => ?_
  rw [get?_assignFile hok] at ht
  obtain ⟨s, hs, rfl⟩ := Option.map_eq_some_iff.mp ht
  refine ⟨s, hs, ?_⟩
  split
  · rfl
  · split <;> rfl

/-- What a look-up finds behind one more stylesheet, of a path that was free. -/
theorem holderOf?_push (h : w.OneHolder) {file : Option FilePath}
    (hfree : w.taken? (file.map FilePath.normalize) = none) {s : Sheet}
    (hfile : s.file = file.map FilePath.normalize) (hheld : s.holdsFile = s.file.isSome)
    (path : FilePath) : (w.push s).2.holderOf? path =
      if file.map FilePath.normalize = some path.normalize then some w.sheets.size
      else w.holderOf? path := by
  have hnew : (w.push s).2.get? w.sheets.size = some s := (get?_push s _).trans (if_pos rfl)
  refine Option.ext fun id => ?_
  rw [(oneHolder_push hfree h hfile).holderOf?_eq_some]
  by_cases hpath : file.map FilePath.normalize = some path.normalize
  · rw [if_pos hpath]
    have hs : s.Holds path.normalize :=
      ⟨hfile.trans hpath, by rw [hheld, hfile, hpath, Option.isSome_some]⟩
    constructor
    · rintro ⟨t, ht, hh⟩
      rcases get?_push_cases ht with ht | ⟨rfl, -⟩
      · exact absurd hh (not_held_of_taken?_eq_none hfree hpath ht)
      · rfl
    · intro heq
      cases heq
      exact ⟨s, hnew, hs⟩
  · rw [if_neg hpath, h.holderOf?_eq_some]
    constructor
    · rintro ⟨t, ht, hh⟩
      rcases get?_push_cases ht with ht | ⟨-, rfl⟩
      · exact ⟨t, ht, hh⟩
      · exact absurd (hfile.symm.trans hh.file) hpath
    · rintro ⟨t, ht, hh⟩
      exact ⟨t, get?_push_of_left ht s, hh⟩

theorem addDerived_steps (w : Workspace) (file : FilePath) (root : NodeId) :
    (∃ e, w.taken? (some file.normalize) = some e ∧ w.addDerived file root = .error e) ∨
    w.taken? ((some file).map FilePath.normalize) = none ∧
      ∃ s, s.file = (some file).map FilePath.normalize ∧ s.holdsFile = s.file.isSome ∧
        s.root = root ∧ w.addDerived file root = .ok (w.sheets.size, (w.push s).2) := by
  unfold addDerived
  simp only
  split
  · next e he => exact Or.inl ⟨e, he, rfl⟩
  · next hfree => exact Or.inr ⟨hfree, _, rfl, rfl, rfl, rfl⟩

/-- Files are normal, and no path is held twice. -/
structure FilesApart (w : Workspace) : Prop where
  normal : ∀ id s path, w.get? id = some s → s.file = some path → path.normalize = path
  oneHolder : w.OneHolder

theorem filesApart_empty : FilesApart {} where
  normal id s path hs := by simp [get?] at hs
  oneHolder i j s t path hs := by simp [get?] at hs

theorem oneHolder_assignFile (h : w.OneHolder) (hok : w.assignFile id path = .ok v) :
    v.OneHolder := by
  -- Whoever holds a path now is the taker, or held it before and no taker took it.
  have hcases : ∀ {x t q}, v.get? x = some t → t.Holds q →
      (x = id ∧ q = path.normalize) ∨
        (q ≠ path.normalize ∧ ∃ s, w.get? x = some s ∧ s.Holds q) := by
    intro x t q ht hh
    rw [get?_assignFile hok] at ht
    obtain ⟨s, hs, rfl⟩ := Option.map_eq_some_iff.mp ht
    by_cases hx : x = id
    · rw [if_pos hx] at hh
      exact Or.inl ⟨hx, (Option.some.inj hh.file).symm⟩
    · rw [if_neg hx] at hh
      split at hh
      · cases hh.held
      · next hfile => exact Or.inr ⟨fun heq => hfile (heq ▸ hh.file), s, hs, hh⟩
  intro i j s t q hs ht hsq htq
  rcases hcases hs hsq with ⟨hi, hq⟩ | ⟨hq, s', hs', hsq'⟩
  · rcases hcases ht htq with ⟨hj, -⟩ | ⟨hq', -⟩
    · exact hi.trans hj.symm
    · exact absurd hq hq'
  · rcases hcases ht htq with ⟨-, hq'⟩ | ⟨-, t', ht', htq'⟩
    · exact absurd hq' hq
    · exact h i j s' t' q hs' ht' hsq' htq'

namespace FilesApart

variable (h : w.FilesApart)
include h

theorem congr (hsame : w.SameFiles v) : v.FilesApart where
  normal id t path ht hp := by
    obtain ⟨s, hs, hst⟩ := hsame.sheet id t ht
    exact h.normal id s path hs (hst.file ▸ hp)
  oneHolder := hsame.oneHolder h.oneHolder

theorem withDoc (doc : Document) : FilesApart { w with doc } := h.congr (.of_sheets rfl)

theorem push {s : Sheet} {file : Option FilePath} (hfile : s.file = file.map FilePath.normalize)
    (hfree : w.taken? (file.map FilePath.normalize) = none) : (w.push s).2.FilesApart where
  normal id t path ht hp := by
    rcases get?_push_cases ht with ht | ⟨-, rfl⟩
    · exact h.normal id t path ht hp
    · rw [hfile] at hp
      obtain ⟨original, -, rfl⟩ := Option.map_eq_some_iff.mp hp
      exact FilePath.normalize_normalize original
  oneHolder := oneHolder_push hfree h.oneHolder hfile

theorem assignFile (hok : w.assignFile id path = .ok v) : v.FilesApart where
  normal x t q ht hq := by
    rw [get?_assignFile hok] at ht
    obtain ⟨s, hs, rfl⟩ := Option.map_eq_some_iff.mp ht
    split at hq
    · rw [← Option.some.inj hq]
      exact FilePath.normalize_normalize path
    · refine h.normal x s q hs ?_
      split at hq <;> exact hq
  oneHolder := oneHolder_assignFile h.oneHolder hok

/-- No call takes a path twice, whatever it is asked for. -/
theorem perform (c : Call) : (c.perform w).FilesApart := by
  cases c with
  | load file text =>
    simp only [Call.perform]
    rcases load_steps w file text with ⟨e, -, heq⟩ | ⟨hfree, ⟨source, -, heq⟩ | ⟨trees, -, heq⟩⟩
    · rw [heq]
      exact h
    · rw [heq]
      exact h.withDoc _
    · rw [heq]
      exact (h.withDoc _).push rfl hfree
  | addDerived file root =>
    simp only [Call.perform]
    rcases addDerived_steps w file root with ⟨e, -, heq⟩ | ⟨hfree, s, hfile, -, -, heq⟩
    · rw [heq]
      exact h
    · rw [heq]
      exact h.push hfile hfree
  | assignFile id path =>
    simp only [Call.perform]
    split
    · next v hok => exact h.assignFile hok
    · exact h
  | edit e => exact h.withDoc _

end FilesApart

/-- The files are apart, and the roots of the stylesheets are the tops of trees of their own. -/
structure Indexed (w : Workspace) : Prop where
  wellFormed : w.doc.WellFormed
  live : ∀ x ∈ w.roots, w.doc.contains x = true
  top : ∀ x ∈ w.roots, w.doc.parent? x = none
  apart : w.roots.Nodup
  files : w.FilesApart

namespace Indexed

variable (h : w.Indexed)
include h

/-- The document changes, and the roots stay what they are. -/
theorem withDoc {doc : Document} (hdoc : doc.WellFormed)
    (hroots : ∀ x ∈ w.roots, doc.contains x = true ∧ doc.parent? x = none) :
    Indexed { w with doc } :=
  ⟨hdoc, fun x hx => (hroots x hx).1, fun x hx => (hroots x hx).2, h.apart, h.files.withDoc doc⟩

theorem push {s : Sheet} {file : Option FilePath} (hfile : s.file = file.map FilePath.normalize)
    (hfree : w.taken? (file.map FilePath.normalize) = none)
    (hlive : w.doc.contains s.root = true) (htop : w.doc.parent? s.root = none)
    (hnew : s.root ∉ w.roots) : (w.push s).2.Indexed where
  wellFormed := h.wellFormed
  live x hx := by
    rw [roots_push, List.mem_append, List.mem_singleton] at hx
    rcases hx with hx | rfl
    · exact h.live x hx
    · exact hlive
  top x hx := by
    rw [roots_push, List.mem_append, List.mem_singleton] at hx
    rcases hx with hx | rfl
    · exact h.top x hx
    · exact htop
  apart := by
    rw [roots_push, List.nodup_append]
    refine ⟨h.apart, List.nodup_singleton _, fun x hx y hy => ?_⟩
    rw [List.mem_singleton.mp hy]
    rintro rfl
    exact hnew hx
  files := h.files.push hfile hfree

theorem load (file : Option FilePath) (text : String) : (w.load file text).2.Indexed := by
  obtain ⟨hwf, hgrown, hdead, hlive, htop⟩ := Document.grown_withText h.wellFormed text
  have hnew : (w.doc.withText text).1 ∉ w.roots := by
    intro hmem
    rw [h.live _ hmem] at hdead
    cases hdead
  have hkept : ∀ x ∈ w.roots, (w.doc.withText text).2.contains x = true ∧
      (w.doc.withText text).2.parent? x = none := fun x hx =>
    ⟨hgrown.live x (h.live x hx), (hgrown.parent x (h.live x hx)).trans (h.top x hx)⟩
  rcases load_steps w file text with ⟨e, -, heq⟩ | ⟨hfree, ⟨source, -, heq⟩ | ⟨trees, -, heq⟩⟩
  · rw [heq]
    exact h
  · rw [heq]
    refine h.withDoc (hwf.remove _) fun x hx => ?_
    have hout := Document.not_within_withText h.wellFormed text (h.live x hx)
    exact ⟨(contains_remove hwf _ x).mpr ⟨(hkept x hx).1, hout⟩,
      (parent?_remove hwf _ hout).trans (hkept x hx).2⟩
  · rw [heq]
    exact (h.withDoc hwf hkept).push rfl hfree hlive htop hnew

theorem addDerived {file : FilePath} {root : NodeId} (hlive : w.doc.contains root = true)
    (htop : w.doc.parent? root = none) (hnew : root ∉ w.roots)
    (hok : w.addDerived file root = .ok (id, v)) : v.Indexed := by
  rcases addDerived_steps w file root with ⟨e, -, heq⟩ | ⟨hfree, s, hfile, -, rfl, heq⟩
  · rw [heq] at hok
    cases hok
  · rw [heq] at hok
    cases hok
    exact h.push hfile hfree hlive htop hnew

theorem assignFile (hok : w.assignFile id path = .ok v) : v.Indexed := by
  obtain ⟨-, hdoc, -⟩ := kept_of_assignFile hok
  have hroots := roots_assignFile hok
  refine ⟨hdoc ▸ h.wellFormed, ?_, ?_, hroots ▸ h.apart, h.files.assignFile hok⟩
  · rw [hroots, hdoc]
    exact h.live
  · rw [hroots, hdoc]
    exact h.top

theorem perform {c : Call} (ha : c.Allowed w) : (c.perform w).Indexed := by
  cases c with
  | load file text => exact h.load file text
  | addDerived file root =>
    obtain ⟨hlive, htop, hnew⟩ := ha
    simp only [Call.perform]
    split
    · next id v hok => exact h.addDerived hlive htop hnew hok
    · exact h
  | assignFile id path =>
    simp only [Call.perform]
    split
    · next v hok => exact h.assignFile hok
    · exact h
  | edit e => exact h.withDoc (Document.wellFormed_perform h.wellFormed ha.1) ha.2

end Indexed

end Workspace

end Strata
