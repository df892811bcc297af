import Strata.Proofs.Resolution
import Strata.Proofs.Split.Seats
import Strata.Proofs.Transform
import Strata.Proofs.Workspace.Files

/-! What imports resolve to.

An import that is kept at a stylesheet resolved to the file of that stylesheet (`Traced`), and
transforms leave it so. Where stylesheets import one another and no file is a directory of another,
every file is in a directory (`Rooted`). -/
namespace Strata

/-- An import names a specifier. -/
def Document.Says (doc : Document) (rule : NodeId) (specifier : String) : Prop :=
  ∃ n params, doc.get? rule = some n ∧ n.params? = some params ∧
    Css.specifier? params = some specifier

namespace Workspace

open Forest FilePath Component

variable {w v : Workspace} {resolve : Resolution} {base : FilePath} {rule x : NodeId}

/-- The directory of the stylesheet that a node is in. -/
def dirOf? (w : Workspace) (x : NodeId) : Option FilePath :=
  ((w.sheetOf? x).bind w.get?).bind Sheet.dir?

theorem dirOf?_eq_some {dir : FilePath} : w.dirOf? x = some dir ↔
    ∃ id s, w.sheetOf? x = some id ∧ w.get? id = some s ∧ s.dir? = some dir := by
  simp only [dirOf?, Option.bind_eq_some_iff]
  constructor
  · intro hex
    obtain ⟨s, ⟨id, hid, hs⟩, hdir⟩ := hex
    exact ⟨id, s, hid, hs, hdir⟩
  · intro hex
    obtain ⟨id, s, hid, hs, hdir⟩ := hex
    exact ⟨s, ⟨id, hid, hs⟩, hdir⟩

/-- The specifier of an import, read in the directory of its stylesheet, resolves to a path. -/
def Resolves (w : Workspace) (resolve : Resolution) (rule : NodeId) (path : FilePath) : Prop :=
  ∃ dir specifier, w.dirOf? rule = some dir ∧ w.doc.Says rule specifier ∧
    resolve specifier dir = some path

/-- Imports resolve to the files of the stylesheets that they point at. -/
def Traced (w : Workspace) (resolve : Resolution) : Prop :=
  ∀ y t rule, w.get? y = some t → rule ∈ t.inbound →
    ∃ path, t.file = some path ∧ w.Resolves resolve rule path

/-! ### Imports that were followed -/

theorem Edge.resolves {x y : SheetId} {layers : List String} (h : w.Tidy)
    (he : w.Edge resolve base x y rule layers) :
    ∃ s t specifier path, w.sheetOf? rule = some x ∧ w.get? x = some s ∧ w.get? y = some t ∧
      w.doc.Says rule specifier ∧ resolve specifier (s.dir?.getD base) = some path ∧
      t.file = some path.normalize := by
  have hx := he.sheetOf? h
  obtain ⟨s, hs, -, hd⟩ := he
  unfold destination at hd
  split at hd
  · cases hd
  · next params hparams =>
    split at hd
    · cases hd
    · next specifier hspecifier =>
      split at hd
      · cases hd
      · next path hresolve =>
        split at hd
        · cases hd
        · next target hholder =>
          cases hd
          obtain ⟨t, ht, hfile⟩ := normalize_of_holderOf? hholder
          obtain ⟨n, hn, hparams⟩ := Option.bind_eq_some_iff.mp hparams
          exact ⟨s, t, specifier, path, hx, hs, ht, ⟨n, params, hn, hparams, hspecifier⟩, hresolve,
            hfile⟩

/-- **Where every stylesheet has a directory, imports that were followed are traced.** -/
theorem traced_of_followed {table : List (List SheetId)} (h : w.Fresh)
    (hl : (w.connect resolve base).1.inheritLayers = .ok (table, v))
    (hdir : ∀ id s, w.get? id = some s → s.dir?.isSome = true)
    (hnormal : ∀ specifier dir path, resolve specifier dir = some path → path.normalize = path) :
    v.Traced resolve := by
  have hu := linked_connect h resolve base
  have hsame := hu.same.trans (sameButLinks_inheritLayers hl)
  intro y t rule ht hr
  obtain ⟨x, layers, he⟩ := (mem_inbound_inherited hu hl ht rule).mp hr
  obtain ⟨s, t₀, specifier, path, hx, hs, ht₀, hsays, hresolve, hfile⟩ := he.resolves h.tidy
  obtain ⟨dir, hsdir⟩ := Option.isSome_iff_exists.mp (hdir x s hs)
  obtain ⟨t', ht', htt⟩ := hsame.get?_of_left ht₀
  rw [ht] at ht'
  cases ht'
  obtain ⟨s', hs', hss⟩ := hsame.get?_of_left hs
  rw [hsdir, Option.getD_some] at hresolve
  refine ⟨path, ?_, dir, specifier, dirOf?_eq_some.mpr ⟨x, s', ?_, hs', ?_⟩, ?_, hresolve⟩
  · rw [htt.file, hfile, hnormal specifier dir path hresolve]
  · rw [hsame.sheetOf?, hx]
  · rw [Sheet.dir?, hss.file]
    exact hsdir
  · rw [hsame.doc]
    exact hsays

/-- Transforms that keep imports keep them traced. -/
theorem Traced.reshaped {g : Document} (ht : w.Traced resolve) (h : w.Analysed)
    {atRule : String} (hg : Document.Reshaped atRule w.roots w.doc g) : Traced { w with doc := g } resolve := by
  intro y t rule hy hr
  obtain ⟨path, hfile, dir, specifier, hdir, ⟨n, params, hn, hparams, hspecifier⟩, hresolve⟩ :=
    ht y t rule hy hr
  obtain ⟨m, -, -, hm, himport, -⟩ := (h.rule y t rule hy hr).1.readable
  rw [hn] at hm
  cases hm
  refine ⟨path, hfile, dir, specifier, ?_, ⟨n, params, ?_, hparams, hspecifier⟩, hresolve⟩
  · unfold dirOf? at hdir ⊢
    rw [sheetOf?_reshaped h.tidy hg (by rw [hn, Option.any_some, himport])]
    exact hdir
  · exact hg.kept rule n (Node.isFixed_of_isImportRule himport) hn

/-! ### Files in directories -/

/-- Every stylesheet has a file in a directory, and no name in its path starts like the way up. -/
def Rooted (w : Workspace) : Prop :=
  ∀ id s, w.get? id = some s → ∃ names name, (∀ x ∈ names ++ [name], Named x ∧ ¬ Dotted x) ∧
    s.file = some (ofNames (names ++ [name]))

theorem Rooted.congr (h : w.Rooted) (hsame : w.SameFiles v) : v.Rooted := by
  intro id t ht
  obtain ⟨s, hs, hst⟩ := hsame.sheet id t ht
  obtain ⟨names, name, hnames, hfile⟩ := h id s hs
  exact ⟨names, name, hnames, hst.file.trans hfile⟩

theorem Rooted.dir (h : w.Rooted) {id : SheetId} {s : Sheet} (hs : w.get? id = some s) :
    ∃ names, (∀ x ∈ names, Named x) ∧ s.dir? = some (ofNames names) := by
  obtain ⟨names, name, hnames, hfile⟩ := h id s hs
  refine ⟨names, fun x hx => (hnames x (List.mem_append_left _ hx)).1, ?_⟩
  rw [Sheet.dir?, hfile]
  exact parent?_ofNames fun x hx => (hnames x hx).1

/-- Two stylesheets with files that are no directories of one another are not at the root. -/
theorem rooted_of_flat {files : FileSet} (hw : Loaded files w) {x y : SheetId}
    (hx : x < w.sheets.size) (hy : y < w.sheets.size) (hne : x ≠ y)
    (hfiled : ∀ id s, w.get? id = some s → ∃ path ∈ files.paths, s.file = some path)
    (habsolute : ∀ path ∈ files.paths, path.isAbsolute = true)
    (hdots : ∀ path ∈ files.paths, ¬ Resolution.DottedPath path)
    (hflat : Resolution.Flat files.paths) : w.Rooted := by
  intro id s hs
  obtain ⟨path, hpath, hfile⟩ := hfiled id s hs
  obtain ⟨names, hnames, -, hnormal⟩ := exists_ofNames (habsolute path hpath)
  rw [(hw.read id s path hs hfile).normal] at hnormal
  rcases List.eq_nil_or_concat names with rfl | ⟨init, name, rfl⟩
  · have honly : ∀ z, z < w.sheets.size → z = id := by
      intro z hz
      obtain ⟨t, ht⟩ := get?_isSome.mpr hz
      obtain ⟨other, hother, htfile⟩ := hfiled z t ht
      have heq : path = other := by
        refine hflat path hpath other hother ?_
        rw [hnormal, components_ofNames hnames, components_of_absolute (habsolute other hother)]
        exact ⟨other.inner, rfl⟩
      exact hw.oneHolder z id t s other ht hs (hw.read z t other ht htfile).holds
        (heq ▸ (hw.read id s path hs hfile).holds)
    exact absurd ((honly x hx).trans (honly y hy).symm) hne
  · rw [List.concat_eq_append] at hnormal hnames
    refine ⟨init, name, fun z hz => ⟨hnames z hz, fun hd => hdots path hpath ?_⟩, by rw [hfile, hnormal]⟩
    rw [hnormal]
    exact Resolution.dottedPath_of_mem hnames hz hd

end Workspace

end Strata
