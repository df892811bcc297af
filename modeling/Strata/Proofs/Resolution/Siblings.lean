import Strata.Proofs.Path.Directory
import Strata.Proofs.Resolution
import Strata.Proofs.Text.Uses

/-! Specifiers with another last name.

An importer without a file uses a specifier that is known to lead to some file of a directory, and
exchanges its last name for that of another file there. The new specifier leads to the other file
just when the text in front of the exchanged name leads to the directory (`known_swapped_iff`). It
does not have to: the specifier may have left out the name of an index, and then the exchanged name
is that of the directory, or have no name in front of which a slash stands, or end in dots. -/
namespace Strata.Resolution

open FilePath Component

variable {files : List FilePath} {specifier name : String} {dir path p : FilePath}
  {head more cs : List Char} {names : List String}

/-- What stands in front of the last name of a specifier leads to the directory `target`. -/
def HeadLeads (dir : FilePath) (specifier : String) (target : FilePath) : Prop :=
  ∃ head last, Text.splitLast? '/' (Text.dropEndChar '/' specifier.toList) = some (head, last) ∧
    (dir.join ⟨.ofList head ++ "/"⟩).normalize = target

/-- The specifier with another last name. -/
def swapped (head : List Char) (name : String) : String := .ofList head ++ "/" ++ name

theorem toList_swapped (head : List Char) (name : String) :
    (swapped head name).toList = head ++ '/' :: name.toList := by
  simp [swapped, String.toList_append]

theorem specifierInImport_none (hname : path.fileName? = some name) :
    specifierInImport none path specifier =
      match Text.splitLast? '/' (Text.dropEndChar '/' specifier.toList) with
      | some (head, _) => swapped head name
      | none => name := by
  rw [specifierInImport, hname]
  rfl

theorem specifierInImport_none_ne_empty (hname : path.fileName? = some name) (specifier : String) :
    specifierInImport none path specifier ≠ "" := by
  rw [specifierInImport_none hname, ← String.toList_inj.ne]
  split
  · rw [toList_swapped]
    exact List.append_ne_nil_of_right_ne_nil _ (List.cons_ne_nil _ _)
  · exact (spelled_fileName hname).2.1

theorem exists_toList_of_splitLast? {last : List Char}
    (h : Text.splitLast? '/' (Text.dropEndChar '/' cs) = some (head, last)) :
    ∃ more, cs = head ++ '/' :: more := by
  obtain ⟨slashes, hcs, -⟩ := Text.exists_dropEndChar '/' cs
  refine ⟨last ++ slashes, ?_⟩
  calc cs = Text.dropEndChar '/' cs ++ slashes := hcs
    _ = head ++ '/' :: (last ++ slashes) := by
      rw [(Text.splitLast?_eq_some h).1, List.append_assoc, List.cons_append]

/-! ### Kinds of specifiers -/

/-- What is in front of the first slash does not depend on what is behind a later one. -/
theorem prefix_slash_congr (front : List Char) (hfront : '/' ∉ front)
    (h : front ++ ['/'] <+: head ++ '/' :: more) (more' : List Char) :
    front ++ ['/'] <+: head ++ '/' :: more' := by
  induction front generalizing head with
  | nil =>
    cases head with
    | nil => exact ⟨more', rfl⟩
    | cons c head =>
      obtain ⟨rfl, -⟩ := List.cons_prefix_cons.mp h
      exact ⟨head ++ '/' :: more', rfl⟩
  | cons a front ih =>
    rw [List.mem_cons, not_or] at hfront
    cases head with
    | nil => exact absurd (List.cons_prefix_cons.mp h).1.symm hfront.1
    | cons c head =>
      obtain ⟨rfl, hrest⟩ := List.cons_prefix_cons.mp h
      exact List.cons_prefix_cons.mpr ⟨rfl, ih hfront.2 hrest⟩

theorem isPath_swapped (h : isPath specifier = true) (htext : specifier.toList = head ++ '/' :: more)
    (name : String) : isPath (swapped head name) = true := by
  have hslash : '/' ∈ specifier.toList := by simp [htext]
  rw [isPath_iff, IsRelative, toList_swapped]
  rw [isPath_iff, IsRelative, htext] at h
  rcases h with (rfl | rfl | h | h) | h
  · simp at hslash
  · simp at hslash
  · exact Or.inl (Or.inr (Or.inr (Or.inl (prefix_slash_congr ['.'] (by decide) h _))))
  · exact Or.inl (Or.inr (Or.inr (Or.inr (prefix_slash_congr ['.', '.'] (by decide) h _))))
  · exact Or.inr (prefix_slash_congr [] (by decide) h _)

/-- From the root on, only two slashes lead away from all files. -/
theorem isExternal_slash (h : specifier.toList = '/' :: cs) :
    isExternal specifier = (cs.head? == some '/') := by
  cases cs with
  | nil => simp [isExternal, Text.afterCaseless?, h]
  | cons c cs =>
    have hlower : c.toLower = '/' ↔ c = '/' :=
      ⟨Text.eq_of_toLower (by decide), by rintro rfl; rfl⟩
    by_cases hc : c = '/' <;> simp [isExternal, Text.afterCaseless?, h, hlower, hc]

theorem isExternal_swapped (hpath : isPath specifier = true) (hexternal : isExternal specifier = false)
    (htext : specifier.toList = head ++ '/' :: more) (hname : Named name) :
    isExternal (swapped head name) = false := by
  have hswapped := toList_swapped head name
  rcases isPath_iff.mp (isPath_swapped hpath htext name) with hrelative | ⟨rest, hrest⟩
  · exact isExternal_of_isRelative hrelative
  · cases head with
    | nil =>
      rw [isExternal_slash hswapped, beq_eq_false_iff_ne]
      exact fun heq => hname.1 (List.mem_of_head? heq)
    | cons c head =>
      obtain rfl : '/' = c := by
        rw [hswapped] at hrest
        exact (List.cons.inj hrest).1
      rw [isExternal_slash htext] at hexternal
      rw [isExternal_slash hswapped, ← hexternal]
      cases head <;> rfl

/-! ### Where they lead -/

/-- The last name is put on top of what stands in front of it. -/
theorem foldl_swapped (hdir : dir.isAbsolute = true) (hname : Named name)
    (hfold : (dir.join ⟨swapped head ""⟩).inner.foldl fold [.root] = stacked names) :
    (dir.join ⟨swapped head name⟩).inner.foldl fold [.root] = stacked (names ++ [name]) := by
  have hinner (name : String) (hslash : '/' ∉ name.toList) : FilePath.inner ⟨swapped head name⟩ =
      (Text.splitAll '/' head).filterMap component? ++ (component? name.toList).toList := by
    rw [FilePath.inner, toList_swapped, Text.splitAll_append_cons, List.filterMap_append,
      Text.splitAll_of_not_mem hslash]
    cases hc : component? name.toList <;> simp [hc]
  have hempty := hinner "" (by decide)
  have hfull := hinner name hname.1
  have hcomponent : component? name.toList = some (.name name) := component?_text hname
  rw [show component? "".toList = none from rfl, Option.toList_none, List.append_nil] at hempty
  rw [hcomponent, Option.toList_some, ← hempty] at hfull
  have hfirst : isAbsolute ⟨swapped head name⟩ = isAbsolute ⟨swapped head ""⟩ := by
    rw [isAbsolute, isAbsolute, toList_swapped, toList_swapped]
    cases head <;> rfl
  have hjoin : (dir.join ⟨swapped head name⟩).inner =
      (dir.join ⟨swapped head ""⟩).inner ++ [.name name] := by
    cases habs : isAbsolute ⟨swapped head ""⟩ with
    | true =>
      rw [habs] at hfirst
      rw [join, if_pos hfirst, join, if_pos habs, hfull]
    | false =>
      rw [habs] at hfirst
      rw [(join_of_absolute hdir hfirst).2, (join_of_absolute hdir habs).2, hfull,
        List.append_assoc]
  rw [hjoin, List.foldl_append, hfold]
  exact foldl_names_stacked names [name]

theorem fileName?_swapped (hdir : dir.isAbsolute = true) (hname : Named name) :
    (dir.join ⟨swapped head name⟩).normalize.fileName? = some name := by
  obtain ⟨names, hnames, hfold, -⟩ := exists_ofNames (isAbsolute_join hdir ⟨swapped head ""⟩)
  rw [(normalize_of_foldl (isAbsolute_join hdir _) (foldl_swapped hdir hname hfold)).1]
  exact fileName?_ofNames (FilePath.named_append hnames hname)

theorem named_extended (hname : Named name) : Named (name ++ ".css") := by
  have hlong : 2 < (name ++ ".css").toList.length := by
    rw [String.toList_append, List.length_append]
    exact Nat.lt_add_left _ (by decide)
  refine ⟨?_, ?_, ?_, ?_⟩
  · rw [String.toList_append, List.mem_append, not_or]
    exact ⟨hname.1, by decide⟩
  all_goals
    intro heq
    simp [heq] at hlong

/-- A name alone is no path. -/
theorem isPath_of_named (hname : Named name) : isPath name = false := by
  obtain ⟨hslash, -, hdot, hdots⟩ := hname
  rw [← Bool.not_eq_true, isPath_iff, IsRelative]
  rintro ((rfl | rfl | ⟨rest, hrest⟩ | ⟨rest, hrest⟩) | ⟨rest, hrest⟩)
  · exact hdot rfl
  · exact hdots rfl
  all_goals
    rw [← hrest] at hslash
    simp at hslash

/-- Only the first of what a swapped specifier may mean has the name. -/
theorem eq_of_fileName?_variants (hdir : dir.isAbsolute = true) (hname : Named name)
    (hindex : name ≠ "index.css") {q : FilePath}
    (hq : q ∈ variants (dir.join ⟨swapped head name⟩)) (hq' : q.normalize.fileName? = some name) :
    q = dir.join ⟨swapped head name⟩ := by
  rcases List.mem_cons.mp hq with rfl | hq
  · rfl
  exfalso
  rcases List.mem_append.mp hq with hinferred | hbelow
  · have hextended : q = dir.join ⟨swapped head (name ++ ".css")⟩ := by
      have hne : (swapped head name).toList ≠ [] := by simp [toList_swapped]
      have hq : q = ⟨(dir.join ⟨swapped head name⟩).text ++ ".css"⟩ := by
        split at hinferred
        · exact List.mem_singleton.mp hinferred
        · cases hinferred
      rw [hq, ← join_append hne, swapped, String.append_assoc]
      rfl
    rw [hextended, fileName?_swapped hdir (named_extended hname)] at hq'
    have hlen := congrArg (fun s : String => s.toList.length) (Option.some.inj hq')
    simp [String.toList_append] at hlen
  · obtain ⟨names, hnames, hfold, -⟩ := exists_ofNames (isAbsolute_join hdir ⟨swapped head ""⟩)
    have hread := foldl_swapped hdir hname hfold
    rw [List.mem_singleton.mp hbelow,
      normalize_join_name (isAbsolute_join hdir _) named_index hread, fileName?_ofNames
        (FilePath.named_append (FilePath.named_append hnames hname) named_index)] at hq'
    exact hindex (Option.some.inj hq').symm

/-- A swapped specifier leads to a known path of the name straight away, or not at all. -/
theorem known_swapped (hdir : dir.isAbsolute = true) (hname : Named name)
    (hindex : name ≠ "index.css") (hpath : isPath (swapped head name) = true)
    (hexternal : isExternal (swapped head name) = false) (hmem : path ∈ files.map FilePath.normalize)
    (hfile : path.fileName? = some name) :
    known files (swapped head name) dir = some path ↔
      (dir.join ⟨swapped head name⟩).normalize = path := by
  rw [known, pathVariants_of_isPath hpath hexternal]
  constructor
  · intro hfound
    obtain ⟨q, hq, rfl⟩ := List.mem_map.mp (List.mem_of_find?_eq_some hfound)
    rw [eq_of_fileName?_variants hdir hname hindex hq hfile]
  · rintro rfl
    rw [variants, List.map_cons, List.find?_cons, List.contains_iff_mem.mpr hmem]

/-- **The specifier with another last name leads to the file of that name in a directory just when what
stands in front of the name leads to the directory.** -/
theorem known_specifierInImport_iff {file : FilePath} (hdir : dir.isAbsolute = true)
    (hknown : known files specifier dir = some file) (hname : Named name)
    (hindex : name ≠ "index.css") (hpath : path = (file.directory.join ⟨name⟩).normalize) :
    known (path :: files) (specifierInImport none path specifier) dir = some path ↔
      HeadLeads dir specifier file.directory := by
  have hnormal := normalize_of_known hknown
  have hfile := fileName?_join_directory hnormal hname
  rw [← hpath] at hfile
  rw [specifierInImport_none hfile]
  cases hsplit : Text.splitLast? '/' (Text.dropEndChar '/' specifier.toList) with
  | none =>
    refine iff_of_false ?_ ?_
    · rw [known_eq_none (isPath_of_named hname)]
      exact Option.some_ne_none path ∘ Eq.symm
    · rintro ⟨head, last, hsome, -⟩
      rw [hsplit] at hsome
      cases hsome
  | some parts =>
    obtain ⟨head, last⟩ := parts
    obtain ⟨more, htext⟩ := exists_toList_of_splitLast? hsplit
    obtain ⟨hrelative, hexternal⟩ := isPath_of_known hknown
    have hmem : path ∈ (path :: files).map FilePath.normalize :=
      List.mem_cons.mpr (Or.inl (by rw [hpath, normalize_normalize]))
    have hheads : HeadLeads dir specifier file.directory ↔
        (dir.join ⟨swapped head ""⟩).normalize = file.directory := by
      simp [HeadLeads, hsplit, swapped]
    rw [hheads, known_swapped hdir hname hindex (isPath_swapped hrelative htext name)
      (isExternal_swapped hrelative hexternal htext hname) hmem hfile]
    -- Both sides are read as the same names, with the new one at the end and without it.
    obtain ⟨names, hnames, hfold, hfront⟩ := exists_ofNames (isAbsolute_join hdir ⟨swapped head ""⟩)
    have hall := FilePath.named_append hnames hname
    rw [(normalize_of_foldl (isAbsolute_join hdir _) (foldl_swapped hdir hname hfold)).1, hfront]
    constructor
    · intro heq
      have hcomponent : component? name.toList = some (.name name) := component?_text hname
      have hparent : path.parent? = some file.directory := by
        rw [hpath]
        refine (parent?_join_directory hnormal hname.1 (by simp [hcomponent])).resolve_right ?_
        simp [hcomponent]
      rw [← heq, parent?_ofNames hall] at hparent
      exact Option.some.inj hparent
    · intro heq
      rw [hpath, ← heq, normalize_join_name (isAbsolute_ofNames names) hname]
      rw [inner_ofNames hnames]
      exact foldl_names_stacked [] names

end Strata.Resolution
