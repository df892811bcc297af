import Strata.Proofs.Path.Relative
import Strata.Resolution.Basic

/-! Resolution among known files.

A relative specifier resolves to the file it was made for (`known_specifierTo`). What resolved among
some files resolves to the same one among others, as long as the new ones among these have names of
derived files, and no file is a directory of another (`Follows.known`): a path that comes earlier in
the row is then no new file, or it is a directory of the one that was found. -/
namespace Strata

namespace FilePath

open Component

variable {name suffix : String} {fallback : Option String}

/-! ### Names of derived files -/

/-- The name has a dot behind its start, and more behind that than an extension that is inferred. -/
def Marked (name : String) : Prop :=
  ∃ stem rest, name.toList = stem ++ '.' :: rest ∧ stem ≠ [] ∧ ".css".toList.length < rest.length

theorem marked_derivedName (hname : name ≠ "") (hsuffix : ".css".toList.length < suffix.toList.length)
    (attempt : Nat) : Marked (derivedName name suffix fallback attempt) := by
  obtain ⟨stem, rest, htext, hlen, hstem⟩ := exists_stem name suffix fallback attempt
  refine ⟨stem, rest, htext, ?_, Nat.lt_of_lt_of_le hsuffix hlen⟩
  rcases hstem with rfl | ⟨hne, -⟩
  · exact fun hnil => hname (String.toList_eq_nil_iff.mp hnil)
  · exact hne

/-- A derived file is not named like the way up unless what it is named for is. -/
theorem not_dotted_derivedName (hname : name ≠ "") (hdot : name ≠ ".") (hdots : ¬ Dotted name)
    (attempt : Nat) : ¬ Dotted (derivedName name suffix fallback attempt) := by
  obtain ⟨stem, rest, htext, -, hstem⟩ := exists_stem name suffix fallback attempt
  intro hd
  rw [Dotted, htext] at hd
  cases stem with
  | nil =>
    rcases hstem with hnil | ⟨hne, -⟩
    · exact hname (String.toList_eq_nil_iff.mp hnil.symm)
    · exact hne rfl
  | cons a stem =>
    cases stem with
    | nil =>
      have ha : a = '.' := by simpa using hd
      subst ha
      rcases hstem with hname | ⟨-, -, ext, hname⟩
      · exact hdot (String.toList_injective hname.symm)
      · exact hdots (by rw [Dotted, hname]; rfl)
    | cons b stem =>
      have hab : a = '.' ∧ b = '.' := by simpa using hd
      refine hdots ?_
      rcases hstem with hname | ⟨-, -, ext, hname⟩
      · rw [Dotted, ← hname, hab.1, hab.2]
        rfl
      · rw [Dotted, hname, hab.1, hab.2]
        rfl

/-- A marked name that ends in an inferred extension is marked without it. -/
theorem Marked.of_extended {last : List Char} (h : Marked (.ofList (last ++ ".css".toList))) :
    ∃ stem rest, last = stem ++ '.' :: rest ∧ stem ≠ [] ∧ rest ≠ [] := by
  obtain ⟨stem, rest, htext, hne, hlen⟩ := h
  rw [String.toList_ofList] at htext
  rw [List.append_cons] at htext
  rcases List.append_eq_append_iff.mp htext with ⟨more, hstem, hcss⟩ | ⟨more, hlast, hrest⟩
  · rw [hcss, List.length_append] at hlen
    omega
  · refine ⟨stem, more, by simpa using hlast, hne, ?_⟩
    rintro rfl
    rw [hrest] at hlen
    exact absurd hlen (Nat.lt_irrefl _)

/-- A name with a dot behind its start has an extension. -/
theorem isSome_extension? {p : FilePath} {stem rest : List Char} (h : p.fileName? = some name)
    (htext : name.toList = stem ++ '.' :: rest) (hne : stem ≠ []) : p.extension?.isSome = true := by
  unfold extension?
  rw [h, Option.bind_eq_bind, Option.bind_some]
  split
  · next hnone =>
    have hdot := Text.splitLast?_eq_none hnone
    rw [htext] at hdot
    simp at hdot
  · next after hsplit =>
    obtain ⟨heq, hdot⟩ := Text.splitLast?_eq_some hsplit
    obtain ⟨c, cs, rfl⟩ := List.exists_cons_of_ne_nil hne
    rw [htext, List.nil_append, List.cons_append] at heq
    rw [← (List.cons.inj heq).2] at hdot
    simp at hdot
  · rfl

end FilePath

namespace Resolution

open FilePath Component

variable {files before after : List FilePath} {specifier : String} {dir path p : FilePath}
  {start goal : List String}

/-- What a specifier resolves to is a normal path. -/
theorem normalize_of_known (h : known files specifier dir = some path) : path.normalize = path := by
  obtain ⟨q, -, rfl⟩ := List.mem_map.mp (List.mem_of_find?_eq_some h)
  exact normalize_normalize q

/-- A text that is neither relative nor absolute resolves to nothing. -/
theorem known_eq_none (h : isPath specifier = false) : known files specifier dir = none := by
  rw [known, pathVariants, h]
  simp

theorem isPath_of_known (h : known files specifier dir = some path) :
    isPath specifier = true ∧ isExternal specifier = false := by
  have hmem := List.mem_of_find?_eq_some h
  unfold pathVariants at hmem
  split at hmem
  · cases hmem
  · next hkind =>
    simp only [Bool.or_eq_true, Bool.not_eq_true', not_or, Bool.not_eq_true, Bool.not_eq_false]
      at hkind
    exact ⟨hkind.2, hkind.1.2⟩

/-! ### Specifiers made for a file -/

theorem isPath_iff :
    isPath specifier = true ↔ IsRelative specifier ∨ ['/'] <+: specifier.toList := by
  simp only [isPath, IsRelative, Bool.or_eq_true, beq_iff_eq, List.any_cons, List.any_nil,
    List.isPrefixOf_iff_prefix, Bool.or_false, or_assoc]

/-- A path, unless it is external, means one of the variants of the joined path. -/
theorem pathVariants_of_isPath (h : isPath specifier = true) (hexternal : isExternal specifier = false)
    (dir : FilePath) : pathVariants specifier dir = variants (dir.join ⟨specifier⟩) := by
  have hne : specifier.isEmpty = false := by
    by_contra hempty
    rw [Bool.not_eq_false, String.isEmpty_iff] at hempty
    rw [hempty] at h
    revert h
    decide
  rw [pathVariants, hne, hexternal, h]
  rfl

theorem isExternal_of_isRelative (h : IsRelative specifier) : isExternal specifier = false := by
  obtain ⟨rest, hrest⟩ := List.head?_eq_some_iff.mp h.head?
  simp [isExternal, Text.afterCaseless?, hrest]

theorem pathVariants_of_isRelative (h : IsRelative specifier) (dir : FilePath) :
    pathVariants specifier dir = variants (dir.join ⟨specifier⟩) :=
  pathVariants_of_isPath (isPath_iff.mpr (Or.inl h)) (isExternal_of_isRelative h) dir

/-- A relative specifier resolves to the known file that it leads to. -/
theorem known_of_isRelative (h : IsRelative specifier)
    (hjoin : (dir.join ⟨specifier⟩).normalize = path) (hmem : path ∈ files.map FilePath.normalize) :
    known files specifier dir = some path := by
  rw [known, pathVariants_of_isRelative h, variants, List.map_cons, hjoin, List.find?_cons,
    List.contains_iff_mem.mpr hmem]

/-- **A specifier resolves to the known file it was made for.** -/
theorem known_specifierTo (hstart : ∀ s ∈ start, Named s) (hgoal : ∀ s ∈ goal, Named s)
    (hdots : ∀ s ∈ goal, ¬ Dotted s) (hmem : ofNames goal ∈ files) :
    known files (specifierTo (ofNames start) (ofNames goal)) (ofNames start) =
      some (ofNames goal) := by
  rw [specifierTo_ofNames hstart hgoal]
  refine known_of_isRelative ?_ (normalize_join_written (isAbsolute_ofNames start) ?_ hgoal)
    (List.mem_map.mpr ⟨_, hmem, normalize_ofNames hgoal⟩)
  · refine (isRelative_written_iff (spelled_route start hgoal)).mpr fun s hs => hdots s ?_
    obtain ⟨more, rfl⟩ := head?_route.mp hs
    simp
  · rw [inner_ofNames hstart]
    exact foldl_names_stacked [] start

/-! ### Files that follow others -/

/-- No file is a directory of another. -/
def Flat (files : List FilePath) : Prop :=
  ∀ p ∈ files, ∀ q ∈ files, p.components <+: q.components → p = q

/-- The path of a derived file. -/
def MarkedPath (p : FilePath) : Prop :=
  ∃ names name, (∀ s ∈ names ++ [name], Named s) ∧ p = ofNames (names ++ [name]) ∧ Marked name

/-- A component of the path starts like the way up. -/
def DottedPath (p : FilePath) : Prop := ∃ s, .name s ∈ p.components ∧ Dotted s

/-- New files among some are derived. -/
structure Follows (before after : List FilePath) : Prop where
  normal : ∀ q ∈ after, q.normalize = q
  new : ∀ q ∈ after, q ∈ before ∨ MarkedPath q
  flat : Flat after

/-- The first path may take the place of the second one only where that is no file beside it. -/
def Yields (p q : FilePath) : Prop :=
  MarkedPath p → p.components <+: q.components ∧ p ≠ q ∨ DottedPath q

theorem yields_below {names : List String} {name : String} (h : ∀ s ∈ names ++ [name], Named s) :
    Yields (ofNames names) (ofNames (names ++ [name])) := by
  have hnames : ∀ s ∈ names, Named s := fun s hs => h s (List.mem_append_left _ hs)
  refine fun _ => Or.inl ⟨?_, fun heq => ?_⟩
  · rw [components_ofNames hnames, components_ofNames h, List.map_append]
    exact ⟨[.name name], rfl⟩
  · have hlen := congrArg List.length (ofNames_injective hnames h heq)
    simp at hlen

theorem marked_of_path {names : List String} {name : String} (h : ∀ s ∈ names ++ [name], Named s)
    (hmarked : MarkedPath (ofNames (names ++ [name]))) : Marked name := by
  obtain ⟨names', name', h', heq, hmarked⟩ := hmarked
  obtain ⟨-, hname⟩ := List.append_inj' (ofNames_injective h h' heq) rfl
  rw [List.singleton_inj.mp hname]
  exact hmarked

theorem named_index : Named "index.css" := by
  refine ⟨?_, ?_, ?_, ?_⟩ <;> decide

/-- A path with an index below it. -/
theorem yields_index (hp : p.isAbsolute = true) :
    Yields p.normalize (p.join ⟨"index.css"⟩).normalize := by
  obtain ⟨names, hnames, hfold, hnormal⟩ := exists_ofNames hp
  rw [hnormal, normalize_join_name hp named_index hfold]
  exact yields_below (named_append hnames named_index)

/-- A path without an extension, and with the inferred one. -/
theorem yields_extended (hp : p.isAbsolute = true) (hext : p.extension? = none) :
    Yields p.normalize (FilePath.mk (p.text ++ ".css")).normalize := by
  obtain ⟨names, last, hends⟩ := exists_ends hp
  have hplain : Ends p names last := by simpa using hends "" (by simp)
  have hlonger := hends ".css" (by decide)
  have hname : component? (last ++ ".css".toList) = some (.name (.ofList (last ++ ".css".toList))) :=
    component?_of_length (by simp)
  rw [hlonger.normalize_name hname]
  cases hc : component? last with
  | none =>
    rw [hplain.normalize_filler hc]
    exact yields_below (hlonger.named_append hname)
  | some c =>
    intro hmarked
    cases c with
    | name s =>
      rw [hplain.normalize_name hc] at hmarked
      obtain ⟨stem, rest, htext, hne, -⟩ := marked_of_path (hplain.named_append hc) hmarked
      have hsome := isSome_extension? (hplain.fileName?_eq hc) htext hne
      rw [hext] at hsome
      cases hsome
    | parent =>
      right
      have hlast : last = ['.', '.'] := by
        unfold component? at hc
        split at hc
        · cases hc
        · split at hc
          · assumption
          · cases hc
      refine ⟨.ofList (last ++ ".css".toList), ?_, ?_⟩
      · rw [components_ofNames (hlonger.named_append hname), List.map_append]
        simp
      · rw [Dotted, String.toList_ofList, hlast]
        rfl
    | root => cases spelled_of_component? hplain.bare hc
    | current => cases spelled_of_component? hplain.bare hc

/-- The inferred extension comes before the index: a derived file has another extension. -/
theorem not_marked_extended (hp : p.isAbsolute = true) (hext : p.extension? = none) :
    ¬ MarkedPath (FilePath.mk (p.text ++ ".css")).normalize := by
  obtain ⟨names, last, hends⟩ := exists_ends hp
  have hplain : Ends p names last := by simpa using hends "" (by simp)
  have hlonger := hends ".css" (by decide)
  have hname : component? (last ++ ".css".toList) = some (.name (.ofList (last ++ ".css".toList))) :=
    component?_of_length (by simp)
  rw [hlonger.normalize_name hname]
  intro hmarked
  obtain ⟨stem, rest, hlast, hstem, hrest⟩ :=
    (marked_of_path (hlonger.named_append hname) hmarked).of_extended
  have hlen : 2 < last.length := by
    have := List.length_pos_iff.mpr hstem
    have := List.length_pos_iff.mpr hrest
    rw [hlast, List.length_append, List.length_cons]
    omega
  have hsome := isSome_extension? (hplain.fileName?_eq (component?_of_length hlen))
    (by rw [String.toList_ofList, hlast]) hstem
  rw [hext] at hsome
  cases hsome

theorem yields_variants (hp : p.isAbsolute = true) :
    ((variants p).map FilePath.normalize).Pairwise Yields := by
  unfold variants
  split
  · next hext =>
    have hext := Option.isNone_iff_eq_none.mp hext
    simp only [List.singleton_append, List.map_cons, List.map_nil, List.pairwise_cons,
      List.mem_cons, List.not_mem_nil, or_false, forall_eq_or_imp, forall_eq]
    exact ⟨⟨yields_extended hp hext, yields_index hp⟩,
      fun h => absurd h (not_marked_extended hp hext), fun _ h => (nomatch h), .nil⟩
  · simp only [List.nil_append, List.map_cons, List.map_nil, List.pairwise_cons, List.mem_cons,
      List.not_mem_nil, or_false, forall_eq]
    exact ⟨yields_index hp, fun _ h => (nomatch h), .nil⟩

/-- **What resolved to a file that is left resolves to it still.** -/
theorem Follows.known (h : Follows before after) (hdir : dir.isAbsolute = true)
    (hk : known before specifier dir = some path) (hpath : path ∈ after) (hdots : ¬ DottedPath path) :
    Resolution.known after specifier dir = some path := by
  have hyields : ((pathVariants specifier dir).map FilePath.normalize).Pairwise Yields := by
    unfold pathVariants
    split
    · exact .nil
    · exact yields_variants (isAbsolute_join hdir _)
  unfold Resolution.known at hk ⊢
  obtain ⟨-, ahead, rest, hlist, hahead⟩ := List.find?_eq_some_iff_append.mp hk
  have hmem : ∀ q, q ∈ after → q ∈ after.map FilePath.normalize := fun q hq =>
    List.mem_map.mpr ⟨q, hq, h.normal q hq⟩
  refine List.find?_eq_some_iff_append.mpr ⟨List.contains_iff_mem.mpr (hmem path hpath), ahead, rest,
    hlist, fun q hq => ?_⟩
  rw [hlist] at hyields
  rw [Bool.not_eq_true', ← Bool.not_eq_true, List.contains_iff_mem]
  intro hafter
  obtain ⟨r, hr, rfl⟩ := List.mem_map.mp hafter
  rw [h.normal r hr] at hq
  rcases h.new r hr with hbefore | hmarked
  · have hno := hahead r hq
    rw [Bool.not_eq_true', ← Bool.not_eq_true, List.contains_iff_mem] at hno
    exact hno (List.mem_map.mpr ⟨r, hbefore, h.normal r hr⟩)
  · rcases (List.pairwise_append.mp hyields).2.2 r hq path (List.mem_cons_self ..) hmarked with
      ⟨habove, hne⟩ | hdotted
    · exact hne (h.flat r hr path hpath habove)
    · exact hdots hdotted

/-! ### Names of importers -/

/-- A text without the slashes at its end, and these. -/
theorem inner_specifierName (specifier : String) : ∃ front,
    inner ⟨specifier⟩ = front ++ (component? (specifierName specifier).toList).toList := by
  obtain ⟨slashes, htext, hslashes⟩ := Text.exists_dropEndChar '/' specifier.toList
  have hcut : ∀ cs slashes : List Char, (∀ c ∈ slashes, c = '/') →
      (Text.splitAll '/' (cs ++ slashes)).filterMap component? =
        (Text.splitAll '/' cs).filterMap component? := by
    intro cs slashes hslashes
    induction slashes generalizing cs with
    | nil => rw [List.append_nil]
    | cons c slashes ih =>
      rw [hslashes c (List.mem_cons_self ..), Text.splitAll_append_cons, List.filterMap_append]
      have hrest := ih [] fun d hd => hslashes d (List.mem_cons_of_mem _ hd)
      rw [List.nil_append] at hrest
      rw [hrest]
      exact List.append_nil _
  unfold FilePath.inner specifierName
  simp only
  rw [htext, hcut _ _ hslashes]
  have hagain : Text.dropEndChar '/' (Text.dropEndChar '/' specifier.toList ++ slashes) =
      Text.dropEndChar '/' specifier.toList := by rw [← htext]
  rw [hagain]
  generalize Text.dropEndChar '/' specifier.toList = trimmed
  split
  · next head last hsplit =>
    obtain ⟨rfl, hlast⟩ := Text.splitLast?_eq_some hsplit
    refine ⟨(Text.splitAll '/' head).filterMap component?, ?_⟩
    rw [Text.splitAll_append_cons, List.filterMap_append, Text.splitAll_of_not_mem hlast,
      String.toList_ofList]
    cases hc : component? last <;> simp [hc]
  · next hsplit =>
    refine ⟨[], ?_⟩
    rw [Text.splitAll_of_not_mem (Text.splitLast?_eq_none hsplit), String.toList_ofList]
    cases hc : component? trimmed <;> simp [hc]

theorem dottedPath_of_mem {names : List String} {name : String} (h : ∀ s ∈ names, Named s)
    (hm : name ∈ names) (hdotted : Dotted name) : DottedPath (ofNames names) := by
  refine ⟨name, ?_, hdotted⟩
  rw [components_ofNames h]
  exact List.mem_cons_of_mem _ (List.mem_map_of_mem hm)

theorem not_dottedPath_ofNames {names : List String} (h : ∀ s ∈ names, Named s ∧ ¬ Dotted s) :
    ¬ DottedPath (ofNames names) := by
  intro hdotted
  obtain ⟨s, hs, hdots⟩ := hdotted
  rw [components_ofNames fun x hx => (h x hx).1] at hs
  obtain ⟨x, hx, hxs⟩ := List.mem_map.mp ((List.mem_cons.mp hs).resolve_left (by simp))
  exact (h x hx).2 (Component.name.inj hxs ▸ hdots)

/-- What a path may mean has its last name in it, or starts a name with it. -/
theorem dotted_variants (hp : p.isAbsolute = true) {front : List Component} {name : String}
    (hinner : p.inner = front ++ [.name name]) (hdotted : Dotted name) :
    ∀ q ∈ (variants p).map FilePath.normalize, DottedPath q := by
  have hspelled : ∀ c ∈ front ++ [.name name], c.Spelled := fun c hc =>
    spelled_of_mem_inner (hinner ▸ hc)
  obtain ⟨names, hnames, hfront⟩ := exists_names []
    (fun c hc => hspelled c (List.mem_append_left _ hc)) (by simp)
  have hall : ∀ s ∈ names ++ [name], Named s :=
    FilePath.named_append hnames (hspelled _ (List.mem_append_right _ (List.mem_singleton_self _)))
  have hfold : p.inner.foldl fold [.root] = stacked (names ++ [name]) := by
    rw [hinner, List.foldl_append, show front.foldl fold [.root] = stacked names from hfront]
    exact foldl_names_stacked names [name]
  have hnormal := (normalize_of_foldl hp hfold).1
  have hplain : DottedPath p.normalize := by
    rw [hnormal]
    exact dottedPath_of_mem hall (by simp) hdotted
  have hbelow : DottedPath (p.join ⟨"index.css"⟩).normalize := by
    rw [normalize_join_name hp named_index hfold]
    exact dottedPath_of_mem (FilePath.named_append hall named_index) (by simp) hdotted
  have hextended : DottedPath (FilePath.mk (p.text ++ ".css")).normalize := by
    obtain ⟨others, last, hends⟩ := exists_ends hp
    have hshort : Ends p others last := by simpa using hends "" (by simp)
    have hlonger := hends ".css" (by decide)
    have hname : component? (last ++ ".css".toList) =
        some (.name (.ofList (last ++ ".css".toList))) := component?_of_length (by simp)
    rw [hlonger.normalize_name hname]
    cases hc : component? last with
    | none =>
      have hothers : others = names ++ [name] := by
        refine ofNames_injective hshort.named hall ?_
        rw [← hshort.normalize_filler hc, hnormal]
      refine dottedPath_of_mem (hlonger.named_append hname) ?_ hdotted
      rw [hothers]
      simp
    | some c =>
      obtain ⟨front', -, hinner'⟩ := hshort.front
      rw [hinner, hc, Option.toList_some] at hinner'
      cases List.singleton_inj.mp (List.append_inj' hinner' rfl).2
      have hlast : name.toList = last := by
        unfold component? at hc
        split at hc
        · cases hc
        · split at hc
          · cases hc
          · cases hc
            exact String.toList_ofList
      refine dottedPath_of_mem (hlonger.named_append hname)
        (List.mem_append_right _ (List.mem_singleton_self _)) ?_
      have hlen : 2 ≤ last.length := by
        have hlen := congrArg List.length hdotted
        rw [hlast, List.length_take] at hlen
        exact Nat.le_trans (Nat.le_of_eq hlen.symm) (Nat.min_le_right ..)
      rw [Dotted, String.toList_ofList, List.take_append_of_le_length hlen, ← hlast]
      exact hdotted
  unfold variants
  intro q hq
  split at hq
  · simp only [List.singleton_append, List.map_cons, List.map_nil, List.mem_cons,
      List.not_mem_nil, or_false] at hq
    rcases hq with rfl | rfl | rfl
    · exact hplain
    · exact hextended
    · exact hbelow
  · simp only [List.nil_append, List.map_cons, List.map_nil, List.mem_cons, List.not_mem_nil,
      or_false] at hq
    rcases hq with rfl | rfl
    · exact hplain
    · exact hbelow

/-- **A name like the way up is a name in the path that its specifier resolves to.** -/
theorem dottedPath_of_known (hdir : dir.isAbsolute = true)
    (hk : Resolution.known files specifier dir = some path) {name : String}
    (hname : component? (specifierName specifier).toList = some (.name name))
    (hdotted : Dotted name) : DottedPath path := by
  have hmem := List.mem_of_find?_eq_some hk
  unfold pathVariants at hmem
  split at hmem
  · cases hmem
  · obtain ⟨front, hfront⟩ := inner_specifierName specifier
    rw [hname, Option.toList_some] at hfront
    cases hrelative : (FilePath.mk specifier).isAbsolute with
    | true =>
      have hjoin : dir.join ⟨specifier⟩ = ⟨specifier⟩ := by rw [join, if_pos hrelative]
      rw [hjoin] at hmem
      exact dotted_variants hrelative hfront hdotted path hmem
    | false =>
      obtain ⟨habs, hjoin⟩ := join_of_absolute hdir hrelative
      rw [hfront, ← List.append_assoc] at hjoin
      exact dotted_variants habs hjoin hdotted path hmem

end Resolution

end Strata
