import Strata.Proofs.Path.Specifier

/-! Absolute paths.

The normal form of an absolute path is the root with some names below it (`ofNames`). Joining,
extending and leaving such a path is appending to these names or dropping some. -/
namespace Strata

namespace Text

theorem splitAll_append_cons (sep : Char) (cs ds : List Char) :
    splitAll sep (cs ++ sep :: ds) = splitAll sep cs ++ splitAll sep ds := by
  induction cs with
  | nil => simp [splitAll]
  | cons c cs ih =>
    rw [List.cons_append, splitAll, splitAll, ih]
    split
    · rfl
    · cases hs : splitAll sep cs with
      | nil => exact absurd hs (splitAll_ne_nil sep cs)
      | cons p ps => rfl

end Text

/-- A name that a path can have between slashes. -/
abbrev Component.Named (s : String) : Prop := (Component.name s).Spelled

namespace FilePath

open Component

variable {p q : FilePath} {names more : List String} {name : String}

/-- The components between the slashes of a text. -/
def inner (p : FilePath) : List Component := (Text.splitAll '/' p.text.toList).filterMap component?

theorem components_of_absolute (h : p.isAbsolute = true) : p.components = .root :: p.inner := by
  simp only [components, h, if_true]
  rfl

theorem spelled_of_mem_inner {c : Component} (h : c ∈ p.inner) : c.Spelled := spelled_inner h

/-! ### The names below the root -/

/-- The normal path of some names below the root. -/
def ofNames (names : List String) : FilePath := ofComponents (.root :: names.map .name)

theorem components_ofNames (h : ∀ s ∈ names, Named s) :
    (ofNames names).components = .root :: names.map .name :=
  components_ofComponents_absolute fun c hc => by
    obtain ⟨s, hs, rfl⟩ := List.mem_map.mp hc
    exact h s hs

theorem ofNames_injective (h : ∀ s ∈ names, Named s) (hmore : ∀ s ∈ more, Named s)
    (heq : ofNames names = ofNames more) : names = more := by
  have hcs := components_ofNames h
  rw [heq, components_ofNames hmore] at hcs
  exact (List.map_injective_iff.mpr (fun _ _ => Component.name.inj) (List.cons.inj hcs).2).symm

theorem isAbsolute_ofNames (names : List String) : (ofNames names).isAbsolute = true := by
  simp [isAbsolute, ofNames, ofComponents, String.toList_append]

theorem named_append (h : ∀ s ∈ names, Named s)
    (hname : Named name) : ∀ s ∈ names ++ [name], Named s := by
  intro s hs
  rcases List.mem_append.mp hs with hs | hs
  · exact h s hs
  · exact List.mem_singleton.mp hs ▸ hname

/-- The components of some names below the root, the last one first. -/
def stacked (names : List String) : List Component := (names.map .name).reverse ++ [.root]

theorem stacked_append (names more : List String) :
    stacked (names ++ more) = (more.map Component.name).reverse ++ stacked names := by
  simp [stacked]

/-- Names are put on top of what was read. -/
theorem foldl_names (names : List String) (seen : List Component) :
    (names.map Component.name).foldl fold seen = (names.map Component.name).reverse ++ seen := by
  induction names generalizing seen with
  | nil => rfl
  | cons s names ih => simp [fold, ih]

theorem foldl_names_stacked (names more : List String) :
    (more.map Component.name).foldl fold (stacked names) = stacked (names ++ more) := by
  rw [foldl_names, stacked_append]

/-- Below the root there are only names. -/
theorem exists_names (names : List String) {cs : List Component} (hcs : ∀ c ∈ cs, c.Spelled)
    (h : ∀ s ∈ names, Named s) :
    ∃ more : List String, (∀ s ∈ more, Named s) ∧ cs.foldl fold (stacked names) = stacked more := by
  induction cs generalizing names with
  | nil => exact ⟨names, h, rfl⟩
  | cons c cs ih =>
    have hrest : ∀ d ∈ cs, d.Spelled := fun d hd => hcs d (List.mem_cons_of_mem _ hd)
    have hc := hcs c (List.mem_cons_self ..)
    cases c with
    | root => cases hc
    | current => cases hc
    | name s =>
      obtain ⟨more, hmore, heq⟩ := ih (names ++ [s]) hrest (by
        intro t ht
        rcases List.mem_append.mp ht with ht | ht
        · exact h t ht
        · exact List.mem_singleton.mp ht ▸ hc)
      rw [stacked_append] at heq
      exact ⟨more, hmore, heq⟩
    | parent =>
      rcases List.eq_nil_or_concat names with rfl | ⟨init, s, rfl⟩
      · obtain ⟨more, hmore, heq⟩ := ih [] hrest (by simp)
        exact ⟨more, hmore, heq⟩
      · obtain ⟨more, hmore, heq⟩ := ih init hrest fun t ht => h t (by simp [ht])
        refine ⟨more, hmore, ?_⟩
        rw [List.concat_eq_append, stacked_append]
        exact heq

theorem normalize_of_foldl (h : p.isAbsolute = true)
    (hfold : p.inner.foldl fold [.root] = stacked names) :
    p.normalize = ofNames names ∧ p.normalComponents = .root :: names.map .name := by
  have hnormal : p.normalComponents = .root :: names.map .name := by
    rw [normalComponents, components_of_absolute h, List.foldl_cons]
    show (p.inner.foldl fold [.root]).reverse = _
    rw [hfold]
    simp [stacked]
  refine ⟨?_, hnormal⟩
  unfold normalize
  rw [hnormal]
  rfl

/-- **The normal form of an absolute path is the root with some names below it.** -/
theorem exists_ofNames (h : p.isAbsolute = true) : ∃ names, (∀ s ∈ names, Named s) ∧
    p.inner.foldl fold [.root] = stacked names ∧
    p.normalize = ofNames names := by
  obtain ⟨names, hnames, hfold⟩ := exists_names []
    (fun c (hc : c ∈ p.inner) => spelled_of_mem_inner hc) (by simp)
  exact ⟨names, hnames, hfold, (normalize_of_foldl h hfold).1⟩

theorem inner_ofNames (h : ∀ s ∈ names, Named s) : (ofNames names).inner = names.map .name := by
  have hcs := components_of_absolute (isAbsolute_ofNames names)
  rw [components_ofNames h] at hcs
  exact (List.cons.inj hcs).2.symm

theorem normalComponents_ofNames (h : ∀ s ∈ names, Named s) :
    (ofNames names).normalComponents = .root :: names.map .name := by
  refine (normalize_of_foldl (isAbsolute_ofNames names) ?_).2
  rw [inner_ofNames h]
  exact foldl_names_stacked [] names

theorem normalize_ofNames (h : ∀ s ∈ names, Named s) : (ofNames names).normalize = ofNames names := by
  refine (normalize_of_foldl (isAbsolute_ofNames names) ?_).1
  rw [inner_ofNames h]
  exact foldl_names_stacked [] names

/-! ### Joined paths -/

/-- The components of a relative path follow those of the other. -/
theorem join_of_relative (p : FilePath) (hq : q.isAbsolute = false) :
    (p.join q).isAbsolute = p.isAbsolute ∧ (p.join q).inner = p.inner ++ q.inner := by
  rcases eq_or_ne p.text.toList [] with hnil | hne
  · have hempty : p.text = "" := String.toList_eq_nil_iff.mp hnil
    have hjoin : p.join q = q := by
      simp [join, hq, hempty]
    rw [hjoin, hq]
    refine ⟨by simp [isAbsolute, hnil], ?_⟩
    simp [inner, hnil, Text.splitAll, component?]
  obtain ⟨c, cs, hcs⟩ := List.exists_cons_of_ne_nil hne
  have habs : ∀ more : String, isAbsolute ⟨p.text ++ more⟩ = p.isAbsolute := by
    intro more
    simp only [isAbsolute, hcs, List.head?_cons, String.toList_append, List.cons_append]
  have hfilled : p.text.isEmpty = false := by
    rw [← Bool.not_eq_true, String.isEmpty_iff, ← String.toList_eq_nil_iff]
    exact hne
  unfold join
  rw [if_neg (by simp [hq]), hfilled, Bool.false_or]
  split
  · next hlast =>
    obtain ⟨cs, hcs⟩ := List.getLast?_eq_some_iff.mp (beq_iff_eq.mp hlast)
    refine ⟨habs q.text, ?_⟩
    have hempty : (Text.splitAll '/' ([] : List Char)).filterMap component? = [] := by decide
    unfold inner
    rw [String.toList_append, hcs, List.append_assoc, List.singleton_append,
      Text.splitAll_append_cons, Text.splitAll_append_cons, List.filterMap_append,
      List.filterMap_append, hempty, List.append_nil]
  · refine ⟨by rw [String.append_assoc]; exact habs _, ?_⟩
    unfold inner
    rw [String.append_assoc, String.toList_append, String.toList_append, ← List.filterMap_append,
      ← Text.splitAll_append_cons]
    rfl

theorem join_of_absolute (hp : p.isAbsolute = true) (hq : q.isAbsolute = false) :
    (p.join q).isAbsolute = true ∧ (p.join q).inner = p.inner ++ q.inner := by
  obtain ⟨habs, hinner⟩ := join_of_relative p hq
  exact ⟨habs.trans hp, hinner⟩

/-- An absolute path joined with another is absolute. -/
theorem isAbsolute_join (hp : p.isAbsolute = true) (q : FilePath) : (p.join q).isAbsolute = true := by
  cases hq : q.isAbsolute with
  | true =>
    unfold join
    rw [if_pos hq, hq]
  | false => exact (join_of_absolute hp hq).1

/-- What is put behind a text is put behind the path that it is joined to. -/
theorem join_append {s : String} (hs : s.toList ≠ []) (p : FilePath) (ext : String) :
    p.join ⟨s ++ ext⟩ = ⟨(p.join ⟨s⟩).text ++ ext⟩ := by
  obtain ⟨c, cs, hcs⟩ := List.exists_cons_of_ne_nil hs
  have habs : isAbsolute ⟨s ++ ext⟩ = isAbsolute ⟨s⟩ := by
    simp [isAbsolute, String.toList_append, hcs]
  unfold join
  rw [habs]
  split
  · rfl
  · split <;> simp [String.append_assoc]

theorem relative_of_named (h : Named name) : (FilePath.mk name).isAbsolute = false ∧
    (FilePath.mk name).inner = [.name name] := by
  obtain ⟨hslash, hne, hdot, hdots⟩ := h
  refine ⟨?_, ?_⟩
  · rw [isAbsolute, beq_eq_false_iff_ne]
    exact fun heq => hslash (List.mem_of_head? heq)
  · unfold inner
    rw [Text.splitAll_of_not_mem hslash]
    simp [component?, hne, hdot, hdots]

/-- A name continues an absolute path. -/
theorem normalize_join_name (hp : p.isAbsolute = true) (hname : Named name)
    (hfold : p.inner.foldl fold [.root] = stacked names) :
    (p.join ⟨name⟩).normalize = ofNames (names ++ [name]) := by
  obtain ⟨hrelative, hinner⟩ := relative_of_named hname
  obtain ⟨habs, hjoin⟩ := join_of_absolute hp hrelative
  refine (normalize_of_foldl habs ?_).1
  rw [hjoin, hinner, List.foldl_append, hfold]
  exact foldl_names_stacked names [name]

/-! ### Parents -/

theorem parent?_ofNames (h : ∀ s ∈ names ++ [name], Named s) :
    (ofNames (names ++ [name])).parent? = some (ofNames names) := by
  unfold parent?
  rw [components_ofNames h]
  have hlist : (names ++ [name]).map Component.name = names.map .name ++ [.name name] := by simp
  rw [hlist, ← List.cons_append, List.getLast?_concat, List.dropLast_concat]
  rfl

theorem fileName?_ofNames (h : ∀ s ∈ names ++ [name], Named s) :
    (ofNames (names ++ [name])).fileName? = some name := by
  unfold fileName?
  rw [components_ofNames h]
  have hlist : (names ++ [name]).map Component.name = names.map .name ++ [.name name] := by simp
  rw [hlist, ← List.cons_append, List.getLast?_concat]

/-! ### Last pieces -/

/-- The text of an absolute path has `last` behind its last slash, and `names` are read before. -/
structure Ends (p : FilePath) (names : List String) (last : List Char) : Prop where
  absolute : p.isAbsolute = true
  named : ∀ s ∈ names, Named s
  bare : '/' ∉ last
  front : ∃ front, front.foldl fold [.root] = stacked names ∧
    p.inner = front ++ (component? last).toList

/-- What is put behind a path continues its last piece. -/
theorem exists_ends (hp : p.isAbsolute = true) : ∃ names last, ∀ ext : String, '/' ∉ ext.toList →
    Ends ⟨p.text ++ ext⟩ names (last ++ ext.toList) := by
  obtain ⟨init, last, hsplit⟩ := Text.splitAll_extend '/' p.text.toList
  have hpieces : Text.splitAll '/' p.text.toList = init ++ [last] := by
    simpa using hsplit [] (by simp)
  have hmem : last ∈ Text.splitAll '/' p.text.toList := by
    rw [hpieces]
    simp
  have hlast : '/' ∉ last := slash_not_mem_piece hmem
  have hspelled : ∀ c ∈ init.filterMap component?, c.Spelled := by
    intro c hc
    refine spelled_of_mem_inner (p := p) ?_
    rw [inner, hpieces, List.filterMap_append]
    exact List.mem_append_left _ hc
  obtain ⟨names, hnames, hfold⟩ := exists_names [] hspelled (by simp)
  refine ⟨names, last, fun ext hext => ⟨?_, hnames, by simp [hlast, hext], _, hfold, ?_⟩⟩
  · have hne : p.text.toList ≠ [] := by
      intro hnil
      simp [isAbsolute, hnil] at hp
    obtain ⟨c, cs, hcs⟩ := List.exists_cons_of_ne_nil hne
    simp only [isAbsolute, hcs, List.head?_cons, String.toList_append, List.cons_append] at hp ⊢
    exact hp
  · rw [inner, String.toList_append, hsplit _ hext, List.filterMap_append]
    cases hc : component? (last ++ ext.toList) <;> simp [hc]

namespace Ends

variable {last : List Char} (h : Ends p names last)
include h

/-- A last piece that makes no component is not seen. -/
theorem normalize_filler (hlast : component? last = none) : p.normalize = ofNames names := by
  obtain ⟨front, hfold, hinner⟩ := h.front
  refine (normalize_of_foldl h.absolute ?_).1
  rw [hinner, hlast, Option.toList_none, List.append_nil, hfold]

theorem normalize_name (hlast : component? last = some (.name name)) :
    p.normalize = ofNames (names ++ [name]) := by
  obtain ⟨front, hfold, hinner⟩ := h.front
  refine (normalize_of_foldl h.absolute ?_).1
  rw [hinner, hlast, Option.toList_some, List.foldl_append, hfold]
  exact foldl_names_stacked names [name]

theorem fileName?_eq (hlast : component? last = some (.name name)) : p.fileName? = some name := by
  obtain ⟨front, -, hinner⟩ := h.front
  unfold fileName?
  rw [components_of_absolute h.absolute, hinner, hlast, Option.toList_some, ← List.cons_append,
    List.getLast?_concat]

theorem named_append (hlast : component? last = some (.name name)) :
    ∀ s ∈ names ++ [name], Named s :=
  FilePath.named_append h.named (spelled_of_component? h.bare hlast)

end Ends

/-- A long enough piece is a name. -/
theorem component?_of_length {piece : List Char} (h : 2 < piece.length) :
    component? piece = some (.name (.ofList piece)) := by
  have hne : ∀ ps : List Char, ps.length ≤ 2 → piece ≠ ps := by
    rintro ps hps rfl
    omega
  simp only [component?, hne [] (by simp), hne ['.'] (by simp), hne ['.', '.'] (by simp), or_self,
    if_false]

end FilePath

end Strata
