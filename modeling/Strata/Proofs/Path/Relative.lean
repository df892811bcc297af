import Strata.Proofs.Path.Absolute

/-! Relative specifiers.

The specifier from a directory to a file leaves the directories that are not above the file, and
enters those that are (`route`). Joined with the directory it leads to the file, and it is read as
the route, as long as no name on it starts like the way up. -/
namespace Strata.FilePath

open Component

variable {start goal : List String}

/-! ### Routes -/

theorem commonLength_le (as bs : List Component) : commonLength as bs ≤ as.length := by
  fun_induction commonLength as bs with
  | case1 _ _ _ ih => exact Nat.succ_le_succ ih
  | case2 => exact Nat.zero_le _
  | case3 => exact Nat.zero_le _

theorem take_commonLength (as bs : List Component) :
    as.take (commonLength as bs) = bs.take (commonLength as bs) := by
  fun_induction commonLength as bs with
  | case1 a as bs ih => rw [List.take_succ_cons, List.take_succ_cons, ih]
  | case2 => rfl
  | case3 => rfl

theorem commonLength_append (as bs : List Component) : commonLength as (as ++ bs) = as.length := by
  induction as with
  | nil => cases bs <;> rfl
  | cons a as ih => rw [List.cons_append, commonLength, if_pos rfl, ih, List.length_cons]

/-- The number of names that two lists start with alike. -/
def shared (start goal : List String) : Nat := commonLength (start.map .name) (goal.map .name)

theorem shared_le (start goal : List String) : shared start goal ≤ start.length := by
  simpa [shared] using commonLength_le (start.map .name) (goal.map .name)

theorem take_shared (start goal : List String) :
    start.take (shared start goal) = goal.take (shared start goal) := by
  have h := take_commonLength (start.map .name) (goal.map .name)
  rw [← List.map_take, ← List.map_take] at h
  exact List.map_injective_iff.mpr (fun _ _ => Component.name.inj) h

/-- The way from one directory to a path: up from the names that are not shared, then down. -/
def route (start goal : List String) : List Component :=
  List.replicate (start.length - shared start goal) .parent ++
    (goal.drop (shared start goal)).map .name

theorem foldl_parents {names : List String} {n : Nat} (h : n ≤ names.length) :
    (List.replicate n Component.parent).foldl fold (stacked names) =
      stacked (names.take (names.length - n)) := by
  induction n generalizing names with
  | zero => simp
  | succ n ih =>
    rcases List.eq_nil_or_concat names with rfl | ⟨init, s, rfl⟩
    · cases h
    · rw [List.concat_eq_append] at h ⊢
      have hn : n ≤ init.length := by simpa using h
      have hup : fold (stacked (init ++ [s])) .parent = stacked init := by
        rw [stacked_append]
        rfl
      rw [List.replicate_succ, List.foldl_cons, hup, ih hn, List.length_append,
        List.length_singleton, Nat.add_sub_add_right,
        List.take_append_of_le_length (Nat.sub_le ..)]

/-- **The route leads to its goal.** -/
theorem foldl_route (start goal : List String) :
    (route start goal).foldl fold (stacked start) = stacked goal := by
  rw [route, List.foldl_append, foldl_parents (Nat.sub_le ..), foldl_names_stacked,
    Nat.sub_sub_self (shared_le start goal), take_shared, List.take_append_drop]

theorem spelled_route (start : List String) (hgoal : ∀ s ∈ goal, Named s) :
    ∀ c ∈ route start goal, c.Spelled := by
  intro c hc
  rcases List.mem_append.mp hc with hc | hc
  · rw [List.eq_of_mem_replicate hc]
    trivial
  · obtain ⟨s, hs, rfl⟩ := List.mem_map.mp hc
    exact hgoal s (List.mem_of_mem_drop hs)

/-! ### Written routes -/

theorem inner_joined {cs : List Component} (h : ∀ c ∈ cs, c.Spelled) :
    inner ⟨"/".intercalate (cs.map Component.text)⟩ = cs := by
  by_cases hne : cs = []
  · subst hne
    rfl
  · rw [inner, splitAll_joined hne h, filterMap_component? h]

theorem inner_dot_slash (s : String) : inner ⟨"./" ++ s⟩ = inner ⟨s⟩ := by
  have htext : ("./" ++ s).toList = ['.'] ++ '/' :: s.toList := by
    rw [String.toList_append]
    rfl
  rw [inner, htext, Text.splitAll_append (by decide)]
  rfl

theorem not_isAbsolute_joined {cs : List Component} (h : ∀ c ∈ cs, c.Spelled) :
    isAbsolute ⟨"/".intercalate (cs.map Component.text)⟩ = false := by
  rw [isAbsolute, beq_eq_false_iff_ne]
  cases cs with
  | nil => decide
  | cons c cs =>
    rw [head_joined (h c (List.mem_cons_self ..))]
    exact fun heq => slash_not_mem_text (h c (List.mem_cons_self ..)) (List.mem_of_head? heq)

/-- The text of a route, with a dot in front unless it starts with two. -/
def written (cs : List Component) : String :=
  let joined := "/".intercalate (cs.map Component.text)
  if joined.toList.take 2 = ['.', '.'] then joined else "./" ++ joined

theorem written_ne_empty (cs : List Component) : written cs ≠ "" := by
  unfold written
  simp only
  split
  · next htake =>
    intro hempty
    rw [hempty] at htake
    cases htake
  · intro hempty
    have htext := congrArg String.toList hempty
    rw [String.toList_append] at htext
    cases htext

/-- The relative specifier between two absolute paths is their route. -/
theorem specifierTo_eq_written {dir target : FilePath}
    (hdir : dir.normalComponents = .root :: start.map .name)
    (htarget : target.normalComponents = .root :: goal.map .name) :
    specifierTo dir target = written (route start goal) := by
  have hcommon : commonLength (.root :: start.map .name) (.root :: goal.map .name) =
      shared start goal + 1 := by
    rw [commonLength, if_pos rfl, shared]
  unfold specifierTo
  simp only [hdir, htarget, List.head?_cons, ne_eq, not_true_eq_false, false_and, if_false, hcommon,
    List.length_cons, List.length_map, Nat.add_sub_add_right, List.drop_succ_cons]
  simp only [written, route, List.map_append, List.map_replicate, List.map_drop]
  rfl

theorem specifierTo_ofNames (hstart : ∀ s ∈ start, Named s) (hgoal : ∀ s ∈ goal, Named s) :
    specifierTo (ofNames start) (ofNames goal) = written (route start goal) :=
  specifierTo_eq_written (normalComponents_ofNames hstart) (normalComponents_ofNames hgoal)

theorem inner_written {cs : List Component} (h : ∀ c ∈ cs, c.Spelled) :
    inner ⟨written cs⟩ = cs ∧ isAbsolute ⟨written cs⟩ = false := by
  unfold written
  simp only
  split
  · exact ⟨inner_joined h, not_isAbsolute_joined h⟩
  · refine ⟨(inner_dot_slash _).trans (inner_joined h), ?_⟩
    simp [isAbsolute, String.toList_append]

/-- **Joined with the directory a relative specifier leads to the file.** -/
theorem normalize_join_written {dir : FilePath} (hdir : dir.isAbsolute = true)
    (hread : dir.inner.foldl fold [.root] = stacked start) (hgoal : ∀ s ∈ goal, Named s) :
    (dir.join ⟨written (route start goal)⟩).normalize = ofNames goal := by
  obtain ⟨hinner, hrelative⟩ := inner_written (spelled_route start hgoal)
  obtain ⟨habs, hjoin⟩ := join_of_absolute hdir hrelative
  refine (normalize_of_foldl habs ?_).1
  rw [hjoin, hinner, List.foldl_append, hread, foldl_route]

theorem normalize_join_specifierTo (hstart : ∀ s ∈ start, Named s) (hgoal : ∀ s ∈ goal, Named s) :
    ((ofNames start).join ⟨specifierTo (ofNames start) (ofNames goal)⟩).normalize = ofNames goal := by
  rw [specifierTo_ofNames hstart hgoal]
  refine normalize_join_written (isAbsolute_ofNames start) ?_ hgoal
  rw [inner_ofNames hstart]
  exact foldl_names_stacked [] start

/-- The route starts with a name when it only leads down. -/
theorem head?_route {s : String} :
    (route start goal).head? = some (.name s) ↔ ∃ more, goal = start ++ s :: more := by
  constructor
  · intro hhead
    have hshared : shared start goal = start.length := by
      refine Nat.le_antisymm (shared_le start goal) (Nat.le_of_not_lt fun hlt => ?_)
      obtain ⟨n, hn⟩ := Nat.exists_eq_succ_of_ne_zero (Nat.sub_ne_zero_of_lt hlt)
      rw [route, hn, List.replicate_succ] at hhead
      cases hhead
    have htake := take_shared start goal
    rw [route, hshared, Nat.sub_self, List.replicate_zero, List.nil_append, List.head?_map] at hhead
    rw [hshared, List.take_length] at htake
    obtain ⟨t, ht, heq⟩ := Option.map_eq_some_iff.mp hhead
    obtain ⟨more, hmore⟩ := List.head?_eq_some_iff.mp ht
    refine ⟨more, ?_⟩
    calc goal = goal.take start.length ++ goal.drop start.length :=
          (List.take_append_drop ..).symm
      _ = start ++ s :: more := by rw [← htake, hmore, Component.name.inj heq]
  · rintro ⟨more, rfl⟩
    have hshared : shared start (start ++ s :: more) = start.length := by
      rw [shared, List.map_append, commonLength_append, List.length_map]
    rw [route, hshared, Nat.sub_self, List.drop_left]
    rfl

/-- The name starts like the way up. -/
def Dotted (s : String) : Prop := s.toList.take 2 = ['.', '.']

instance (s : String) : Decidable (Dotted s) := inferInstanceAs (Decidable (_ = _))

/-! ### Relative texts -/

/-- One dot or two, and then a slash if anything. -/
def IsRelative (specifier : String) : Prop :=
  specifier = "." ∨ specifier = ".." ∨ ['.', '/'] <+: specifier.toList ∨
    ['.', '.', '/'] <+: specifier.toList

instance (specifier : String) : Decidable (IsRelative specifier) :=
  inferInstanceAs (Decidable (_ ∨ _))

theorem IsRelative.head? {specifier : String} (h : IsRelative specifier) :
    specifier.toList.head? = some '.' := by
  rcases h with rfl | rfl | ⟨rest, hrest⟩ | ⟨rest, hrest⟩
  · rfl
  · rfl
  · rw [← hrest]
    rfl
  · rw [← hrest]
    rfl

/-- Behind the first of some written components there is a slash, if there is anything. -/
theorem toList_joined_cons (c : Component) (cs : List Component) : ∃ rest : List Char,
    ("/".intercalate ((c :: cs).map Component.text)).toList = c.text.toList ++ rest ∧
      ∀ x, rest.head? = some x → x = '/' := by
  rw [toList_joined]
  cases cs with
  | nil => exact ⟨[], by simp [List.intercalate], by simp⟩
  | cons d cs =>
    refine ⟨'/' :: ['/'].intercalate ((d :: cs).map fun c => c.text.toList), ?_, by simp⟩
    simp [List.intercalate]

/-- What is written starts like the way up just when its first component does. -/
theorem take_joined_iff {s : String} (h : Named s) (cs : List Component) :
    ("/".intercalate ((Component.name s :: cs).map Component.text)).toList.take 2 = ['.', '.'] ↔
      Dotted s := by
  obtain ⟨rest, hjoined, hrest⟩ := toList_joined_cons (.name s) cs
  obtain ⟨-, hne, -, -⟩ := h
  obtain ⟨a, as, ha⟩ := List.exists_cons_of_ne_nil hne
  rw [hjoined, Component.text, Dotted, ha]
  cases as with
  | cons b as => simp
  | nil =>
    cases rest with
    | nil => simp
    | cons x rest =>
      rw [hrest x rfl]
      simp

/-- A name that starts like the way up is more than that. -/
theorem not_isRelative_of_dotted {s : String} (h : Named s) (hs : Dotted s) (cs : List Component) :
    ¬ IsRelative ("/".intercalate ((Component.name s :: cs).map Component.text)) := by
  obtain ⟨rest, hjoined, -⟩ := toList_joined_cons (.name s) cs
  obtain ⟨hslash, -, -, hdots⟩ := h
  -- Behind the two dots there is one more character of the name.
  obtain ⟨x, more, hname⟩ : ∃ x more, s.toList = '.' :: '.' :: x :: more := by
    have hname := (List.take_append_drop 2 s.toList).symm
    rw [show s.toList.take 2 = ['.', '.'] from hs] at hname
    cases hdrop : s.toList.drop 2 with
    | nil =>
      rw [hdrop] at hname
      exact absurd hname hdots
    | cons x more => exact ⟨x, more, by rw [hname, hdrop]; rfl⟩
  have hx : x ≠ '/' := by
    rintro rfl
    simp [hname] at hslash
  rw [Component.text, hname] at hjoined
  rintro (heq | heq | hhead | hhead)
  · rw [heq] at hjoined
    cases hjoined
  · rw [heq] at hjoined
    cases hjoined
  · rw [hjoined] at hhead
    simp at hhead
  · rw [hjoined] at hhead
    simp [Ne.symm hx] at hhead

/-- **A written route is relative, unless its first component is a name that starts like the way
up.** -/
theorem isRelative_written_iff {cs : List Component} (h : ∀ c ∈ cs, c.Spelled) :
    IsRelative (written cs) ↔ ∀ s, cs.head? = some (.name s) → ¬ Dotted s := by
  have hdot : ∀ joined : String, IsRelative ("./" ++ joined) := fun joined =>
    Or.inr (Or.inr (Or.inl ⟨joined.toList, by rw [String.toList_append]; rfl⟩))
  unfold written
  simp only
  cases cs with
  | nil => exact iff_of_true (hdot _) (by simp)
  | cons c cs =>
    have hc := h c (List.mem_cons_self ..)
    cases c with
    | root => cases hc
    | current => cases hc
    | parent =>
      obtain ⟨rest, hjoined, hrest⟩ := toList_joined_cons .parent cs
      have htake : ("/".intercalate ((Component.parent :: cs).map Component.text)).toList.take 2 =
          ['.', '.'] := by
        rw [hjoined]
        rfl
      rw [if_pos htake]
      refine iff_of_true ?_ (by simp)
      cases rest with
      | nil => exact Or.inr (Or.inl (String.toList_injective hjoined))
      | cons x rest =>
        rw [hrest x rfl] at hjoined
        exact Or.inr (Or.inr (Or.inr ⟨rest, hjoined.symm⟩))
    | name s =>
      have hhead : (∀ t, (Component.name s :: cs).head? = some (.name t) → ¬ Dotted t) ↔
          ¬ Dotted s := by simp
      rw [hhead]
      by_cases hs : Dotted s
      · rw [if_pos ((take_joined_iff hc cs).mpr hs)]
        exact iff_of_false (not_isRelative_of_dotted hc hs cs) (not_not_intro hs)
      · rw [if_neg fun htake => hs ((take_joined_iff hc cs).mp htake)]
        exact iff_of_true (hdot _) hs

end Strata.FilePath
