import Strata.Proofs.Path.Specifier
import Strata.Proofs.Text.Uses

/-! The characters of paths.

Paths, names and specifiers are put together from parts of other paths, with
slashes, dots and digits between them. So a kind of characters that has these is
kept by all that is done to paths. -/
namespace Strata

namespace Text

theorem Uses.splitLast? {ok : Char → Bool} {sep : Char} {cs before after : List Char}
    (h : Uses ok cs) (hs : splitLast? sep cs = some (before, after)) :
    Uses ok before ∧ Uses ok after := by
  rw [(splitLast?_eq_some hs).1] at h
  obtain ⟨hbefore, hmore⟩ := uses_append.mp h
  exact ⟨hbefore, (uses_cons.mp hmore).2⟩

end Text

namespace FilePath

open Text

/-- A kind of characters that has all that paths are joined with. -/
structure Joining (ok : Char → Bool) : Prop where
  slash : ok '/' = true
  dot : ok '.' = true
  digit : ∀ c, c.isDigit = true → ok c = true

variable {ok : Char → Bool} (hok : Joining ok) {p q : FilePath} {cs : List Component}
  {c : Component} {s name suffix sibling : String}

/-! ### Components -/

theorem uses_component? {piece : List Char} (h : Uses ok piece)
    (hc : component? piece = some c) : Uses ok c.text.toList := by
  unfold component? at hc
  split at hc
  · cases hc
  · split at hc
    · next heq =>
      cases hc
      rw [heq] at h
      exact h
    · cases hc
      show Uses ok (String.ofList piece).toList
      rwa [String.toList_ofList]

theorem mem_foldl_fold {seen : List Component} (h : c ∈ cs.foldl fold seen) : c ∈ seen ∨ c ∈ cs := by
  induction cs generalizing seen with
  | nil => exact Or.inl h
  | cons d cs ih =>
    rcases ih h with hm | hm
    · have hfold : ∀ x ∈ fold seen d, x ∈ seen ∨ x = d := by
        intro x hx
        unfold fold at hx
        split at hx
        · exact Or.inl hx
        · exact Or.inl (List.mem_cons_of_mem _ hx)
        · exact Or.inl hx
        · exact (List.mem_cons.mp hx).symm
      exact (hfold c hm).imp_right fun heq => List.mem_cons.mpr (Or.inl heq)
    · exact Or.inr (List.mem_cons_of_mem _ hm)

section joining

include hok

theorem uses_components (h : Uses ok p.text.toList) : ∀ c ∈ p.components, Uses ok c.text.toList := by
  have hinner : ∀ c ∈ (splitAll '/' p.text.toList).filterMap component?, Uses ok c.text.toList := by
    intro c hc
    obtain ⟨piece, hp, hc⟩ := List.mem_filterMap.mp hc
    exact uses_component? (h.splitAll hp) hc
  have hroot : Uses ok Component.root.text.toList := uses_cons.mpr ⟨hok.slash, uses_nil⟩
  have hcurrent : Uses ok Component.current.text.toList := uses_cons.mpr ⟨hok.dot, uses_nil⟩
  unfold components
  simp only
  split
  · exact List.forall_mem_cons.mpr ⟨hroot, hinner⟩
  · split
    · exact List.forall_mem_cons.mpr ⟨hcurrent, hinner⟩
    · exact hinner

theorem uses_joined (h : ∀ c ∈ cs, Uses ok c.text.toList) :
    Uses ok ("/".intercalate (cs.map Component.text)).toList := by
  rw [toList_joined]
  refine uses_intercalate (uses_cons.mpr ⟨hok.slash, uses_nil⟩) fun p hp => ?_
  obtain ⟨c, hc, rfl⟩ := List.mem_map.mp hp
  exact h c hc

theorem uses_ofComponents (h : ∀ c ∈ cs, Uses ok c.text.toList) :
    Uses ok (ofComponents cs).text.toList := by
  unfold ofComponents
  split
  · next more =>
    rw [String.toList_append, uses_append]
    exact ⟨uses_cons.mpr ⟨hok.slash, uses_nil⟩, uses_joined hok (List.forall_mem_cons.mp h).2⟩
  · exact uses_joined hok h

theorem uses_normalComponents (h : Uses ok p.text.toList) :
    ∀ c ∈ p.normalComponents, Uses ok c.text.toList := by
  intro c hc
  refine uses_components hok h c ?_
  rcases mem_foldl_fold (List.mem_reverse.mp hc) with hm | hm
  · cases hm
  · exact hm

theorem uses_normalize (h : Uses ok p.text.toList) : Uses ok p.normalize.text.toList := by
  unfold normalize
  split
  · exact uses_cons.mpr ⟨hok.dot, uses_nil⟩
  · exact uses_ofComponents hok (uses_normalComponents hok h)

/-! ### Parts -/

theorem uses_join (hp : Uses ok p.text.toList) (hq : Uses ok q.text.toList) :
    Uses ok (p.join q).text.toList := by
  have hslash : Uses ok "/".toList := uses_cons.mpr ⟨hok.slash, uses_nil⟩
  unfold join
  split
  · exact hq
  · split
    · exact String.toList_append ▸ uses_append.mpr ⟨hp, hq⟩
    · show Uses ok (p.text ++ "/" ++ q.text).toList
      rw [String.toList_append, String.toList_append]
      exact uses_append.mpr ⟨uses_append.mpr ⟨hp, hslash⟩, hq⟩

theorem uses_parent? (h : Uses ok p.text.toList) (hq : p.parent? = some q) :
    Uses ok q.text.toList := by
  unfold parent? at hq
  split at hq
  · cases hq
  · cases hq
  · cases hq
    exact uses_ofComponents hok fun c hc => uses_components hok h c (List.dropLast_subset _ hc)

theorem uses_fileName? (h : Uses ok p.text.toList) (hs : p.fileName? = some s) :
    Uses ok s.toList := by
  unfold fileName? at hs
  split at hs
  · next t hlast =>
    cases hs
    exact uses_components hok h (.name s) (List.mem_of_getLast? hlast)
  · cases hs

theorem uses_extension? (h : Uses ok p.text.toList) (hs : p.extension? = some s) :
    Uses ok s.toList := by
  unfold extension? at hs
  obtain ⟨name, hname, hs⟩ := Option.bind_eq_some_iff.mp hs
  split at hs
  · cases hs
  · cases hs
  · next stem ext hsplit =>
    cases hs
    rw [String.toList_ofList]
    exact ((uses_fileName? hok h hname).splitLast? hsplit).2

/-! ### Specifiers and derived names -/

omit hok in
theorem uses_specifierName (h : Uses ok s.toList) : Uses ok (specifierName s).toList := by
  unfold specifierName
  simp only
  split
  · next hsplit =>
    rw [String.toList_ofList]
    exact (h.dropEndChar.splitLast? hsplit).2
  · rw [String.toList_ofList]
    exact h.dropEndChar

theorem uses_slashed (h : Uses ok p.text.toList) : Uses ok p.slashed.toList := by
  intro c hc
  rw [slashed, String.toList_map] at hc
  obtain ⟨d, hd, rfl⟩ := List.mem_map.mp hc
  split
  · exact hok.slash
  · exact h d hd

theorem uses_specifierTo (hq : Uses ok q.text.toList) : Uses ok (specifierTo p q).toList := by
  have hups : ∀ n, ∀ s ∈ List.replicate n "..", Uses ok s.toList := by
    intro n s hs
    rw [List.eq_of_mem_replicate hs]
    exact uses_cons.mpr ⟨hok.dot, uses_cons.mpr ⟨hok.dot, uses_nil⟩⟩
  have hjoined : ∀ n m, Uses ok ("/".intercalate (List.replicate n ".." ++
      (q.normalComponents.drop m).map Component.text)).toList := by
    intro n m
    rw [String.toList_intercalate]
    refine uses_intercalate (uses_cons.mpr ⟨hok.slash, uses_nil⟩) fun piece hpiece => ?_
    obtain ⟨s, hs, rfl⟩ := List.mem_map.mp hpiece
    rcases List.mem_append.mp hs with hs | hs
    · exact hups n s hs
    · obtain ⟨c, hc, rfl⟩ := List.mem_map.mp hs
      exact uses_normalComponents hok hq c (List.mem_of_mem_drop hc)
  unfold specifierTo
  simp only
  split
  · exact uses_slashed hok (uses_normalize hok hq)
  · split
    · exact hjoined _ _
    · rw [String.toList_append]
      exact uses_append.mpr
        ⟨uses_cons.mpr ⟨hok.dot, uses_cons.mpr ⟨hok.slash, uses_nil⟩⟩, hjoined _ _⟩

theorem uses_specifierInImport (dir : Option FilePath) (hq : Uses ok q.text.toList)
    (hs : Uses ok sibling.toList) : Uses ok (specifierInImport dir q sibling).toList := by
  have hname : Uses ok (q.fileName?.getD "").toList := by
    cases hn : q.fileName? with
    | none => exact uses_nil
    | some name => exact uses_fileName? hok hq hn
  unfold specifierInImport
  split
  · exact uses_specifierTo hok hq
  · split
    · next head last hsplit =>
      rw [String.toList_append, String.toList_append, String.toList_ofList]
      exact uses_append.mpr ⟨uses_append.mpr ⟨(hs.dropEndChar.splitLast? hsplit).1,
        uses_cons.mpr ⟨hok.slash, uses_nil⟩⟩, hname⟩
    · exact hname

omit hok in
/-- The name of a derived file is joined without slashes. -/
theorem uses_derivedName {fallback : Option String} (hdot : ok '.' = true)
    (hdigit : ∀ c, c.isDigit = true → ok c = true) (hname : Uses ok name.toList)
    (hsuffix : Uses ok suffix.toList) (hfallback : ∀ s, fallback = some s → Uses ok s.toList)
    (attempt : Nat) : Uses ok (derivedName name suffix fallback attempt).toList := by
  have hdot : Uses ok ".".toList := uses_cons.mpr ⟨hdot, uses_nil⟩
  have hcounter : Uses ok (if attempt = 0 then "" else "." ++ toString attempt).toList := by
    split
    · exact uses_nil
    · rw [String.toList_append, Nat.toString_eq_repr, Nat.toList_repr]
      exact uses_append.mpr ⟨hdot, fun c hc =>
        hdigit c (Nat.isDigit_of_mem_toDigits (by decide) (by decide) hc)⟩
  have htext : ∀ (stem : String) (ext : Option String), Uses ok stem.toList →
      (∀ s, ext = some s → Uses ok s.toList) →
      Uses ok (stem ++ "." ++ suffix ++ (if attempt = 0 then "" else "." ++ toString attempt) ++
        ext.elim "" fun ext => "." ++ ext).toList := by
    intro stem ext hstem hext
    have hending : Uses ok (ext.elim "" fun ext => "." ++ ext).toList := by
      cases ext with
      | none => exact uses_nil
      | some ext =>
        show Uses ok ("." ++ ext).toList
        rw [String.toList_append]
        exact uses_append.mpr ⟨hdot, hext ext rfl⟩
    rw [String.toList_append, String.toList_append, String.toList_append, String.toList_append]
    exact uses_append.mpr ⟨uses_append.mpr ⟨uses_append.mpr ⟨uses_append.mpr ⟨hstem, hdot⟩,
      hsuffix⟩, hcounter⟩, hending⟩
  unfold derivedName
  split
  next parts stem ext hparts =>
    have hstem : Uses ok stem.toList ∧ ∀ s, ext = some s → Uses ok s.toList := by
      split at hparts
      · next s stem' e ext' hsplit =>
        cases hparts
        obtain ⟨hbefore, hafter⟩ := hname.splitLast? hsplit
        refine ⟨by rwa [String.toList_ofList], fun t ht => ?_⟩
        cases ht
        rwa [String.toList_ofList]
      · cases hparts
        exact ⟨hname, hfallback⟩
    have hall := htext stem ext hstem.1 hstem.2
    cases ext <;> exact hall

end joining

/-- A derived name has a slash only when a part of it has. -/
theorem slash_not_mem_derivedName {fallback : Option String} (hname : '/' ∉ name.toList)
    (hsuffix : '/' ∉ suffix.toList) (hfallback : ∀ s, fallback = some s → '/' ∉ s.toList)
    (attempt : Nat) : '/' ∉ (derivedName name suffix fallback attempt).toList := by
  have huses : ∀ s : String, Text.Uses (· != '/') s.toList ↔ '/' ∉ s.toList := by
    intro s
    simp only [Text.Uses, bne_iff_ne]
    exact ⟨fun hall hm => hall _ hm rfl, fun hno c hc heq => hno (heq ▸ hc)⟩
  refine (huses _).mp (uses_derivedName (by decide) (fun c hc => ?_) ((huses _).mpr hname)
    ((huses _).mpr hsuffix) (fun ext hext => (huses _).mpr (hfallback ext hext)) attempt)
  rw [bne_iff_ne]
  rintro rfl
  revert hc
  decide

end FilePath

end Strata
