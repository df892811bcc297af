import Mathlib.Data.List.DropRight
import Strata.Proofs.Css.Grammar
import Strata.Proofs.Text.Blank

/-! Preludes in other words.

A statement is printed from the texts of its parts, and these are runs of lexemes without the white
space at the ends (`Core`). -/
namespace Strata.Css

variable {c : Char} {kind : LexemeClass} {l : Lexeme} {ls core before more : List Lexeme}
  {text cs after other : List Char}

/-! ### Blanks -/

/-- The blanks of a text are white space. -/
def Spaced (cs : List Char) : Prop := ∀ c ∈ cs, Text.isBlank c = true → Text.isSpace c = true

theorem Spaced.within (h : Spaced cs) (hsub : text <:+: cs) : Spaced text :=
  fun c hc => h c (hsub.subset hc)

theorem spaced_append : Spaced (text ++ cs) ↔ Spaced text ∧ Spaced cs := List.forall_mem_append

/-- A character of a word or of white space. -/
def isPlain (c : Char) : Bool := isWordChar c || Text.isSpace c

theorem not_plain_of_mark (h : (c, kind) ∈ marks) : isPlain c = false := by
  simp only [marks, List.mem_cons, Prod.mk.injEq, List.not_mem_nil, or_false] at h
  rcases h with ⟨rfl, -⟩ | ⟨rfl, -⟩ | ⟨rfl, -⟩ | ⟨rfl, -⟩ | ⟨rfl, -⟩ | ⟨rfl, -⟩ <;> rfl

theorem not_plain_of_quote (h : (c, kind) ∈ quotes) : isPlain c = false := by
  simp only [quotes, List.mem_cons, Prod.mk.injEq, List.not_mem_nil, or_false] at h
  rcases h with ⟨rfl, -⟩ | ⟨rfl, -⟩ <;> rfl

theorem not_space_of_not_plain (h : isPlain c = false) : Text.isSpace c = false :=
  (Bool.or_eq_false_iff.mp h).2

theorem not_space_of_word (h : isWordChar c = true) : Text.isSpace c = false := by
  simp only [isWordChar, Bool.not_eq_true', Bool.or_eq_false_iff] at h
  tauto

theorem not_space_of_rest (h : isKeywordRest c = true) : Text.isSpace c = false := by
  refine Bool.eq_false_iff.mpr fun hspace => ?_
  simp only [Text.isSpace, Bool.or_eq_true, beq_iff_eq] at hspace
  rcases hspace with (((rfl | rfl) | rfl) | rfl) | rfl <;> revert h <;> decide

/-- A string ends with its quote. -/
theorem getLast?_of_stringExtent? {q : Char}
    (h : stringExtent? q (text ++ after) = some text.length) : text.getLast? = some q := by
  generalize hcs : text ++ after = cs at h
  fun_induction stringExtent? q cs generalizing text with
  | case1 => cases h
  | case2 => cases h
  | case3 => cases h
  | case4 => cases h
  | case5 d cs _ ih =>
    obtain ⟨n, hn, hlen⟩ := Option.map_eq_some_iff.mp h
    obtain ⟨e, rest, rfl⟩ := List.exists_cons_of_length_eq_add_one hlen.symm
    obtain ⟨f, rest, rfl⟩ := List.exists_cons_of_length_eq_add_one (Nat.succ.inj hlen).symm
    simp only [List.cons_append, List.cons.injEq] at hcs
    have hlast := ih hcs.2.2 (by rw [hn]; exact congrArg some (Nat.add_right_cancel hlen))
    rw [List.getLast?_cons, List.getLast?_cons, hlast]
    rfl
  | case6 cs =>
    obtain ⟨c, rfl⟩ := List.length_eq_one_iff.mp (Option.some.inj h).symm
    rw [(List.cons.inj hcs).1]
    rfl
  | case7 c cs _ _ _ _ _ ih =>
    obtain ⟨n, hn, hlen⟩ := Option.map_eq_some_iff.mp h
    obtain ⟨e, rest, rfl⟩ := List.exists_cons_of_length_eq_add_one hlen.symm
    have hlast := ih (List.cons.inj hcs).2
      (by rw [hn]; exact congrArg some (Nat.add_right_cancel hlen))
    rw [List.getLast?_cons, hlast]
    rfl

/-- The end of a comment ends its text. -/
theorem suffix_of_commentExtent? (h : commentExtent? (text ++ after) = some text.length) :
    ['*', '/'] <:+ text := by
  induction text with
  | nil => exact absurd (commentExtent?_change h []).1 (by decide)
  | cons c text ih =>
    rw [List.cons_append, commentExtent?_cons] at h
    split at h
    · next hend =>
      have hone : text.length = 1 := by simpa using (Option.some.inj h).symm
      obtain ⟨d, rfl⟩ := List.length_eq_one_iff.mp hone
      obtain ⟨rfl, hd⟩ := hend
      cases hd
      exact List.suffix_refl _
    · obtain ⟨n, hn, hlen⟩ := Option.map_eq_some_iff.mp h
      exact (ih (by rw [hn]; exact congrArg some (Nat.succ.inj hlen))).trans (List.suffix_cons _ _)

theorem getLast?_of_commentExtent? (h : commentExtent? (text ++ after) = some text.length) :
    text.getLast? = some '/' := by
  obtain ⟨inner, rfl⟩ := suffix_of_commentExtent? h
  simp

/-- A piece that is not white space has none at its ends. -/
theorem Cut.edges (h : Cut kind text after) (hkind : kind ≠ .whitespace) :
    (∀ c, text.head? = some c → Text.isSpace c = false) ∧
      ∀ c, text.getLast? = some c → Text.isSpace c = false := by
  cases h with
  | mark h => constructor <;> rintro c ⟨⟩ <;> exact not_space_of_not_plain (not_plain_of_mark h)
  | slash => constructor <;> rintro c ⟨⟩ <;> rfl
  | comment h =>
    constructor
    · rintro c ⟨⟩
      rfl
    · intro c hc
      rw [List.getLast?_cons, List.getLast?_cons, getLast?_of_commentExtent? h] at hc
      cases hc
      rfl
  | sign => constructor <;> rintro c ⟨⟩ <;> rfl
  | @atKeyword k more _ hk hmore =>
    constructor
    · rintro c ⟨⟩
      rfl
    · intro c hc
      rw [List.getLast?_cons_cons] at hc
      rcases List.mem_cons.mp (List.mem_of_getLast? hc) with rfl | hc
      · exact not_space_of_rest (by rw [isKeywordRest, hk]; rfl)
      · exact not_space_of_rest (hmore c hc)
  | string hq h =>
    constructor
    · rintro c ⟨⟩
      exact not_space_of_not_plain (not_plain_of_quote hq)
    · intro c hc
      rw [List.getLast?_cons, getLast?_of_stringExtent? h] at hc
      cases hc
      exact not_space_of_not_plain (not_plain_of_quote hq)
  | whitespace => exact absurd rfl hkind
  | word h =>
    exact ⟨fun c hc => not_space_of_word (h c (List.mem_of_head? hc)),
      fun c hc => not_space_of_word (h c (List.mem_of_getLast? hc))⟩

theorem Cut.space (h : Cut .whitespace text after) : ∀ c ∈ text, Text.isSpace c = true := by
  cases h with
  | mark h => simp [marks] at h
  | string h => simp [quotes] at h
  | whitespace h => exact h

/-! ### Without the white space at the ends -/

/-- `core` is `ls` without the white space at the ends. -/
structure Core (ls core : List Lexeme) : Prop where
  split : ∃ lead trail : List Lexeme, ls = lead ++ (core ++ trail) ∧
    (∀ l ∈ lead, l.kind = .whitespace) ∧ ∀ l ∈ trail, l.kind = .whitespace
  first : ∀ l, core.head? = some l → l.kind ≠ .whitespace
  last : ∀ l, core.getLast? = some l → l.kind ≠ .whitespace

theorem exists_core (ls : List Lexeme) : ∃ core, Core ls core := by
  let p : Lexeme → Bool := fun l => l.kind == .whitespace
  have hp : ∀ {l}, p l = true → l.kind = .whitespace := fun h => beq_iff_eq.mp h
  have hback := List.rdropWhile_append_rtakeWhile (l := ls.dropWhile p) (p := p)
  refine ⟨(ls.dropWhile p).rdropWhile p, ⟨ls.takeWhile p, (ls.dropWhile p).rtakeWhile p, ?_, ?_, ?_⟩,
    ?_, ?_⟩
  · rw [hback, List.takeWhile_append_dropWhile]
  · exact fun l hl => hp (List.mem_takeWhile_imp hl)
  · exact fun l hl => hp (List.mem_rtakeWhile_imp hl)
  · intro l hl hkind
    have hnot := List.head?_dropWhile_not p ls
    rw [← hback, List.head?_append, hl] at hnot
    simp [p, hkind] at hnot
  · intro l hl hkind
    have hnil := List.ne_nil_of_mem (List.mem_of_getLast? hl)
    have hnot := List.rdropWhile_last_not p (ls.dropWhile p) hnil
    rw [List.getLast?_eq_some_getLast hnil, Option.some.injEq] at hl
    simp [p, hl, hkind] at hnot

theorem spell_space (h : ∀ l ∈ ls, l.kind = .whitespace) (hlaid : Laid ls after) :
    ∀ c ∈ spell ls, Text.isSpace c = true := by
  induction ls with
  | nil => exact fun c hc => (nomatch hc)
  | cons l ls ih =>
    obtain ⟨hl, hls⟩ := List.forall_mem_cons.mp h
    intro c hc
    rw [spell_cons] at hc
    rcases List.mem_append.mp hc with hc | hc
    · exact (hl ▸ hlaid.1).space c hc
    · exact ih hls hlaid.2 c hc

theorem cross_space {stops : LexemeClass → Bool} (hstops : stops .whitespace = false)
    (h : ∀ l ∈ ls, l.kind = .whitespace) (depth : Nat) : cross stops depth ls = some depth := by
  induction ls with
  | nil => rfl
  | cons l ls ih =>
    obtain ⟨hl, hls⟩ := List.forall_mem_cons.mp h
    rw [cross_cons (hl ▸ hstops), hl]
    exact ih hls

namespace Core

/-- A lexeme that starts a statement stays in front. -/
theorem eq_cons (h : Core (l :: more) core) (hl : l.kind ≠ .whitespace) :
    ∃ rest, core = l :: rest := by
  obtain ⟨⟨lead, trail, hsplit, hlead, htrail⟩, -, -⟩ := h
  cases lead with
  | cons m lead =>
    obtain ⟨rfl, -⟩ := List.cons.inj hsplit
    exact absurd (hlead _ (List.mem_cons_self ..)) hl
  | nil =>
    cases core with
    | cons m core =>
      obtain ⟨rfl, -⟩ := List.cons.inj hsplit
      exact ⟨core, rfl⟩
    | nil =>
      cases trail with
      | nil => cases hsplit
      | cons m trail =>
        obtain ⟨rfl, -⟩ := List.cons.inj hsplit
        exact absurd (htrail _ (List.mem_cons_self ..)) hl

theorem within (h : Core ls core) : spell core <:+: spell ls := by
  obtain ⟨⟨lead, trail, rfl, -, -⟩, -, -⟩ := h
  rw [spell_append, spell_append]
  exact ⟨spell lead, spell trail, by simp⟩

theorem cross_eq (h : Core ls core) {stops : LexemeClass → Bool} (hstops : stops .whitespace = false)
    (depth : Nat) : cross stops depth core = cross stops depth ls := by
  obtain ⟨⟨lead, trail, rfl, hlead, htrail⟩, -, -⟩ := h
  rw [cross_append, cross_space hstops hlead, Option.bind_some, cross_append]
  cases cross stops depth core with
  | none => rfl
  | some last => rw [Option.bind_some, cross_space hstops htrail]

theorem laid_core (h : Core ls core) (hlaid : Laid ls after) : ∃ trail,
    Laid core (trail ++ after) := by
  obtain ⟨⟨lead, trail, rfl, -, -⟩, -, -⟩ := h
  exact ⟨spell trail, (laid_append.mp (laid_append.mp hlaid).2).1⟩

/-- The core in front of a break. -/
theorem laid (h : Core ls core) (hlaid : Laid ls after) (hc : isBreak c = true)
    (hend : NoCommentEnd after → NoCommentEnd other) : Laid core (c :: other) := by
  obtain ⟨trail, hcore⟩ := h.laid_core hlaid
  exact hcore.change h.last hc fun hno => hend (hno.within (List.suffix_append _ _).isInfix)

/-- The text of the core has no white space at its ends. -/
theorem edges (h : Core ls core) (hlaid : Laid ls after) :
    (∀ c, (spell core).head? = some c → Text.isSpace c = false) ∧
      ∀ c, (spell core).getLast? = some c → Text.isSpace c = false := by
  obtain ⟨trail, hcore⟩ := h.laid_core hlaid
  constructor
  · intro c hc
    cases core with
    | nil => cases hc
    | cons l core =>
      obtain ⟨d, text, htext⟩ := List.exists_cons_of_ne_nil hcore.1.ne_nil
      rw [spell_cons, htext] at hc
      exact (hcore.1.edges (h.first l rfl)).1 c (by rw [htext]; exact hc)
  · intro c hc
    rcases List.eq_nil_or_concat' core with rfl | ⟨core, l, rfl⟩
    · cases hc
    · have hl := (laid_append.mp hcore).2.1
      refine (hl.edges (h.last l List.getLast?_concat)).2 c ?_
      obtain ⟨d, hd⟩ := Option.ne_none_iff_exists'.mp (mt List.getLast?_eq_none_iff.mp hl.ne_nil)
      rw [spell_append, spell_cons, List.getLast?_append, List.getLast?_append, hd] at hc
      rw [hd, ← hc]
      rfl

/-- What is not white space at an end is not blank. -/
theorem trimmed (h : Core ls core) (hlaid : Laid ls after) (hspaced : Spaced (spell ls)) :
    Text.Trimmed (spell core) := by
  have hblank : ∀ c ∈ spell core, Text.isSpace c = false → Text.isBlank c = false := by
    intro c hc hno
    by_contra hblank
    rw [hspaced.within h.within c hc (by simpa using hblank)] at hno
    cases hno
  obtain ⟨hfirst, hlast⟩ := h.edges hlaid
  exact ⟨fun c hc => hblank c (List.mem_of_head? hc) (hfirst c hc),
    fun c hc => hblank c (List.mem_of_getLast? hc) (hlast c hc)⟩

/-- The core is spelled as the text without its blanks at the ends. -/
theorem spell_eq (h : Core ls core) (hlaid : Laid ls after) (hspaced : Spaced (spell ls)) :
    spell core = Text.trim (spell ls) := by
  have htrimmed := (h.trimmed hlaid hspaced).trim_eq
  obtain ⟨⟨lead, trail, rfl, hlead, htrail⟩, -, -⟩ := h
  obtain ⟨hllead, hlaid⟩ := laid_append.mp hlaid
  have hblank : ∀ {cs : List Char}, (∀ c ∈ cs, Text.isSpace c = true) →
      ∀ c ∈ cs, Text.isBlank c = true := fun h c hc => Text.isBlank_of_isSpace (h c hc)
  rw [spell_append, Text.trim_append_left (hblank (spell_space hlead hllead)), spell_append,
    Text.trim_append_right (hblank (spell_space htrail (laid_append.mp hlaid).2)), htrimmed]

end Core

end Strata.Css
