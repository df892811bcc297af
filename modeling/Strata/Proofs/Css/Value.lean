import Strata.Proofs.Css.Prelude
import Strata.Proofs.Text.Uses

/-! Values and what marks them as important.

The mark is taken off the end of a value, blanks included, and may stand in the middle of a lexeme:
`red!important` is one word. What is left is cut into the same lexemes but for the last of them
(`Laid.cut`), so a value and its mark, printed with one blank between them, are read again
(`exists_value`). -/
namespace Strata.Css

variable {c : Char} {kind : LexemeClass} {ls : List Lexeme} {a b text after other : List Char}

/-! ### Small letters -/

theorem not_blank_of_isLower (h : c.isLower = true) : Text.isBlank c = false := by
  have hcode : c.val.toNat = c.toNat := rfl
  unfold Char.isLower at h
  simp [UInt32.le_iff_toNat_le, hcode] at h
  simp [Text.isBlank]
  omega

/-- A word character in small letters was one before. -/
theorem isWordChar_of_toLower (h : isWordChar c.toLower = true) : isWordChar c = true := by
  rcases Text.toLower_cases c with heq | ⟨hupper, -⟩
  · rwa [heq] at h
  · by_contra hno
    simp only [isWordChar, Text.isSpace, Bool.not_eq_true', Bool.not_eq_false, Bool.or_eq_true,
      beq_iff_eq] at hno
    rcases hno with (((((((((hno | rfl) | rfl) | rfl) | rfl) | rfl) | rfl) | rfl) | rfl) | rfl) | rfl
    · rcases hno with (((rfl | rfl) | rfl) | rfl) | rfl <;> cases hupper
    all_goals cases hupper

theorem isBlank_of_toLower (h : Text.isBlank c.toLower = true) : Text.isBlank c = true := by
  rcases Text.toLower_cases c with heq | ⟨-, hlower⟩
  · rwa [heq] at h
  · rw [not_blank_of_isLower hlower] at h
    cases h

/-! ### The mark -/

theorem before?_eq_some {tail cs before : List Char} :
    Text.before? tail cs = some before ↔ cs = before ++ tail := by
  unfold Text.before?
  split
  · next h =>
    obtain ⟨front, rfl⟩ := List.isSuffixOf_iff_suffix.mp h
    rw [List.length_append, Nat.add_sub_cancel, List.take_left, Option.some.injEq,
      List.append_left_inj]
  · next h =>
    refine ⟨fun hnone => (nomatch hnone), fun heq => absurd ?_ h⟩
    exact List.isSuffixOf_iff_suffix.mpr ⟨before, heq.symm⟩

/-- The mark as it is printed. -/
theorem cutImportant_mark (value : List Char) :
    cutImportant (value ++ "!important".toList) = (Text.dropEnd value, true) := by
  have hlow : Text.before? "important".toList ((value ++ "!important".toList).map Char.toLower) =
      some (value.map Char.toLower ++ ['!']) := by
    rw [before?_eq_some, List.map_append, List.append_assoc]
    rfl
  have hend : Text.dropEnd (value.map Char.toLower ++ ['!']) = value.map Char.toLower ++ ['!'] := by
    refine Text.dropEnd_eq_self fun c hc => ?_
    rw [List.getLast?_concat] at hc
    cases hc
    rfl
  have hkept : Text.before? ['!'] (value.map Char.toLower ++ ['!']) = some (value.map Char.toLower) :=
    before?_eq_some.mpr rfl
  rw [cutImportant, hlow]
  simp only [hend, hkept, List.length_map, List.take_left]

/-- A value is cut at the blanks in front of its mark, and the mark is words and blanks. -/
structure Marked (text value mark : List Char) : Prop where
  split : text = value ++ mark
  last : ∀ c, value.getLast? = some c → Text.isBlank c = false
  first : ∀ c, mark.head? = some c → c = '!' ∨ Text.isBlank c = true
  plain : ∀ c ∈ mark, isWordChar c = true ∨ Text.isBlank c = true

theorem marked_cutImportant {value : List Char} (h : cutImportant text = (value, true)) :
    ∃ mark, Marked text value mark := by
  unfold cutImportant at h
  split at h
  · cases h
  · next low hlow =>
    split at h
    · cases h
    · next kept hkept =>
      cases h
      rw [before?_eq_some] at hlow hkept
      obtain ⟨blanks, hblanks, hlow'⟩ := Text.dropEnd_append low
      rw [← hlow', hkept] at hlow
      obtain ⟨upto, word, rfl, hupto, hword⟩ := List.map_eq_append_iff.mp hlow
      obtain ⟨upto', gap, rfl, hupto', rfl⟩ := List.map_eq_append_iff.mp hupto
      obtain ⟨front, bang, rfl, rfl, hbang⟩ := List.map_eq_append_iff.mp hupto'
      obtain ⟨d, rfl, hd⟩ := List.map_eq_singleton_iff.mp hbang
      obtain rfl := Text.eq_of_toLower (by decide) hd
      obtain ⟨tail, htail, hfront⟩ := Text.dropEnd_append front
      simp only [List.append_assoc, List.length_map, List.take_left]
      refine ⟨tail ++ ('!' :: (gap ++ word)), ?_, Text.getLast?_dropEnd front, ?_, ?_⟩
      · rw [← List.append_assoc (Text.dropEnd front) tail, hfront]
        simp
      · intro c hc
        cases tail with
        | nil =>
          cases hc
          exact Or.inl rfl
        | cons e tail =>
          obtain rfl : e = c := Option.some.inj hc
          exact Or.inr (htail e (List.mem_cons_self ..))
      · intro c hc
        rcases List.mem_append.mp hc with hc | hc
        · exact Or.inr (htail c hc)
        rcases List.mem_cons.mp hc with rfl | hc
        · exact Or.inl rfl
        rcases List.mem_append.mp hc with hc | hc
        · exact Or.inr (isBlank_of_toLower (hblanks _ (List.mem_map_of_mem hc)))
        · refine Or.inl (isWordChar_of_toLower ?_)
          have hletters : ∀ d ∈ "important".toList, isWordChar d = true := List.all_eq_true.mp rfl
          exact hletters _ (hword ▸ List.mem_map_of_mem hc)

/-! ### Pieces of a value -/

/-- Pieces of words and blanks. -/
theorem Cut.kind_of_plain (h : Cut kind text after) (hplain : ∀ c ∈ text, isPlain c = true) :
    kind = .word ∨ kind = .whitespace := by
  have hno : ∀ {c cs}, text = c :: cs → isPlain c = false → False := by
    rintro c cs rfl hc
    rw [hplain c (List.mem_cons_self ..)] at hc
    cases hc
  cases h with
  | word => exact Or.inl rfl
  | whitespace => exact Or.inr rfl
  | mark h => exact (hno rfl (not_plain_of_mark h)).elim
  | string h => exact (hno rfl (not_plain_of_quote h)).elim
  | _ => exact (hno rfl rfl).elim

theorem cross_plain (h : Laid ls after) (hplain : ∀ c ∈ spell ls, isPlain c = true) (depth : Nat) :
    cross endsPrelude depth ls = some depth := by
  induction ls with
  | nil => rfl
  | cons l ls ih =>
    rw [spell_cons] at hplain
    have hl := h.1.kind_of_plain fun c hc => hplain c (List.mem_append_left _ hc)
    have hls := ih h.2 fun c hc => hplain c (List.mem_append_right _ hc)
    rcases hl with hl | hl <;> rw [cross_cons (by rw [hl]; rfl), hl] <;> exact hls

/-- A piece that is cut in front of words and blanks, but not in a keyword, is a word. -/
theorem Cut.word_of_straddle (h : Cut kind text after) (hsplit : text = a ++ b) (ha : a ≠ [])
    (hb : b ≠ []) (hplain : ∀ c ∈ b, isPlain c = true)
    (hfirst : ∀ c, b.head? = some c → isKeywordRest c = false)
    (hlast : ∀ c, a.getLast? = some c → Text.isSpace c = false) :
    kind = .word ∧ ∀ c ∈ a, isWordChar c = true := by
  obtain ⟨d, a, rfl⟩ := List.exists_cons_of_ne_nil ha
  obtain ⟨e, he⟩ := Option.ne_none_iff_exists'.mp (mt List.getLast?_eq_none_iff.mp hb)
  have hend : text.getLast? = some e := by rw [hsplit, List.getLast?_append, he]; rfl
  have hbig : ∀ c, text ≠ [c] := by
    rintro c rfl
    obtain ⟨f, b, rfl⟩ := List.exists_cons_of_ne_nil hb
    simp at hsplit
  have hplain : isPlain e = true := hplain e (List.mem_of_getLast? he)
  cases h with
  | mark => exact absurd rfl (hbig _)
  | slash => exact absurd rfl (hbig _)
  | sign => exact absurd rfl (hbig _)
  | comment h =>
    rw [List.getLast?_cons, List.getLast?_cons, getLast?_of_commentExtent? h] at hend
    cases hend
    cases hplain
  | @atKeyword k more _ hk hmore =>
    obtain ⟨f, b, rfl⟩ := List.exists_cons_of_ne_nil hb
    have hkeyword : k :: more = a ++ f :: b := (List.cons.inj hsplit).2
    have hrest : ∀ g ∈ a ++ f :: b, isKeywordRest g = true := by
      rw [← hkeyword]
      exact List.forall_mem_cons.mpr ⟨by rw [isKeywordRest, hk]; rfl, hmore⟩
    have hno := hfirst f rfl
    rw [hrest f (by simp)] at hno
    cases hno
  | string hq h =>
    rw [List.getLast?_cons, getLast?_of_stringExtent? h] at hend
    cases hend
    rw [Option.getD_some, not_plain_of_quote hq] at hplain
    cases hplain
  | whitespace h =>
    obtain ⟨f, hf⟩ := Option.ne_none_iff_exists'.mp
      (mt List.getLast?_eq_none_iff.mp (List.cons_ne_nil d a))
    have hspace := h f (hsplit ▸ List.mem_append_left _ (List.mem_of_getLast? hf))
    rw [hlast f hf] at hspace
    cases hspace
  | word h => exact ⟨rfl, fun c hc => h c (hsplit ▸ List.mem_append_left _ hc)⟩

/-- **Pieces cut in front of words and blanks**, which may be in the middle of a word. -/
theorem Laid.cut (h : Laid ls after) (hsplit : spell ls = a ++ b)
    (hplain : ∀ c ∈ b, isPlain c = true)
    (hfirst : ∀ c, b.head? = some c → isKeywordRest c = false)
    (hlast : ∀ c, a.getLast? = some c → Text.isSpace c = false) (hc : isBreak c = true)
    (hend : NoCommentEnd (b ++ after) → NoCommentEnd other) : ∃ ms, spell ms = a ∧
      (∀ depth, cross endsPrelude depth ms = cross endsPrelude depth ls) ∧ Laid ms (c :: other) := by
  induction ls generalizing a with
  | nil =>
    obtain ⟨rfl, -⟩ := List.append_eq_nil_iff.mp hsplit.symm
    exact ⟨[], rfl, fun _ => rfl, trivial⟩
  | cons l ls ih =>
    obtain ⟨hcut, hlaid⟩ := h
    -- The lexeme stays whole where the cut is behind it.
    have hwhole : ∀ rest, a = l.text ++ rest → spell ls = rest ++ b → ∃ ms, spell ms = a ∧
        (∀ depth, cross endsPrelude depth ms = cross endsPrelude depth (l :: ls)) ∧
        Laid ms (c :: other) := by
      rintro rest rfl hrest
      obtain ⟨ms, rfl, hcross, hms⟩ := ih hlaid hrest fun d hd =>
        hlast d (by rw [List.getLast?_append, hd]; rfl)
      refine ⟨l :: ms, rfl, fun depth => by rw [cross, cross, hcross], hcut.change ?_, hms⟩
      cases hspell : spell ms with
      | nil =>
        refine borders_of_break hc (fun hkind => ?_) other
        obtain ⟨d, hd⟩ := Option.ne_none_iff_exists'.mp (mt List.getLast?_eq_none_iff.mp hcut.ne_nil)
        have hspace := (hkind ▸ hcut).space d (List.mem_of_getLast? hd)
        rw [hlast d (by rw [hspell, List.append_nil, hd])] at hspace
        cases hspace
      | cons d text =>
        rw [hrest, hspell] at hcut
        refine hcut.borders.change rfl fun hno => ?_
        rw [List.append_assoc] at hno
        exact (NoCommentEnd.before_break hno hc hend : NoCommentEnd (text ++ c :: other))
    rw [spell_cons, List.append_eq_append_iff] at hsplit
    rcases hsplit with ⟨rest, hrest, hspell⟩ | ⟨rest, htext, rfl⟩
    · exact hwhole rest hrest hspell
    · have hrow : ∀ depth, cross endsPrelude depth ls = some depth :=
        cross_plain hlaid fun d hd => hplain d (List.mem_append_right _ hd)
      by_cases hb : rest = []
      · subst hb
        exact hwhole [] (by rw [htext, List.append_nil, List.append_nil]) rfl
      · by_cases ha : a = []
        · subst ha
          have hrow' : Laid (l :: ls) after := ⟨hcut, hlaid⟩
          refine ⟨[], rfl, fun depth => (cross_plain hrow' (fun d hd => hplain d ?_) depth).symm, trivial⟩
          rwa [spell_cons, htext] at hd
        · obtain ⟨hkind, hword⟩ := hcut.word_of_straddle htext ha hb
            (fun d hd => hplain d (List.mem_append_left _ hd))
            (fun d hd => hfirst d (by rw [List.head?_append, hd]; rfl)) hlast
          obtain ⟨d, text, rfl⟩ := List.exists_cons_of_ne_nil ha
          refine ⟨[⟨.word, d :: text, l.start⟩], List.append_nil _, fun depth => ?_, ?_, trivial⟩
          · rw [cross_cons rfl, cross_cons (by rw [hkind]; rfl), hkind]
            exact (hrow _).symm
          · exact .word hword fun e he => borders_of_break hc (by decide : LexemeClass.word ≠ _) other e he

/-! ### Values in print -/

/-- A lexeme of white space. -/
def gap (blanks : List Char) : Lexeme := ⟨.whitespace, blanks, 0⟩

theorem cut_gap (hspace : ∀ c ∈ text, Text.isSpace c = true) (hne : text ≠ [])
    (hafter : ∀ c, after.head? = some c → Text.isSpace c = false) : Cut (gap text).kind text after := by
  obtain ⟨c, more, rfl⟩ := List.exists_cons_of_ne_nil hne
  exact .whitespace hspace hafter

/-- One blank in front of what does not start with one. -/
theorem cut_blank (hafter : ∀ c, after.head? = some c → Text.isSpace c = false) :
    Cut .whitespace [' '] after :=
  .whitespace (by simp [Text.isSpace]) hafter

theorem cutImportant_of_not (h : cutImportant text = (a, false)) : a = text := by
  unfold cutImportant at h
  split at h
  · exact (Prod.mk.inj h).1.symm
  · split at h
    · exact (Prod.mk.inj h).1.symm
    · cases h

theorem cutImportant_trim_mark (value : List Char) :
    cutImportant (Text.trim (value ++ "!important".toList)) = (Text.trim value, true) := by
  have hstart : Text.dropStart (value ++ "!important".toList) =
      Text.dropStart value ++ "!important".toList := by
    rw [Text.dropStart, List.dropWhile_append]
    split
    · next hnil =>
      rw [Text.dropStart, List.isEmpty_iff.mp hnil]
      rfl
    · rfl
  have hend : Text.dropEnd (Text.dropStart value ++ "!important".toList) =
      Text.dropStart value ++ "!important".toList := by
    refine Text.dropEnd_eq_self fun c hc => ?_
    rw [List.getLast?_append] at hc
    cases hc
    rfl
  rw [Text.trim, hstart, hend, cutImportant_mark]
  rfl

/-- The mark as it is printed behind a value. -/
def markText (important : Bool) : List Char := if important then " !important".toList else []

/-- What is printed behind the colon of a declaration. -/
def valueText (value : List Char) (important : Bool) : List Char :=
  ' ' :: (value ++ markText important)

/-- A row of lexemes is printed as another one, in front of a semicolon, that reads as the same value. -/
structure Revalued (ls ms : List Lexeme) (after other : List Char) : Prop where
  value : cutImportant (Text.trim (spell ms)) = cutImportant (Text.trim (spell ls))
  depth : ∀ depth, cross endsPrelude depth ms = cross endsPrelude depth ls
  laid : Laid ms (';' :: other)
  quiet : NoCommentEnd (spell ls ++ after) → NoCommentEnd (spell ms ++ ';' :: other)

theorem NoCommentEnd.valueText {value : List Char} (h : NoCommentEnd value) (important : Bool)
    (hother : NoCommentEnd other) :
    NoCommentEnd (Css.valueText value important ++ ';' :: other) := by
  have hmark : ∀ c ∈ markText important ++ [';'], c ≠ '*' ∧ c ≠ '/' := by
    cases important <;> simp [markText]
  have hvalue := h.separated hother hmark (List.append_ne_nil_of_right_ne_nil _ (by simp))
  have hblank := NoCommentEnd.nil.separated hvalue (by simp : ∀ c ∈ [' '], c ≠ '*' ∧ c ≠ '/')
    (List.cons_ne_nil _ _)
  simpa only [Css.valueText, List.nil_append, List.append_assoc, List.cons_append] using hblank

/-- Pieces of a value, and the mark behind them as it is printed. -/
theorem exists_marked {pieces : List Lexeme} (hpieces : Laid pieces (' ' :: ("!important".toList ++
    ';' :: other))) (hfirst : ∀ c, (spell pieces).head? = some c → Text.isSpace c = false) :
    ∃ ms, spell ms = valueText (spell pieces) true ∧ Laid ms (';' :: other) ∧
      ∀ depth, cross endsPrelude depth ms = cross endsPrelude depth pieces := by
  have hword : Laid [⟨.word, "!important".toList, 0⟩] (';' :: other) :=
    ⟨.word (List.all_eq_true.mp rfl) fun c hc => by cases hc; rfl, trivial⟩
  have hdepth : ∀ blanks depth, cross endsPrelude depth
      [gap blanks, ⟨.word, "!important".toList, 0⟩] = some depth := fun blanks depth => by
    rw [cross_cons rfl, cross_cons rfl]
    rfl
  cases pieces with
  | nil =>
    refine ⟨[gap [' ', ' '], ⟨.word, "!important".toList, 0⟩], rfl, ⟨?_, hword⟩, hdepth _⟩
    exact cut_gap (by simp [Text.isSpace]) (by simp) fun c hc => by cases hc; rfl
  | cons m more =>
    refine ⟨gap [' '] :: (m :: more ++ [gap [' '], ⟨.word, "!important".toList, 0⟩]), ?_, ⟨?_, ?_⟩,
      fun depth => ?_⟩
    · rw [spell_cons, spell_append]
      rfl
    · refine cut_blank fun c hc => hfirst c ?_
      obtain ⟨d, text, htext⟩ := List.exists_cons_of_ne_nil hpieces.1.ne_nil
      rw [List.cons_append, spell_cons, htext] at hc
      rw [spell_cons, htext]
      exact hc
    · refine laid_append.mpr ⟨hpieces, cut_blank fun c hc => ?_, hword⟩
      cases hc
      rfl
    · rw [cross_cons rfl, cross_append]
      show (cross endsPrelude depth (m :: more)).bind _ = _
      cases cross endsPrelude depth (m :: more) with
      | none => rfl
      | some last => exact hdepth _ last

section value

variable (hlaid : Laid ls after) (hspaced : Spaced (spell ls))
  (hend : NoCommentEnd after → NoCommentEnd other)
include hlaid hspaced hend

theorem exists_plain {value : List Char} (h : cutImportant (Text.trim (spell ls)) = (value, false)) :
    ∃ ms, spell ms = valueText value false ∧ Revalued ls ms after other := by
  obtain ⟨core, hcore⟩ := exists_core ls
  obtain rfl := cutImportant_of_not h
  have hspell := hcore.spell_eq hlaid hspaced
  have htext : spell (gap [' '] :: core) = valueText (Text.trim (spell ls)) false := by
    rw [spell_cons, hspell]
    exact congrArg (' ' :: ·) (List.append_nil _).symm
  refine ⟨gap [' '] :: core, htext, ?_, fun depth => ?_, ⟨cut_blank fun c hc => ?_, ?_⟩, fun hno => ?_⟩
  · rw [spell_cons, hspell, Text.trim_append_left, Text.trim_trim]
    simp [gap, Text.isBlank]
  · rw [cross_cons rfl]
    exact hcore.cross_eq rfl depth
  · rw [List.head?_append] at hc
    cases hhead : (spell core).head? with
    | none =>
      rw [hhead] at hc
      cases hc
      rfl
    | some d =>
      rw [hhead] at hc
      cases hc
      exact (hcore.edges hlaid).1 c hhead
  · exact hcore.laid hlaid rfl hend
  · rw [htext, ← hspell]
    have hvalue := hno.within (hcore.within.trans (List.prefix_append _ after).isInfix)
    exact hvalue.valueText false (hend (hno.within (List.suffix_append _ after).isInfix))

theorem exists_important {value : List Char} (h : cutImportant (Text.trim (spell ls)) = (value, true)) :
    ∃ ms, spell ms = valueText value true ∧ Revalued ls ms after other := by
  obtain ⟨core, hcore⟩ := exists_core ls
  have hspell := hcore.spell_eq hlaid hspaced
  have htrimmed := hcore.trimmed hlaid hspaced
  obtain ⟨mark, hmark⟩ := marked_cutImportant h
  have hsplit := hspell.trans hmark.split
  obtain ⟨trail, hlaidcore⟩ := hcore.laid_core hlaid
  have hmarkspaced : Spaced mark :=
    hspaced.within ((hsplit ▸ List.suffix_append value mark).isInfix.trans hcore.within)
  have hspace : ∀ c ∈ mark, Text.isBlank c = true → Text.isSpace c = true := hmarkspaced
  have hvalue : Text.trim value = value := by
    refine Text.Trimmed.trim_eq ⟨fun c hc => htrimmed.first c ?_, hmark.last⟩
    rw [hsplit, List.head?_append, hc]
    rfl
  -- The mark that is printed is in the place of the one that was read.
  have hbehind : NoCommentEnd (mark ++ (trail ++ after)) →
      NoCommentEnd ("!important".toList ++ ';' :: other) := fun hno => by
    have hother := hend (hno.within ((List.suffix_append trail after).isInfix.trans
      (List.suffix_append mark _).isInfix))
    exact NoCommentEnd.nil.separated hother
      (by simp : ∀ c ∈ "!important;".toList, c ≠ '*' ∧ c ≠ '/') (by simp)
  obtain ⟨ms, hms, hcross, hlaidms⟩ := hlaidcore.cut hsplit
    (fun c hc => by
      rcases hmark.plain c hc with hword | hblank
      · rw [isPlain, hword]
        rfl
      · rw [isPlain, hspace c hc hblank, Bool.or_true])
    (fun c hc => by
      rcases hmark.first c hc with rfl | hblank
      · rfl
      · refine Bool.eq_false_iff.mpr fun hrest => ?_
        have hno := not_space_of_rest hrest
        rw [hspace c (List.mem_of_head? hc) hblank] at hno
        cases hno)
    (fun c hc => Bool.eq_false_iff.mpr fun hspace => by
      have hblank := hmark.last c hc
      rw [Text.isBlank_of_isSpace hspace] at hblank
      cases hblank)
    (c := ' ') rfl hbehind
  subst hms
  obtain ⟨rows, hrows, hlaidrows, hcrossrows⟩ := exists_marked hlaidms fun c hc => by
    refine (hcore.edges hlaid).1 c ?_
    rw [hsplit, List.head?_append, hc]
    rfl
  refine ⟨rows, hrows, ?_, fun depth => ?_, hlaidrows, fun hno => ?_⟩
  · have htext : spell rows = [' '] ++ spell ms ++ [' '] ++ "!important".toList := by
      rw [hrows]
      simp only [valueText, markText, if_true, List.append_assoc, List.cons_append]
      rfl
    rw [htext, cutImportant_trim_mark, Text.trim_append_right, Text.trim_append_left, hvalue, h]
    all_goals simp [Text.isBlank]
  · rw [hcrossrows, hcross, hcore.cross_eq rfl]
  · rw [hrows]
    have hfront := (hsplit ▸ List.prefix_append (spell ms) mark).isInfix
    have hms := hno.within (hfront.trans (hcore.within.trans (List.prefix_append _ after).isInfix))
    exact hms.valueText true (hend (hno.within (List.suffix_append _ after).isInfix))

/-- **A value is read again from what is printed behind the colon.** -/
theorem exists_value : ∃ ms,
    spell ms = valueText (cutImportant (Text.trim (spell ls))).1
      (cutImportant (Text.trim (spell ls))).2 ∧ Revalued ls ms after other := by
  cases h : cutImportant (Text.trim (spell ls)) with
  | mk value important =>
    cases important with
    | false => exact exists_plain hlaid hspaced hend h
    | true => exact exists_important hlaid hspaced hend h

end value

end Strata.Css
