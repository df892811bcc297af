import Strata.Proofs.Css.Pieces
import Strata.Proofs.Css.Spans

/-! What becomes of every byte of a text.

Lexemes tile their text (`Tiles`): the first starts at byte 0, each of the others where the one before it
stops, and the last stops at the end. What a lexeme is depends on the text from its first character on
(`extent_of_split`), so what holds of one of them is read off `extent` there: where a comment ends, which
strings are left open, and that no word and no white space goes on in the next lexeme. `lexemes_lossless`
has it in one place, with what it means for the tokens and for the error of a text. -/
namespace Strata.Css

/-- The strings that a text leaves open. -/
def openStrings (text : String) : List Lexeme := (lexemes text).filter (·.kind == .unclosed)

/-! ### Strings on a line -/

/-- The text up to the end of its first line. -/
def line (cs : List Char) : List Char := cs.takeWhile (· != '\n')

/-- What may stand between two quotes: no line end, and neither the quote nor a backslash, but for a
backslash that hides the character behind it. -/
inductive Quotable (quote : Char) : List Char → Prop where
  | nil : Quotable quote []
  | plain {d more} : d ≠ quote → d ≠ '\\' → d ≠ '\n' → Quotable quote more → Quotable quote (d :: more)
  | hidden {d more} : d ≠ '\n' → Quotable quote more → Quotable quote ('\\' :: d :: more)

/-- The string whose opening quote stands in front of the text is closed before the line ends. A backslash
at the end of the line hides nothing, so it leaves the string open. -/
def ClosedOnLine (quote : Char) (cs : List Char) : Prop :=
  ∃ body rest, cs = body ++ quote :: rest ∧ Quotable quote body

/-- A quote whose string is left open is the first character of the text. -/
def StartsOpen (cs : List Char) : Prop :=
  ∃ quote rest, isQuote quote = true ∧ cs = quote :: rest ∧ ¬ ClosedOnLine quote rest

variable {quote c : Char} {cs after : List Char} {l m : Lexeme} {ls before : List Lexeme} {lo n : Nat}

theorem isQuote_iff_mem_quotes : isQuote c = true ↔ ∃ kind, (c, kind) ∈ quotes := by
  simp [isQuote_iff, quotes, exists_or]

theorem ne_newline_of_isQuote (hquote : isQuote c = true) : c ≠ '\n' := by
  rcases isQuote_iff.mp hquote with rfl | rfl <;> decide

/-- A string is read to its closing quote. -/
theorem stringExtent?_of_quotable {body : List Char} (hquote : isQuote quote = true)
    (h : Quotable quote body) (rest : List Char) :
    stringExtent? quote (body ++ quote :: rest) = some (body.length + 1) := by
  have hslash := ne_backslash_of_isQuote hquote
  have hline := ne_newline_of_isQuote hquote
  induction h with
  | nil => rw [List.nil_append, stringExtent?_cons hline hslash, if_pos rfl, List.length_nil]
  | plain hne hplain hl _ ih =>
    rw [List.cons_append, stringExtent?_cons hl hplain, if_neg hne, ih]
    rfl
  | hidden hl _ ih =>
    rw [List.cons_append, List.cons_append, stringExtent?.eq_5 quote _ _ hl, ih]
    rfl

theorem exists_quotable (h : stringExtent? quote cs = some n) :
    ∃ body rest, cs = body ++ quote :: rest ∧ Quotable quote body ∧ n = body.length + 1 := by
  fun_induction stringExtent? quote cs generalizing n with
  | case1 => cases h
  | case2 => cases h
  | case3 => cases h
  | case4 => cases h
  | case5 d cs hd ih =>
    obtain ⟨m, hm, rfl⟩ := Option.map_eq_some_iff.mp h
    obtain ⟨body, rest, rfl, hbody, rfl⟩ := ih hm
    exact ⟨'\\' :: d :: body, rest, rfl, .hidden hd hbody, rfl⟩
  | case6 cs =>
    cases h
    exact ⟨[], cs, rfl, .nil, rfl⟩
  | case7 c cs hline hend _ hhidden hne ih =>
    have hslash : c ≠ '\\' := ne_backslash_of_alone hend hhidden
    obtain ⟨m, hm, rfl⟩ := Option.map_eq_some_iff.mp h
    obtain ⟨body, rest, rfl, hbody, rfl⟩ := ih hm
    exact ⟨c :: body, rest, rfl, .plain hne hslash hline hbody, rfl⟩

theorem stringExtent?_eq_none (hquote : isQuote quote = true) :
    stringExtent? quote cs = none ↔ ¬ ClosedOnLine quote cs := by
  rw [Option.eq_none_iff_forall_ne_some]
  constructor
  · rintro h ⟨body, rest, rfl, hbody⟩
    exact h _ (stringExtent?_of_quotable hquote hbody rest)
  · intro h n hn
    obtain ⟨body, rest, hcs, hbody, -⟩ := exists_quotable hn
    exact h ⟨body, rest, hcs, hbody⟩

/-! ### Lexemes in their text -/

/-- What a lexeme is depends on the text from its first character on. -/
theorem extent_of_split (h : lexemesFrom n cs = before ++ l :: ls) :
    ∃ c more, l.text = c :: more ∧ extent c (more ++ spell ls) = (l.kind, more.length) := by
  induction before generalizing n cs with
  | nil =>
    cases cs with
    | nil => cases (lexemesFrom.eq_1 n).symm.trans h
    | cons c cs =>
      rw [lexemesFrom, List.nil_append] at h
      obtain ⟨rfl, rfl⟩ := List.cons.inj h
      refine ⟨c, _, rfl, ?_⟩
      rw [spell_lexemesFrom]
      exact extent_take c cs
  | cons k before ih =>
    cases cs with
    | nil => cases (lexemesFrom.eq_1 n).symm.trans h
    | cons c cs =>
      rw [lexemesFrom, List.cons_append] at h
      exact ih (List.cons.inj h).2

theorem cut_of_split {kind : LexemeClass} (h : lexemesFrom n cs = before ++ l :: ls)
    (hkind : l.kind = kind) (hclosed : kind ≠ .unclosed) : Cut kind l.text (spell ls) := by
  obtain ⟨c, more, htext, hextent⟩ := extent_of_split h
  exact htext ▸ cut_of_extent (hkind ▸ hextent) hclosed

theorem extent_unclosed (c : Char) (cs : List Char) :
    (extent c cs).1 = .unclosed ↔ isQuote c = true ∧ ¬ ClosedOnLine c cs := by
  by_cases hquote : isQuote c = true
  · obtain ⟨kind, hc⟩ := isQuote_iff_mem_quotes.mp hquote
    rw [← stringExtent?_eq_none hquote, extent_quote hc]
    cases stringExtent? c cs with
    | none => simp [hquote]
    | some n =>
      have hkind : kind ≠ .unclosed := by rintro rfl; simp [quotes] at hc
      simp [hkind]
  · refine iff_of_false (fun h => ?_) fun h => hquote h.1
    rcases start_cases c with ⟨kind, hc⟩ | rfl | rfl | ⟨kind, hc⟩ | hc | hc
    · rw [extent_mark hc] at h
      obtain rfl : kind = .unclosed := h
      simp [marks] at hc
    · rw [extent_slash] at h
      split at h
      · split at h <;> cases h
      · cases h
    · rw [extent_at] at h
      split at h
      · split at h <;> cases h
      · cases h
    · exact hquote (isQuote_iff_mem_quotes.mpr ⟨kind, hc⟩)
    · rw [extent_space hc] at h
      cases h
    · rw [extent_word hc] at h
      cases h

/-- A lexeme is a string left open exactly when the text goes on with one from there. -/
theorem unclosed_iff (h : lexemesFrom n cs = before ++ l :: ls) :
    l.kind = .unclosed ↔ StartsOpen (l.text ++ spell ls) := by
  obtain ⟨c, more, htext, hextent⟩ := extent_of_split h
  have hkind := extent_unclosed c (more ++ spell ls)
  rw [hextent] at hkind
  rw [hkind, htext]
  constructor
  · exact fun ⟨hquote, hopen⟩ => ⟨c, _, hquote, rfl, hopen⟩
  · rintro ⟨quote, rest, hquote, heq, hopen⟩
    obtain ⟨rfl, rfl⟩ := List.cons.inj heq
    exact ⟨hquote, hopen⟩

/-- A string left open goes up to the end of the line. -/
theorem text_of_unclosed (h : lexemesFrom n cs = before ++ l :: ls) (hkind : l.kind = .unclosed) :
    l.text = line (l.text ++ spell ls) := by
  obtain ⟨c, more, htext, hextent⟩ := extent_of_split h
  rw [hkind] at hextent
  obtain ⟨hquote, hopen⟩ := (extent_unclosed c _).mp (congrArg Prod.fst hextent)
  obtain ⟨kind, hc⟩ := isQuote_iff_mem_quotes.mp hquote
  rw [extent_quote hc, (stringExtent?_eq_none hquote).mpr hopen] at hextent
  have hlength : (line (more ++ spell ls)).length = more.length := (Prod.mk.inj hextent).2
  have hmore : line (more ++ spell ls) = more := by
    have hprefix : line (more ++ spell ls) <+: more ++ spell ls := List.takeWhile_prefix _
    exact (List.prefix_of_prefix_length_le hprefix (List.prefix_append _ _) hlength.le).eq_of_length
      hlength
  have hline : c ≠ '\n' := ne_newline_of_isQuote hquote
  rw [htext, List.cons_append, line, List.takeWhile_cons_of_pos (by simpa using hline)]
  exact congrArg (c :: ·) hmore.symm

theorem ne_nil_of_split (h : lexemesFrom n cs = before ++ l :: ls) : l.text ≠ [] := by
  obtain ⟨c, more, htext, -⟩ := extent_of_split h
  exact htext ▸ List.cons_ne_nil c more

/-! ### What a lexeme says of its text -/

theorem noCommentEnd_dropLast {body : List Char}
    (h : commentExtent? (body ++ after) = some body.length) : NoCommentEnd body.dropLast := by
  induction body with
  | nil => exact NoCommentEnd.nil
  | cons c body ih =>
    rw [List.cons_append, commentExtent?_cons] at h
    split at h
    · next hend =>
      have hone : body.length = 1 := by simpa using (Option.some.inj h).symm
      obtain ⟨d, rfl⟩ := List.length_eq_one_iff.mp hone
      exact NoCommentEnd.cons_iff.mpr ⟨fun _ hhead => (nomatch hhead), NoCommentEnd.nil⟩
    · next hno =>
      obtain ⟨n, hn, hlen⟩ := Option.map_eq_some_iff.mp h
      have hbody : commentExtent? (body ++ after) = some body.length := by
        rw [hn]
        exact congrArg some (Nat.add_right_cancel hlen)
      -- Two more characters at least, so the last one is not the next one.
      obtain ⟨d, e, body, rfl⟩ : ∃ d e more, body = d :: e :: more := by
        match body, (commentExtent?_change hbody []).1 with
        | d :: e :: more, _ => exact ⟨d, e, more, rfl⟩
      exact NoCommentEnd.cons_iff.mpr ⟨fun hc hd => hno ⟨hc, hd⟩, ih hbody⟩

section cut

variable {kind : LexemeClass} {text : List Char}

/-- A comment ends at the first end of a comment behind its opening. -/
theorem Cut.comment_first (h : Cut .comment text after) :
    ∃ inner, text = '/' :: '*' :: (inner ++ ['*', '/']) ∧ NoCommentEnd (inner ++ ['*']) := by
  obtain ⟨inner, htext⟩ := h.comment_text
  refine ⟨inner, htext, ?_⟩
  cases h with
  | mark h => simp [marks] at h
  | string h => simp [Css.quotes] at h
  | comment h =>
    have hno := noCommentEnd_dropLast h
    obtain rfl : _ = inner ++ ['*', '/'] := by simpa using htext
    rwa [List.dropLast_append_of_ne_nil (List.cons_ne_nil _ _)] at hno

/-- A string ends at the first quote that is its own. -/
theorem Cut.string_first (h : Cut kind text after) (hkind : kind = .doubleQuoted ∨ kind = .singleQuoted) :
    ∃ quote body, (quote, kind) ∈ Css.quotes ∧ text = quote :: (body ++ [quote]) ∧ Quotable quote body := by
  cases h with
  | mark h => rcases hkind with rfl | rfl <;> simp [marks] at h
  | @string quote _ text _ hq h =>
    obtain ⟨body, rest, hsplit, hbody, hlen⟩ := exists_quotable h
    refine ⟨quote, body, hq, congrArg (quote :: ·) ?_, hbody⟩
    rw [List.append_cons] at hsplit
    exact (List.append_inj hsplit (by simp [hlen])).1
  | _ => simp at hkind

theorem Cut.word_chars (h : Cut .word text after) : ∀ c ∈ text, isWordChar c = true := by
  cases h with
  | mark h => simp [marks] at h
  | string h => simp [Css.quotes] at h
  | word h => exact h

/-- A quote is in a comment or in a string. -/
theorem Cut.of_quote (h : Cut kind text after) (hc : c ∈ text) (hquote : isQuote c = true) :
    kind = .comment ∨ kind = .doubleQuoted ∨ kind = .singleQuoted := by
  have hother : ∀ p : Char → Bool, p '"' = false → p '\'' = false → p c = false := by
    intro p hdouble hsingle
    rcases isQuote_iff.mp hquote with rfl | rfl <;> assumption
  cases h with
  | mark h =>
    rw [List.mem_singleton.mp hc] at hquote
    simp only [marks, List.mem_cons, Prod.mk.injEq, List.not_mem_nil, or_false] at h
    rcases h with ⟨rfl, -⟩ | ⟨rfl, -⟩ | ⟨rfl, -⟩ | ⟨rfl, -⟩ | ⟨rfl, -⟩ | ⟨rfl, -⟩ <;> cases hquote
  | slash =>
    rw [List.mem_singleton.mp hc] at hquote
    cases hquote
  | sign =>
    rw [List.mem_singleton.mp hc] at hquote
    cases hquote
  | comment => exact .inl rfl
  | @atKeyword k more _ hk hmore =>
    have hrest : ∀ d ∈ k :: more, isKeywordRest d = true :=
      List.forall_mem_cons.mpr ⟨by rw [isKeywordRest, hk]; rfl, hmore⟩
    rcases List.mem_cons.mp hc with rfl | hc
    · cases hquote
    · cases (hrest c hc).symm.trans (hother isKeywordRest rfl rfl)
  | string hq =>
    simp only [Css.quotes, List.mem_cons, Prod.mk.injEq, List.not_mem_nil, or_false] at hq
    rcases hq with ⟨-, rfl⟩ | ⟨-, rfl⟩ <;> simp
  | whitespace h => cases (h c hc).symm.trans (hother Text.isSpace rfl rfl)
  | word h => cases (h c hc).symm.trans (hother isWordChar rfl rfl)

end cut

/-- A word does not go on in the next lexeme, nor does white space. -/
theorem next_of_split (h : lexemesFrom n cs = before ++ l :: m :: ls) :
    ¬ (l.kind = .word ∧ m.kind = .word) ∧ ¬ (l.kind = .whitespace ∧ m.kind = .whitespace) := by
  have hm : lexemesFrom n cs = (before ++ [l]) ++ m :: ls := by rw [h, List.append_cons]
  have hapart : ∀ p : Char → Bool, (∀ c, (m.text ++ spell ls).head? = some c → p c = false) →
      ¬ ∀ c ∈ m.text, p c = true := by
    intro p hno hyes
    obtain ⟨c, more, htext⟩ := List.exists_cons_of_ne_nil (ne_nil_of_split hm)
    rw [htext] at hno hyes
    exact Bool.false_ne_true ((hno c rfl).symm.trans (hyes c List.mem_cons_self))
  constructor
  · rintro ⟨hl, hkind⟩
    exact hapart isWordChar (cut_of_split h hl (by decide)).borders
      (cut_of_split hm hkind (by decide)).word_chars
  · rintro ⟨hl, hkind⟩
    exact hapart Text.isSpace (cut_of_split h hl (by decide)).borders
      (cut_of_split hm hkind (by decide)).space

/-- What a lexeme says of the text, where some lexemes stand before it and some after it. -/
structure Lexeme.Tells (before : List Lexeme) (l : Lexeme) (after : List Lexeme) : Prop where
  start : l.start = byteLength (spell before)
  opens : l.kind = .unclosed ↔ StartsOpen (l.text ++ spell after)
  line : l.kind = .unclosed → l.text = line (l.text ++ spell after)
  string : l.kind = .doubleQuoted ∨ l.kind = .singleQuoted → ∃ quote body,
    (quote, l.kind) ∈ quotes ∧ l.text = quote :: (body ++ [quote]) ∧ Quotable quote body
  comment : l.kind = .comment →
    ∃ inner, l.text = '/' :: '*' :: (inner ++ ['*', '/']) ∧ NoCommentEnd (inner ++ ['*'])
  /-- No quote is passed over: outside comments and strings each of them opens a string. -/
  quote : ∀ c ∈ l.text, isQuote c = true → l.kind = .unclosed ∨
    l.kind = .comment ∨ l.kind = .doubleQuoted ∨ l.kind = .singleQuoted
  next : ∀ m, after.head? = some m →
    ¬ (l.kind = .word ∧ m.kind = .word) ∧ ¬ (l.kind = .whitespace ∧ m.kind = .whitespace)

theorem tells_of_split (h : lexemesFrom 0 cs = before ++ l :: ls) : l.Tells before ls where
  start := by
    have hplaced := placed_append.mp (h ▸ placed_lexemesFrom 0 cs)
    rw [hplaced.2.1, Nat.zero_add]
  opens := unclosed_iff h
  line := text_of_unclosed h
  string hkind := by
    have hclosed : l.kind ≠ .unclosed := by rcases hkind with hkind | hkind <;> simp [hkind]
    exact (cut_of_split h rfl hclosed).string_first hkind
  comment hkind := (cut_of_split h hkind (by decide)).comment_first
  quote c hc hquote := by
    by_cases hkind : l.kind = .unclosed
    · exact .inl hkind
    · exact .inr ((cut_of_split h rfl hkind).of_quote hc hquote)
  next m hm := by
    obtain ⟨more, rfl⟩ := List.head?_eq_some_iff.mp hm
    exact next_of_split h

/-! ### Tiles -/

/-- The spans of the lexemes are not empty and follow one another without a gap, from `lo` to `hi`. -/
def Tiles (lo hi : Nat) : List Lexeme → Prop
  | [] => lo = hi
  | l :: ls => l.start = lo ∧ l.start < l.stop ∧ Tiles l.stop hi ls

theorem Placed.tiles (h : Placed lo ls) (hne : ∀ l ∈ ls, l.text ≠ []) :
    Tiles lo (lo + byteLength (spell ls)) ls := by
  induction ls generalizing lo with
  | nil => rfl
  | cons l ls ih =>
    obtain ⟨rfl, hls⟩ := h
    obtain ⟨hl, hne⟩ := List.forall_mem_cons.mp hne
    refine ⟨rfl, Nat.lt_add_of_pos_right (byteLength_pos hl), ?_⟩
    rw [spell_cons, byteLength_append, ← Nat.add_assoc]
    exact ih hls hne

theorem byteLength_toList (text : String) : byteLength text.toList = text.utf8ByteSize := by
  have hofList : ∀ cs, (String.ofList cs).utf8ByteSize = byteLength cs := by
    intro cs
    induction cs with
    | nil => rfl
    | cons c cs ih =>
      rw [← List.singleton_append, String.ofList_append, String.utf8ByteSize_append, ih,
        ← String.singleton_eq_ofList, String.utf8ByteSize_singleton, List.singleton_append,
        byteLength_cons]
  rw [← hofList, String.ofList_toList]

theorem tiles_lexemes (text : String) : Tiles 0 text.utf8ByteSize (lexemes text) := by
  have htiles := (placed_lexemesFrom 0 text.toList).tiles fun l hl => by
    obtain ⟨before, after, hsplit⟩ := List.append_of_mem hl
    exact ne_nil_of_split hsplit
  rwa [spell_lexemesFrom, Nat.zero_add, byteLength_toList] at htiles

/-! ### What remains without some lexemes -/

/-- The characters of a text, each with its place in bytes. -/
def located (n : Nat) : List Char → List (Nat × Char)
  | [] => []
  | c :: cs => (n, c) :: located (n + c.utf8Size) cs

/-- The byte is one of the lexeme. -/
def Lexeme.covers (l : Lexeme) (byte : Nat) : Bool := l.start ≤ byte && byte < l.stop

theorem located_append (n : Nat) (front back : List Char) :
    located n (front ++ back) = located n front ++ located (n + byteLength front) back := by
  induction front generalizing n with
  | nil => rfl
  | cons c front ih => rw [List.cons_append, located, ih, located, byteLength_cons, Nat.add_assoc,
      List.cons_append]

theorem map_located (n : Nat) (cs : List Char) : (located n cs).map Prod.snd = cs := by
  induction cs generalizing n with
  | nil => rfl
  | cons c cs ih => rw [located, List.map_cons, ih]

theorem mem_located {p : Nat × Char} (h : p ∈ located n cs) : n ≤ p.1 ∧ p.1 < n + byteLength cs := by
  induction cs generalizing n with
  | nil => cases h
  | cons c cs ih =>
    rw [byteLength_cons]
    have hc := c.utf8Size_pos
    rcases List.mem_cons.mp h with rfl | h
    · exact ⟨Nat.le_refl _, by omega⟩
    · have := ih h
      omega

theorem Placed.le_start (h : Placed lo ls) : ∀ l ∈ ls, lo ≤ l.start := by
  induction ls generalizing lo with
  | nil => exact fun l hl => nomatch hl
  | cons l ls ih =>
    obtain ⟨rfl, hls⟩ := h
    exact List.forall_mem_cons.mpr ⟨Nat.le_refl _, fun m hm => (Nat.le_add_right _ _).trans (ih hls m hm)⟩

/-- A row without some lexemes spells its text without the places of these. -/
theorem Placed.spell_filter (h : Placed lo ls) (kept : Lexeme → Bool) :
    spell (ls.filter kept) = ((located lo (spell ls)).filter fun p =>
      !(ls.filter (!kept ·)).any (·.covers p.1)).map Prod.snd := by
  induction ls generalizing lo with
  | nil => rfl
  | cons l ls ih =>
    obtain ⟨rfl, hls⟩ := h
    have hfront : ∀ p ∈ located l.start l.text,
        (!((l :: ls).filter (!kept ·)).any (·.covers p.1)) = kept l := by
      intro p hp
      have hplace : l.start ≤ p.1 ∧ p.1 < l.stop := mem_located hp
      have hl : l.covers p.1 = true := by simpa [Lexeme.covers] using hplace
      have hrest : (ls.filter (!kept ·)).any (·.covers p.1) = false := by
        refine List.any_eq_false.mpr fun m hm hcovers => ?_
        have hstart := hls.le_start m (List.mem_of_mem_filter hm)
        simp only [Lexeme.covers, Bool.and_eq_true, decide_eq_true_eq] at hcovers
        omega
      cases hkept : kept l <;> simp [hkept, hl, hrest]
    have hback : ∀ p ∈ located l.stop (spell ls), (!((l :: ls).filter (!kept ·)).any (·.covers p.1)) =
        !(ls.filter (!kept ·)).any (·.covers p.1) := by
      intro p hp
      have hl : l.covers p.1 = false := by
        have hplace := (mem_located hp).1
        simp only [Lexeme.covers, Bool.and_eq_false_iff, decide_eq_false_iff_not]
        omega
      cases hkept : kept l <;> simp [hkept, hl]
    have hstop : l.start + byteLength l.text = l.stop := rfl
    rw [spell_cons, located_append, hstop, List.filter_append, List.map_append,
      List.filter_congr hfront, List.filter_congr hback, ← ih hls]
    cases hkept : kept l <;> simp [hkept, spell, map_located]

/-! ### The error of a text -/

namespace ParseError

/-- The reason is input that is not recognized. -/
def Unrecognized (e : ParseError) : Prop := "unrecognized input".toList <+: e.reason.toList

theorem unrecognized_unclosedString (position : Nat) (text : String) :
    (unclosedString position text).Unrecognized := by
  change "unrecognized input".toList <+: ("unrecognized input '" ++ text ++ "'").toList
  rw [String.toList_append, String.toList_append, List.append_assoc]
  have hreason : "unrecognized input".toList <+: "unrecognized input '".toList := by simp
  exact hreason.trans (List.prefix_append _ _)

theorem not_unrecognized_strayBrace (position : Nat) : ¬ (strayBrace position).Unrecognized := by
  change ¬ "unrecognized input".toList <+: "unmatched '\x7d'".toList
  simp

theorem not_unrecognized_missingColon (position : Nat) (text : String) :
    ¬ (missingColon position text).Unrecognized := by
  change ¬ "unrecognized input".toList <+: ("expected ':' in declaration '" ++ text ++ "'").toList
  rw [String.toList_append, String.toList_append, List.append_assoc]
  simp

theorem not_unrecognized_unclosedBlock : ¬ unclosedBlock.Unrecognized := by
  change ¬ "unrecognized input".toList <+: "expected '\x7d'".toList
  simp

end ParseError

/-- If the opening is wrong, its lexemes were recognized. -/
def Opening.Recognized {limit : Nat} : Opening limit → Prop
  | .wrong e => ¬ e.Unrecognized
  | _ => True

theorem recognized_leafNode {first : Lexeme} {more : List Lexeme} {e : ParseError}
    (h : leafNode first more = .error e) : ¬ e.Unrecognized := by
  unfold leafNode at h
  split at h
  · cases h
  · split at h
    · cases h
    · cases h
      exact ParseError.not_unrecognized_missingColon _ _

theorem recognized_opening (l : Lexeme) (ls : List Lexeme) : (opening l ls).Recognized := by
  unfold opening
  split
  · trivial
  · trivial
  · simp only
    split
    · split
      · next he => exact recognized_leafNode he
      · trivial
    · split
      · trivial
      · split
        · next he => exact recognized_leafNode he
        · split <;> trivial

theorem recognized_statements {e : ParseError}
    (h : (statements ls).rest.map Subtype.val = .error e) : ¬ e.Unrecognized := by
  fun_induction statements ls with
  | case1 => cases h
  | case2 l ls _ ih => exact ih ((Reading.rest_within ..).symm.trans h)
  | case3 l ls _ ih => exact ih ((Reading.rest_within ..).symm.trans h)
  | case4 => cases h
  | case5 l ls e' hopening =>
    cases h
    have hrecognized := recognized_opening l ls
    rwa [hopening] at hrecognized
  | case6 l ls node rest _ _ _ _ ih =>
    rw [Reading.under, Reading.rest_within] at h
    exact ih h
  | case7 l ls node rest _ inner e' hinner _ _ _ ih =>
    cases h
    exact ih (congrArg (Except.map Subtype.val) hinner)
  | case8 =>
    cases h
    exact ParseError.not_unrecognized_unclosedBlock
  | case9 l ls node rest _ inner close after _ _ _ _ _ _ _ ih =>
    rw [Reading.under, Reading.rest_within] at h
    exact ih h

/-- **The first string left open is the error of its text**, and no other error is one of the lexer. -/
theorem parse_unrecognized {text : String} {e : ParseError} :
    (parse text = .error e ∧ e.Unrecognized) ↔
      ∃ l, (openStrings text).head? = some l ∧ e = .unclosedString l.start (.ofList l.text) := by
  rw [parse_eq_error, openStrings, List.head?_filter, read]
  cases hfind : (lexemes text).find? (·.kind == .unclosed) with
  | some l =>
    constructor
    · rintro ⟨he, -⟩
      exact ⟨l, rfl, (Option.some.inj he).symm⟩
    · rintro ⟨_, ⟨⟩, rfl⟩
      exact ⟨rfl, ParseError.unrecognized_unclosedString _ _⟩
  | none =>
    refine iff_of_false ?_ ?_
    · rintro ⟨he, hunrecognized⟩
      cases hrest : (statements (lexemes text)).rest with
      | error e' =>
        simp only [hrest, Option.some.injEq] at he
        exact recognized_statements (congrArg (Except.map Subtype.val) (he ▸ hrest)) hunrecognized
      | ok remaining =>
        obtain ⟨_ | ⟨close, more⟩, hle⟩ := remaining
        · simp only [hrest] at he
          cases he
        · simp only [hrest, Option.some.injEq] at he
          exact ParseError.not_unrecognized_strayBrace _ (he ▸ hunrecognized)
    · rintro ⟨_, hl, -⟩
      cases hl

/-- Nothing of a text is lost in its lexemes. They tile it, and the tokens among them spell it without the
places of the strings left open. The first of these is the error of the text. -/
structure Lossless (text : String) : Prop where
  tiles : Tiles 0 text.utf8ByteSize (lexemes text)
  spelled : spell (lexemes text) = text.toList
  tells : ∀ before l after, lexemes text = before ++ l :: after → l.Tells before after
  kept : spell (tokens text) = ((located 0 text.toList).filter fun p =>
    !(openStrings text).any (·.covers p.1)).map Prod.snd
  refused : ∀ e, (parse text = .error e ∧ e.Unrecognized) ↔
    ∃ l, (openStrings text).head? = some l ∧ e = .unclosedString l.start (.ofList l.text)

/-- **The lexemes of a text tile it, and the errors among them are its strings left open.** -/
theorem lexemes_lossless (text : String) : Lossless text where
  tiles := tiles_lexemes text
  spelled := spell_lexemes text
  tells _ _ _ := tells_of_split
  kept := by
    have hopen : openStrings text = (lexemes text).filter (!·.kind != .unclosed) :=
      List.filter_congr fun l _ => (Bool.not_not _).symm
    have hkept := (placed_lexemesFrom 0 text.toList).spell_filter (·.kind != .unclosed)
    rw [spell_lexemesFrom] at hkept
    rw [hopen]
    exact hkept
  refused _ := parse_unrecognized

/-- What stands on both sides of a string left open does not touch, though both are white space. -/
example : (tokens "a \"b\n").map Lexeme.kind = [.word, .whitespace, .whitespace] := by decide +kernel

end Strata.Css
