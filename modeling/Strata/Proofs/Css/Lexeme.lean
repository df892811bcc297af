import Mathlib.Data.List.Infix
import Strata.Css.Lexeme

/-! Lexemes in other surroundings.

How long a lexeme is depends on what stands behind it, and for most classes that is the next
character only. So a lexeme that was cut from one text is cut from another one too, where what stands
behind it there borders on it (`Borders`, `Fits.change`). A slash is the exception: in front of an
asterisk it needs a text without any end of a comment. -/
namespace Strata.Css

/-! ### Ends of comments -/

/-- No comment ends in the text. -/
def NoCommentEnd (cs : List Char) : Prop := ¬ ['*', '/'] <:+: cs

namespace NoCommentEnd

variable {a b sep cs : List Char} {c : Char}

theorem within (h : NoCommentEnd b) (hab : a <:+: b) : NoCommentEnd a := fun ha => h (ha.trans hab)

theorem cons_iff : NoCommentEnd (c :: cs) ↔
    (c = '*' → cs.head? ≠ some '/') ∧ NoCommentEnd cs := by
  unfold NoCommentEnd
  rw [List.infix_cons_iff, not_or]
  refine and_congr_left fun _ => ?_
  cases cs with
  | nil => simp [List.cons_prefix_cons]
  | cons d ds =>
    simp only [List.cons_prefix_cons, List.nil_prefix, and_true, List.head?_cons, ne_eq,
      Option.some.injEq, not_and]
    exact ⟨fun h hc hd => h hc.symm hd.symm, fun h hc hd => h hc.symm hd.symm⟩

theorem nil : NoCommentEnd [] := by simp [NoCommentEnd]

theorem append (ha : NoCommentEnd a) (hb : NoCommentEnd b)
    (hseam : a.getLast? = some '*' → b.head? ≠ some '/') : NoCommentEnd (a ++ b) := by
  induction a with
  | nil => exact hb
  | cons c a ih =>
    obtain ⟨hc, ha⟩ := cons_iff.mp ha
    rw [List.cons_append, cons_iff]
    cases a with
    | nil => exact ⟨fun heq => hseam (by rw [heq]; rfl), hb⟩
    | cons d a => exact ⟨hc, ih ha fun hlast => hseam (by rw [List.getLast?_cons_cons, hlast])⟩

/-- Between separators without asterisks and slashes. -/
theorem separated (ha : NoCommentEnd a) (hb : NoCommentEnd b)
    (hsep : ∀ c ∈ sep, c ≠ '*' ∧ c ≠ '/') (hne : sep ≠ []) : NoCommentEnd (a ++ (sep ++ b)) := by
  refine ha.append ?_ fun _ => ?_
  · induction sep with
    | nil => exact hb
    | cons c sep ih =>
      rw [List.cons_append, cons_iff]
      refine ⟨fun hc => absurd hc (hsep c (List.mem_cons_self ..)).1, ?_⟩
      by_cases hnil : sep = []
      · rw [hnil]
        exact hb
      · exact ih (fun d hd => hsep d (List.mem_cons_of_mem _ hd)) hnil
  · obtain ⟨c, sep, rfl⟩ := List.exists_cons_of_ne_nil hne
    rw [List.cons_append, List.head?_cons, ne_eq, Option.some.injEq]
    exact (hsep c (List.mem_cons_self ..)).2

end NoCommentEnd

theorem commentExtent?_eq_none {cs : List Char} : commentExtent? cs = none ↔ NoCommentEnd cs := by
  fun_induction commentExtent? cs with
  | case1 => simp [NoCommentEnd.nil]
  | case2 cs => simp [NoCommentEnd, List.infix_cons_iff, List.cons_prefix_cons]
  | case3 c cs hno ih =>
    rw [Option.map_eq_none_iff, ih, NoCommentEnd.cons_iff]
    refine ⟨fun h => ⟨fun hc hhead => ?_, h⟩, fun h => h.2⟩
    obtain ⟨ds, rfl⟩ := List.head?_eq_some_iff.mp hhead
    exact hno ds hc rfl

/-! ### Extents -/

variable {a x y : List Char}

theorem commentExtent?_cons (c : Char) (cs : List Char) : commentExtent? (c :: cs) =
    if c = '*' ∧ cs.head? = some '/' then some 2 else (commentExtent? cs).map (· + 1) := by
  split
  · next h =>
    obtain ⟨rfl, hhead⟩ := h
    obtain ⟨ds, rfl⟩ := List.head?_eq_some_iff.mp hhead
    rfl
  · next h =>
    rw [commentExtent?.eq_3 c cs]
    rintro ds rfl rfl
    exact h ⟨rfl, rfl⟩

/-- A comment is as long in front of any text. -/
theorem commentExtent?_change (h : commentExtent? (a ++ x) = some a.length) (y : List Char) :
    2 ≤ a.length ∧ commentExtent? (a ++ y) = some a.length := by
  induction a with
  | nil =>
    cases x with
    | nil => cases h
    | cons c x =>
      rw [List.nil_append, commentExtent?_cons] at h
      split at h
      · cases h
      · obtain ⟨n, -, hn⟩ := Option.map_eq_some_iff.mp h
        cases hn
  | cons c a ih =>
    rw [List.cons_append, commentExtent?_cons] at h ⊢
    rw [List.length_cons] at h ⊢
    split at h
    · next hend =>
      obtain ⟨rfl, hhead⟩ := hend
      have hone : a.length = 1 := by simpa using (Option.some.inj h).symm
      obtain ⟨d, rfl⟩ := List.length_eq_one_iff.mp hone
      rw [if_pos ⟨rfl, hhead⟩]
      exact ⟨Nat.le_refl _, rfl⟩
    · next hno =>
      obtain ⟨n, hn, hlen⟩ := Option.map_eq_some_iff.mp h
      obtain ⟨hle, hy⟩ := ih (Nat.succ.inj hlen ▸ hn)
      obtain ⟨d, a, rfl⟩ := List.exists_cons_of_ne_nil (List.ne_nil_of_length_pos (Nat.lt_of_lt_of_le
        (by decide) hle))
      have hno : ¬(c = '*' ∧ (d :: a ++ y).head? = some '/') := hno
      rw [hy, if_neg hno]
      exact ⟨Nat.le_succ_of_le hle, rfl⟩

theorem stringExtent?_cons {quote c : Char} (hline : c ≠ '\n') (hslash : c ≠ '\\') (cs : List Char) :
    stringExtent? quote (c :: cs) =
      if c = quote then some 1 else (stringExtent? quote cs).map (· + 1) :=
  stringExtent?.eq_6 quote c cs hline (fun h => absurd h hslash) (fun _ h => absurd h hslash)
    fun _ _ h => absurd h hslash

/-- A character that neither ends the text nor hides another one is no backslash. -/
theorem ne_backslash_of_alone {c : Char} {cs : List Char} (hend : c = '\\' → cs = [] → False)
    (hhidden : ∀ d ds, c = '\\' → cs = d :: ds → False) : c ≠ '\\' := by
  rintro rfl
  cases cs with
  | nil => exact hend rfl rfl
  | cons d ds => exact hhidden d ds rfl rfl

/-- A string is as long in front of any text. -/
theorem stringExtent?_change {quote : Char} (h : stringExtent? quote (a ++ x) = some a.length)
    (y : List Char) : stringExtent? quote (a ++ y) = some a.length := by
  generalize hcs : a ++ x = cs at h
  fun_induction stringExtent? quote cs generalizing a with
  | case1 => cases h
  | case2 => cases h
  | case3 => cases h
  | case4 => cases h
  | case5 d cs hd ih =>
    -- A hidden character belongs to the string with the backslash.
    obtain ⟨n, hn, hlen⟩ := Option.map_eq_some_iff.mp h
    match a, hlen with
    | c :: e :: a, hlen =>
      simp only [List.cons_append, List.cons.injEq] at hcs
      obtain ⟨rfl, rfl, rfl⟩ := hcs
      have hy := ih rfl (by rw [hn]; exact congrArg some (Nat.add_right_cancel hlen))
      rw [List.cons_append, List.cons_append, stringExtent?.eq_5 quote e _ hd, hy]
      rfl
  | case6 cs hline hend _ hhidden =>
    have hslash : quote ≠ '\\' := ne_backslash_of_alone hend hhidden
    match a, h with
    | [c], _ =>
      obtain rfl : c = quote := (List.cons.inj hcs).1
      rw [List.singleton_append, stringExtent?_cons hline hslash, if_pos rfl]
      rfl
  | case7 c cs hline hend _ hhidden hne ih =>
    have hslash : c ≠ '\\' := ne_backslash_of_alone hend hhidden
    obtain ⟨n, hn, hlen⟩ := Option.map_eq_some_iff.mp h
    match a, hlen with
    | e :: a, hlen =>
      simp only [List.cons_append, List.cons.injEq] at hcs
      obtain ⟨rfl, rfl⟩ := hcs
      have hy := ih rfl (by rw [hn]; exact congrArg some (Nat.add_right_cancel hlen))
      rw [List.cons_append, stringExtent?_cons hline hslash, if_neg hne, hy]
      rfl

theorem length_takeWhile_append {p : Char → Bool} :
    ((a ++ x).takeWhile p).length = a.length ↔
      (∀ c ∈ a, p c = true) ∧ ∀ c, x.head? = some c → p c = false := by
  induction a with
  | nil =>
    cases x with
    | nil => simp
    | cons c x => cases hc : p c <;> simp [hc]
  | cons c a ih =>
    cases hc : p c with
    | true => simpa [hc] using ih
    | false => simp [hc]

/-! ### Pieces of a text -/

/-- The characters that are pieces by themselves. -/
def marks : List (Char × LexemeClass) :=
  [('\x7b', .braceOpen), ('\x7d', .braceClose), ('(', .parenOpen), (')', .parenClose),
    (';', .semicolon), (':', .colon)]

/-- The quotes, and the strings between them. -/
def quotes : List (Char × LexemeClass) := [('"', .doubleQuoted), ('\'', .singleQuoted)]

/-- The pieces that a text is cut into, by what stands behind them. An unclosed string is none. -/
inductive Cut : LexemeClass → List Char → List Char → Prop where
  | mark {c kind after} : (c, kind) ∈ marks → Cut kind [c] after
  | slash {after} : (∀ body, after = '*' :: body → NoCommentEnd body) → Cut .slash ['/'] after
  | comment {body after} : commentExtent? (body ++ after) = some body.length →
      Cut .comment ('/' :: '*' :: body) after
  | sign {after} : (∀ c, after.head? = some c → isKeywordStart c = false) → Cut .at ['@'] after
  | atKeyword {c more after} : isKeywordStart c = true → (∀ c ∈ more, isKeywordRest c = true) →
      (∀ c, after.head? = some c → isKeywordRest c = false) →
      Cut .atKeyword ('@' :: c :: more) after
  | string {q kind body after} : (q, kind) ∈ quotes →
      stringExtent? q (body ++ after) = some body.length → Cut kind (q :: body) after
  | whitespace {c more after} : (∀ d ∈ c :: more, Text.isSpace d = true) →
      (∀ d, after.head? = some d → Text.isSpace d = false) → Cut .whitespace (c :: more) after
  | word {c more after} : (∀ d ∈ c :: more, isWordChar d = true) →
      (∀ d, after.head? = some d → isWordChar d = false) → Cut .word (c :: more) after

/-! ### What a character starts -/

section starts

variable {c : Char} {kind : LexemeClass}

theorem extent_mark (h : (c, kind) ∈ marks) (cs : List Char) : extent c cs = (kind, 0) := by
  simp only [marks, List.mem_cons, Prod.mk.injEq, List.not_mem_nil, or_false] at h
  rcases h with ⟨rfl, rfl⟩ | ⟨rfl, rfl⟩ | ⟨rfl, rfl⟩ | ⟨rfl, rfl⟩ | ⟨rfl, rfl⟩ | ⟨rfl, rfl⟩ <;> rfl

theorem extent_quote (h : (c, kind) ∈ quotes) (cs : List Char) : extent c cs =
    match stringExtent? c cs with
    | some n => (kind, n)
    | none => (.unclosed, lineExtent cs) := by
  simp only [quotes, List.mem_cons, Prod.mk.injEq, List.not_mem_nil, or_false] at h
  rcases h with ⟨rfl, rfl⟩ | ⟨rfl, rfl⟩ <;> rfl

theorem extent_space (h : Text.isSpace c = true) (cs : List Char) :
    extent c cs = (.whitespace, (cs.takeWhile Text.isSpace).length) := by
  simp only [Text.isSpace, Bool.or_eq_true, beq_iff_eq] at h
  rcases h with (((rfl | rfl) | rfl) | rfl) | rfl <;> rfl

theorem extent_word (h : isWordChar c = true) (cs : List Char) :
    extent c cs = (.word, (cs.takeWhile isWordChar).length) := by
  simp only [isWordChar, Bool.not_eq_true', Bool.or_eq_false_iff, beq_eq_false_iff_ne] at h
  obtain ⟨⟨⟨⟨⟨⟨⟨⟨⟨⟨h1, h2⟩, h3⟩, h4⟩, h5⟩, h6⟩, h7⟩, h8⟩, h9⟩, h10⟩, h11⟩ := h
  simp only [extent, h1, h2, h3, h4, h5, h6, h7, h8, h9, h10, h11, if_false, decide_false,
    Bool.or_self, Bool.false_eq_true]

/-- A character is a piece, or starts one of some class. -/
theorem start_cases (c : Char) : (∃ kind, (c, kind) ∈ marks) ∨ c = '/' ∨ c = '@' ∨
    (∃ kind, (c, kind) ∈ quotes) ∨ Text.isSpace c = true ∨ isWordChar c = true := by
  by_cases hw : isWordChar c = true
  · simp [hw]
  · simp only [isWordChar, Bool.not_eq_true', Bool.not_eq_false, Bool.or_eq_true, beq_iff_eq] at hw
    simp only [marks, quotes, List.mem_cons, Prod.mk.injEq, List.not_mem_nil, or_false, exists_or,
      exists_eq_right]
    tauto

end starts

theorem extent_slash (cs : List Char) : extent '/' cs =
    match cs with
    | '*' :: body => match commentExtent? body with
      | some n => (.comment, n + 1)
      | none => (.slash, 0)
    | _ => (.slash, 0) := rfl

theorem extent_at (cs : List Char) : extent '@' cs =
    match cs with
    | k :: ks => if isKeywordStart k then (.atKeyword, (ks.takeWhile isKeywordRest).length + 1)
      else (.at, 0)
    | [] => (.at, 0) := rfl

section cut

variable {c : Char} {kind : LexemeClass} {more after : List Char}

theorem cut_of_extent_slash (h : extent '/' (more ++ after) = (kind, more.length)) :
    Cut kind ('/' :: more) after := by
  rw [extent_slash] at h
  split at h
  · next body hbody =>
    split at h
    · next n hn =>
      obtain ⟨rfl, hlen⟩ := Prod.mk.inj h
      cases more with
      | nil => cases hlen
      | cons d more =>
        obtain ⟨rfl, rfl⟩ := List.cons.inj hbody
        exact .comment (hn.trans (congrArg some (Nat.add_right_cancel hlen)))
    · next hnone =>
      obtain ⟨rfl, hlen⟩ := Prod.mk.inj h
      rw [List.length_eq_zero_iff.mp hlen.symm] at hbody ⊢
      refine .slash fun other hother => ?_
      cases hbody.symm.trans hother
      exact commentExtent?_eq_none.mp hnone
  · next hno =>
    obtain ⟨rfl, hlen⟩ := Prod.mk.inj h
    rw [List.length_eq_zero_iff.mp hlen.symm] at hno ⊢
    exact .slash fun body hbody => absurd hbody (hno body)

theorem cut_of_extent_at (h : extent '@' (more ++ after) = (kind, more.length)) :
    Cut kind ('@' :: more) after := by
  rw [extent_at] at h
  split at h
  · next k ks hks =>
    split at h
    · next hk =>
      obtain ⟨rfl, hlen⟩ := Prod.mk.inj h
      cases more with
      | nil => cases hlen
      | cons d more =>
        obtain ⟨rfl, rfl⟩ := List.cons.inj hks
        obtain ⟨hmore, hafter⟩ := length_takeWhile_append.mp (Nat.add_right_cancel hlen)
        exact .atKeyword hk hmore hafter
    · next hk =>
      obtain ⟨rfl, hlen⟩ := Prod.mk.inj h
      rw [List.length_eq_zero_iff.mp hlen.symm, List.nil_append] at hks
      rw [List.length_eq_zero_iff.mp hlen.symm]
      refine .sign fun c hc => ?_
      rw [hks] at hc
      cases hc
      exact Bool.eq_false_iff.mpr hk
  · next hnil =>
    obtain ⟨rfl, hlen⟩ := Prod.mk.inj h
    obtain ⟨rfl, rfl⟩ := List.append_eq_nil_iff.mp hnil
    exact .sign fun c hc => (nomatch hc)

theorem cut_of_extent (h : extent c (more ++ after) = (kind, more.length)) (hkind : kind ≠ .unclosed) :
    Cut kind (c :: more) after := by
  rcases start_cases c with ⟨kind', hc⟩ | rfl | rfl | ⟨kind', hc⟩ | hc | hc
  · rw [extent_mark hc] at h
    obtain ⟨rfl, hlen⟩ := Prod.mk.inj h
    rw [List.length_eq_zero_iff.mp hlen.symm]
    exact .mark hc
  · exact cut_of_extent_slash h
  · exact cut_of_extent_at h
  · rw [extent_quote hc] at h
    split at h
    · next n hn =>
      obtain ⟨rfl, rfl⟩ := Prod.mk.inj h
      exact .string hc hn
    · exact absurd (Prod.mk.inj h).1.symm hkind
  · rw [extent_space hc] at h
    obtain ⟨rfl, hlen⟩ := Prod.mk.inj h
    obtain ⟨hmore, hafter⟩ := length_takeWhile_append.mp hlen
    exact .whitespace (List.forall_mem_cons.mpr ⟨hc, hmore⟩) hafter
  · rw [extent_word hc] at h
    obtain ⟨rfl, hlen⟩ := Prod.mk.inj h
    obtain ⟨hmore, hafter⟩ := length_takeWhile_append.mp hlen
    exact .word (List.forall_mem_cons.mpr ⟨hc, hmore⟩) hafter

theorem extent_of_cut (h : Cut kind (c :: more) after) :
    extent c (more ++ after) = (kind, more.length) := by
  cases h with
  | mark h => exact extent_mark h _
  | slash h =>
    rw [List.nil_append, extent_slash]
    split
    · next body =>
      rw [commentExtent?_eq_none.mpr (h body rfl)]
      rfl
    · rfl
  | @comment body _ h =>
    rw [List.cons_append, extent_slash]
    show (match commentExtent? (body ++ after) with
      | some n => (LexemeClass.comment, n + 1)
      | none => (LexemeClass.slash, 0)) = _
    rw [h]
    rfl
  | sign h =>
    rw [List.nil_append, extent_at]
    cases after with
    | nil => rfl
    | cons k ks => simp [h k rfl]
  | @atKeyword k more _ hk hmore hafter =>
    rw [List.cons_append, extent_at]
    simp only [hk, if_true, length_takeWhile_append.mpr ⟨hmore, hafter⟩]
    rfl
  | string hq h => rw [extent_quote hq, h]
  | whitespace ha hx =>
    obtain ⟨hc, ha⟩ := List.forall_mem_cons.mp ha
    rw [extent_space hc, length_takeWhile_append.mpr ⟨ha, hx⟩]
  | word ha hx =>
    obtain ⟨hc, ha⟩ := List.forall_mem_cons.mp ha
    rw [extent_word hc, length_takeWhile_append.mpr ⟨ha, hx⟩]

end cut

/-! ### Other surroundings -/

/-- What may stand behind a piece of some class. -/
def Borders (after : List Char) : LexemeClass → Prop
  | .slash => ∀ body, after = '*' :: body → NoCommentEnd body
  | .at => ∀ c, after.head? = some c → isKeywordStart c = false
  | .atKeyword => ∀ c, after.head? = some c → isKeywordRest c = false
  | .whitespace => ∀ c, after.head? = some c → Text.isSpace c = false
  | .word => ∀ c, after.head? = some c → isWordChar c = false
  | _ => True

/-- A character that ends every piece but white space. -/
def isBreak (c : Char) : Bool := c == ' ' || c == ';' || c == ':'

/-- A break keeps ends of comments apart. -/
theorem NoCommentEnd.before_break {c : Char} {front after other : List Char}
    (h : NoCommentEnd (front ++ after)) (hc : isBreak c = true)
    (hend : NoCommentEnd after → NoCommentEnd other) : NoCommentEnd (front ++ c :: other) := by
  have hsign : c ≠ '*' ∧ c ≠ '/' := by constructor <;> rintro rfl <;> cases hc
  refine (h.within (List.prefix_append _ _).isInfix).append (cons_iff.mpr ⟨fun heq => ?_, ?_⟩)
    fun _ heq => ?_
  · exact absurd heq hsign.1
  · exact hend (h.within (List.suffix_append _ _).isInfix)
  · exact absurd (Option.some.inj heq) hsign.2

section surroundings

variable {c : Char} {kind : LexemeClass} {text after other : List Char}

theorem borders_of_mark (h : (c, kind) ∈ marks) (after : List Char) : Borders after kind := by
  simp only [marks, List.mem_cons, Prod.mk.injEq, List.not_mem_nil, or_false] at h
  rcases h with ⟨-, rfl⟩ | ⟨-, rfl⟩ | ⟨-, rfl⟩ | ⟨-, rfl⟩ | ⟨-, rfl⟩ | ⟨-, rfl⟩ <;> trivial

theorem borders_of_quote (h : (c, kind) ∈ quotes) (after : List Char) : Borders after kind := by
  simp only [quotes, List.mem_cons, Prod.mk.injEq, List.not_mem_nil, or_false] at h
  rcases h with ⟨-, rfl⟩ | ⟨-, rfl⟩ <;> trivial

theorem Cut.borders (h : Cut kind text after) : Borders after kind := by
  cases h with
  | mark h => exact borders_of_mark h _
  | slash h => exact h
  | comment => trivial
  | sign h => exact h
  | atKeyword _ _ h => exact h
  | string h => exact borders_of_quote h _
  | whitespace _ h => exact h
  | word _ h => exact h

/-- **A piece of one text is a piece of another in which what stands behind it borders on it.** -/
theorem Cut.change (h : Cut kind text after) (hborders : Borders other kind) : Cut kind text other := by
  cases h with
  | mark h => exact .mark h
  | slash => exact .slash hborders
  | comment h => exact .comment (commentExtent?_change h other).2
  | sign => exact .sign hborders
  | atKeyword hc hmore => exact .atKeyword hc hmore hborders
  | string hq h => exact .string hq (stringExtent?_change h other)
  | whitespace h => exact .whitespace h hborders
  | word h => exact .word h hborders

theorem borders_of_break (hc : isBreak c = true) (hkind : kind ≠ .whitespace) (after : List Char) :
    Borders (c :: after) kind := by
  simp only [isBreak, Bool.or_eq_true, beq_iff_eq] at hc
  have hany : ∀ p : Char → Bool, p c = false → ∀ d, (c :: after).head? = some d → p d = false := by
    intro p hp d hd
    cases hd
    exact hp
  cases kind with
  | whitespace => exact absurd rfl hkind
  | slash =>
    rintro body hbody
    obtain ⟨rfl, -⟩ := List.cons.inj hbody
    rcases hc with (hc | hc) | hc <;> cases hc
  | «at» => exact hany _ (by rcases hc with (rfl | rfl) | rfl <;> decide)
  | atKeyword => exact hany _ (by rcases hc with (rfl | rfl) | rfl <;> decide)
  | word => exact hany _ (by rcases hc with (rfl | rfl) | rfl <;> decide)
  | _ => trivial

theorem Borders.change (h : Borders after kind) (hhead : other.head? = after.head?)
    (hend : NoCommentEnd after.tail → NoCommentEnd other.tail) : Borders other kind := by
  cases kind with
  | slash =>
    rintro body rfl
    obtain ⟨before, rfl⟩ := List.head?_eq_some_iff.mp hhead.symm
    exact hend (h before rfl)
  | «at» => exact fun c hc => h c (hhead ▸ hc)
  | atKeyword => exact fun c hc => h c (hhead ▸ hc)
  | whitespace => exact fun c hc => h c (hhead ▸ hc)
  | word => exact fun c hc => h c (hhead ▸ hc)
  | _ => trivial

theorem Cut.ne_nil (h : Cut kind text after) : text ≠ [] := by cases h <;> exact List.cons_ne_nil _ _

end surroundings

/-! ### Rows of pieces -/

/-- The lexemes in a row are what the text in front of `after` is cut into. -/
def Laid : List Lexeme → List Char → Prop
  | [], _ => True
  | l :: ls, after => Cut l.kind l.text (spell ls ++ after) ∧ Laid ls after

section laid

variable {l : Lexeme} {ls ms : List Lexeme} {cs after other : List Char}

theorem spell_cons (l : Lexeme) (ls : List Lexeme) : spell (l :: ls) = l.text ++ spell ls := rfl

theorem spell_append (ls ms : List Lexeme) : spell (ls ++ ms) = spell ls ++ spell ms :=
  List.flatMap_append

theorem laid_append : Laid (ls ++ ms) after ↔ Laid ls (spell ms ++ after) ∧ Laid ms after := by
  induction ls with
  | nil => simp [Laid]
  | cons l ls ih =>
    simp only [List.cons_append, Laid, ih, spell_append, List.append_assoc, and_assoc]

theorem commentExtent?_le {n : Nat} (h : commentExtent? cs = some n) : n ≤ cs.length := by
  fun_induction commentExtent? cs generalizing n with
  | case1 => cases h
  | case2 cs =>
    cases h
    simp
  | case3 c cs _ ih =>
    obtain ⟨m, hm, rfl⟩ := Option.map_eq_some_iff.mp h
    exact Nat.succ_le_succ (ih hm)

theorem stringExtent?_le {quote : Char} {n : Nat} (h : stringExtent? quote cs = some n) :
    n ≤ cs.length := by
  fun_induction stringExtent? quote cs generalizing n with
  | case1 => cases h
  | case2 => cases h
  | case3 => cases h
  | case4 => cases h
  | case5 d cs _ ih =>
    obtain ⟨m, hm, rfl⟩ := Option.map_eq_some_iff.mp h
    exact Nat.succ_le_succ (Nat.succ_le_succ (ih hm))
  | case6 cs =>
    cases h
    simp
  | case7 c cs _ _ _ _ _ ih =>
    obtain ⟨m, hm, rfl⟩ := Option.map_eq_some_iff.mp h
    exact Nat.succ_le_succ (ih hm)

/-- A piece is no longer than the text. -/
theorem extent_le (c : Char) (cs : List Char) : (extent c cs).2 ≤ cs.length := by
  have hwhile : ∀ p, ((cs.takeWhile p).length) ≤ cs.length := fun p =>
    (List.takeWhile_sublist p).length_le
  rcases start_cases c with ⟨kind, hc⟩ | rfl | rfl | ⟨kind, hc⟩ | hc | hc
  · rw [extent_mark hc]
    exact Nat.zero_le _
  · rw [extent_slash]
    split
    · next body =>
      split
      · next n hn => exact Nat.succ_le_succ (commentExtent?_le hn)
      · exact Nat.zero_le _
    · exact Nat.zero_le _
  · rw [extent_at]
    split
    · next k ks =>
      split
      · exact Nat.succ_le_succ (List.takeWhile_sublist _).length_le
      · exact Nat.zero_le _
    · exact Nat.zero_le _
  · rw [extent_quote hc]
    split
    · next n hn => exact stringExtent?_le hn
    · exact hwhile _
  · rw [extent_space hc]
    exact hwhile _
  · rw [extent_word hc]
    exact hwhile _

theorem extent_take (c : Char) (cs : List Char) :
    extent c (cs.take (extent c cs).2 ++ cs.drop (extent c cs).2) =
      ((extent c cs).1, (cs.take (extent c cs).2).length) := by
  rw [List.take_append_drop, List.length_take, Nat.min_eq_left (extent_le c cs)]

/-- A text without unclosed strings is cut into pieces. -/
theorem laid_lexemesFrom (start : Nat) (cs : List Char)
    (hclosed : ∀ l ∈ lexemesFrom start cs, l.kind ≠ .unclosed) : Laid (lexemesFrom start cs) [] := by
  fun_induction lexemesFrom start cs with
  | case1 => trivial
  | case2 start c cs l ih =>
    obtain ⟨hl, hrest⟩ := List.forall_mem_cons.mp hclosed
    refine ⟨cut_of_extent ?_ hl, ih hrest⟩
    rw [List.append_nil, spell_lexemesFrom]
    exact extent_take c cs

/-- A lexeme without its place. -/
def Lexeme.bare (l : Lexeme) : Lexeme := { l with start := 0 }

/-- **Pieces in a row are cut again, whatever place they start at.** -/
theorem Laid.lexemesFrom (h : Laid ls after) (start : Nat) : ∃ ms place,
    lexemesFrom start (spell ls ++ after) = ms ++ Css.lexemesFrom place after ∧
      ms.map Lexeme.bare = ls.map Lexeme.bare := by
  induction ls generalizing start with
  | nil => exact ⟨[], start, rfl, rfl⟩
  | cons l ls ih =>
    obtain ⟨hcut, hlaid⟩ := h
    obtain ⟨kind, text, old⟩ := l
    obtain ⟨c, more, rfl⟩ := List.exists_cons_of_ne_nil hcut.ne_nil
    have hextent := extent_of_cut hcut
    obtain ⟨ms, place, hms, hbare⟩ := ih hlaid (Lexeme.stop ⟨kind, c :: more, start⟩)
    refine ⟨⟨kind, c :: more, start⟩ :: ms, place, ?_, ?_⟩
    · rw [spell_cons, List.append_assoc, List.cons_append, Css.lexemesFrom]
      simp only [hextent, List.take_left, List.drop_left, hms, List.cons_append]
    · rw [List.map_cons, List.map_cons, hbare]
      rfl

/-- **Pieces in a row are pieces in front of another text that starts with a break**, where no comment
ends if none did. -/
theorem Laid.change (h : Laid ls after) (hspace : ∀ l, ls.getLast? = some l → l.kind ≠ .whitespace)
    {c : Char} (hc : isBreak c = true) (hend : NoCommentEnd after → NoCommentEnd other) :
    Laid ls (c :: other) := by
  induction ls with
  | nil => trivial
  | cons l ls ih =>
    obtain ⟨hcut, hlaid⟩ := h
    cases ls with
    | nil => exact ⟨hcut.change (borders_of_break hc (hspace l rfl) other), trivial⟩
    | cons m ls =>
      refine ⟨hcut.change (hcut.borders.change ?_ ?_), ih hlaid fun k hk => hspace k ?_⟩
      · obtain ⟨d, more, hm⟩ := List.exists_cons_of_ne_nil hlaid.1.ne_nil
        rw [spell_cons, hm]
        rfl
      · obtain ⟨d, more, hm⟩ := List.exists_cons_of_ne_nil hlaid.1.ne_nil
        rw [spell_cons, hm]
        intro hno
        exact (NoCommentEnd.before_break hno hc hend : NoCommentEnd ((more ++ spell ls) ++ c :: other))
      · rw [List.getLast?_cons_cons]
        exact hk

end laid

end Strata.Css
