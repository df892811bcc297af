import Strata.Proofs.Css.Reprint

/-! Printing and reading are inverse.

The derivation of a text is printed item by item, from the end: each statement gets a derivation in front
of what is printed already (`Items.exists_shown`). Lexemes differ from those that are cut again by their
places only, and so do the trees (`Replaces.exists_items`). A text that is read is then read again from
what is printed of it (`parse_print`). -/
namespace Strata

/-- The grove with every label changed. -/
def Grove.map {α β : Type} (f : α → β) : Grove α → Grove β
  | .nil => .nil
  | .cons top below rest => .cons (f top) (below.map f) (rest.map f)

/-- A node without its place. -/
def Node.unspanned (n : Node) : Node := { n with span := none }

namespace Css

variable {nested : Bool} {ls ms : List Lexeme} {before text after other : List Char}

/-- The trees without their places. -/
def unplaced (g : Grove Node) : Grove Node := g.map Node.unspanned

theorem unplaced_cons (top : Node) (below rest : Grove Node) :
    unplaced (.cons top below rest) = .cons top.unspanned (unplaced below) (unplaced rest) := rfl

/-- Places are not printed. -/
theorem printAt_unplaced (depth : Nat) (g : Grove Node) :
    printAt depth (unplaced g) = printAt depth g := by
  induction g generalizing depth with
  | nil => rfl
  | cons top below rest ihbelow ihrest =>
    rw [unplaced_cons]
    unfold printAt
    rw [ihbelow, ihbelow, ihrest]
    cases below <;> cases rest <;> rfl

theorem cross_flat {stops : LexemeClass → Bool} {depth : Nat} (h : ∀ l ∈ ls, l.kind ≠ .parenOpen)
    (hcross : cross stops 0 ls = some depth) : depth = 0 := by
  induction ls with
  | nil => exact (Option.some.inj hcross).symm
  | cons l ls ih =>
    obtain ⟨hl, hls⟩ := List.forall_mem_cons.mp h
    rw [cross] at hcross
    split at hcross
    · cases hcross
    · have hdepth : depthAfter 0 l.kind = 0 := by
        cases hkind : l.kind with
        | parenOpen => exact absurd hkind hl
        | _ => rfl
      exact ih hls (hdepth ▸ hcross)

namespace Items

/-- No parenthesis is open where the last statement ends with the text. -/
def Balanced {nested : Bool} : Items nested → Prop
  | done => True
  | blank _ _ rest => rest.Balanced
  | comment _ _ rest => rest.Balanced
  | leaf _ _ _ _ rest => rest.Balanced
  | last s _ => s.depth = 0
  | block _ _ _ _ _ _ rest => rest.Balanced

/-- In a block, the last statement leaves none. -/
theorem balanced_of_nested (d : Items nested) (h : nested = true) : d.Balanced := by
  induction d with
  | done => trivial
  | last s closed => exact closed h
  | blank _ _ _ ih => exact ih h
  | comment _ _ _ ih => exact ih h
  | leaf _ _ _ _ _ ih => exact ih h
  | block _ _ _ _ _ _ _ _ ih => exact ih h

/-- A text that opens none leaves none open. -/
theorem balanced_of_flat (d : Items nested) (h : ∀ l ∈ d.lexemes, l.kind ≠ .parenOpen) :
    d.Balanced := by
  induction d with
  | done => trivial
  | blank l _ rest ih => exact ih fun m hm => h m (List.mem_cons_of_mem _ hm)
  | comment l _ rest ih => exact ih fun m hm => h m (List.mem_cons_of_mem _ hm)
  | leaf s _ e _ rest ih =>
    exact ih fun m hm => h m (List.mem_append_right _ (List.mem_cons_of_mem _ hm))
  | last s _ =>
    obtain ⟨first, more, hcons, -, huncut, -⟩ := s.parts
    rw [← hcons] at huncut
    exact cross_flat h huncut
  | block s o _ below c _ rest _ ih =>
    exact ih fun m hm => h m (List.mem_append_right _ (List.mem_cons_of_mem _
      (List.mem_append_right _ (List.mem_cons_of_mem _ hm))))

theorem covering_form (n : Node) (ls : List Lexeme) : (covering n ls).form = n.form := by
  cases ls <;> rfl

theorem unplaced_covering (n : Node) (ls : List Lexeme) (below rest : Grove Node) :
    unplaced (.cons (covering n ls) below rest) =
      .cons n.unspanned (unplaced below) (unplaced rest) := by
  cases ls <;> rfl

/-- Items in front of `other` that have this text and, but for the places, these trees. No comment ends
in the text if none did in `before`. -/
structure Shown (d : Items nested) (text : List Char) (g : Grove Node) (before other : List Char) :
    Prop where
  spelled : spell d.lexemes = text
  trees : unplaced d.trees = unplaced g
  laid : Laid d.lexemes other
  quiet : NoCommentEnd before → NoCommentEnd (text ++ other)

section shown

variable {d rest : Items nested} {g : Grove Node} {blanks behind : List Char}

/-- White space in front of items that start with something else. -/
theorem Shown.lead (h : d.Shown text g before other) (hblanks : ∀ c ∈ blanks, Text.isSpace c = true)
    (hfirst : ∀ c, (text ++ other).head? = some c → Text.isSpace c = false) :
    ∃ d' : Items nested, d'.Shown (blanks ++ text) g before other := by
  cases blanks with
  | nil => exact ⟨d, h⟩
  | cons c blanks =>
    refine ⟨.blank (gap (c :: blanks)) (Or.inl rfl) d, ?_, h.trees, ⟨?_, h.laid⟩, fun hno => ?_⟩
    · rw [lexemes, spell_cons, h.spelled]
      rfl
    · rw [h.spelled]
      exact cut_gap hblanks (List.cons_ne_nil _ _) hfirst
    · rw [List.append_assoc]
      exact NoCommentEnd.spaces hblanks (h.quiet hno)

/-- White space alone. -/
theorem exists_blanks (hblanks : ∀ c ∈ blanks, Text.isSpace c = true)
    (hother : ∀ c, other.head? = some c → Text.isSpace c = false)
    (hend : NoCommentEnd before → NoCommentEnd other) :
    ∃ d : Items nested, d.Shown blanks .nil before other := by
  have hdone : (done : Items nested).Shown [] .nil before other := ⟨rfl, rfl, trivial, hend⟩
  obtain ⟨d, hd⟩ := hdone.lead hblanks hother
  exact ⟨d, List.append_nil blanks ▸ hd⟩

/-- A row in front of a text starts as its first lexeme does. -/
theorem first_of_starts {first : Lexeme} {more : List Lexeme} (hls : ls = first :: more)
    (hstart : startsPrelude first.kind = true) (hlaid : Laid ls after) :
    ∀ c, (spell ls ++ after).head? = some c → Text.isSpace c = false := by
  subst hls
  have hkind : first.kind ≠ .whitespace := by
    intro hkind
    rw [hkind] at hstart
    cases hstart
  obtain ⟨d, rest, hrest⟩ := List.exists_cons_of_ne_nil hlaid.1.ne_nil
  intro c hc
  refine (hlaid.1.edges hkind).1 c ?_
  rw [spell_cons, hrest] at hc
  rw [hrest]
  exact hc

/-- A block in print holds nothing when it is empty. -/
theorem exists_inside (h : ∃ d : Items nested, d.Shown text g before other)
    (hend : NoCommentEnd before → NoCommentEnd other) :
    ∃ d : Items nested, d.Shown (blockText text g) g before other := by
  cases g with
  | nil => exact ⟨.done, rfl, rfl, trivial, hend⟩
  | cons top inner more => exact h

variable (hblanks : ∀ c ∈ blanks, Text.isSpace c = true) (hrest : rest.Shown text g behind other)
include hblanks hrest

/-- A comment in print, in front of what is. -/
theorem exists_comment {l : Lexeme} (hkind : l.kind = .comment) (hcut : Cut l.kind l.text after) :
    ∃ d : Items nested, d.Shown
      (blanks ++ ((header (Node.comment (commentText l)).form).toList ++ text))
      (.cons (covering (.comment (commentText l)) [l]) .nil g) (l.text ++ after) other := by
  rw [hkind] at hcut
  obtain ⟨inner, htext⟩ := hcut.comment_text
  rw [toList_header_comment hcut]
  have hshown : (Items.comment l hkind rest).Shown (l.text ++ text)
      (.cons (covering (.comment (commentText l)) [l]) .nil g) (l.text ++ after) other := by
    refine ⟨?_, ?_, ⟨?_, hrest.laid⟩, fun hno => absurd ?_ hno⟩
    · rw [lexemes, spell_cons, hrest.spelled]
    · rw [trees, unplaced_cons, unplaced_cons, hrest.trees]
    · rw [hkind]
      exact hcut.change trivial
    · rw [htext]
      exact ⟨'/' :: '*' :: inner, after, by simp⟩
  refine hshown.lead hblanks fun c hc => ?_
  rw [htext] at hc
  cases hc
  rfl

/-- A statement without a block in print, in front of what is. -/
theorem exists_leaf {s : Leaf} (hdepth : s.depth = 0) (hlaid : Laid s.lexemes after)
    (hspaced : Spaced (spell s.lexemes)) (hend : NoCommentEnd after → NoCommentEnd (text ++ other))
    (ls : List Lexeme) : ∃ d : Items nested,
    d.Shown (blanks ++ ((header s.node.form).toList ++ [';'] ++ text)) (.cons (covering s.node ls) .nil g)
      (spell s.lexemes ++ after) other := by
  obtain ⟨s', hdepth', hnode, hspell, hprinted⟩ := s.exists_printed hlaid hspaced hend
  obtain ⟨first, more, hfirst, hstart, -, -⟩ := s'.parts
  have hshown : (Items.leaf s' (hdepth'.trans hdepth) ⟨.semicolon, [';'], 0⟩ rfl rest).Shown
      ((header s.node.form).toList ++ [';'] ++ text) (.cons (covering s.node ls) .nil g)
      (spell s.lexemes ++ after) other := by
    refine ⟨?_, ?_, laid_append.mpr ⟨?_, .mark (by decide), hrest.laid⟩, fun hno => ?_⟩
    · rw [lexemes, spell_append, spell_cons, hrest.spelled, hspell, List.append_assoc]
    · rw [trees, unplaced_covering, unplaced_covering, hrest.trees, hnode]
    · rw [spell_cons, hrest.spelled]
      exact hprinted.laid
    · have hquiet := hprinted.quiet hno
      rw [hspell] at hquiet
      simpa using hquiet
  refine hshown.lead hblanks fun c hc => first_of_starts hfirst hstart hprinted.laid c ?_
  rw [hspell]
  simpa using hc

/-- A statement with a block in print, in front of what is. -/
theorem exists_block {s : Front} {below : Items true} {inside : List Char} {inner : Grove Node}
    (hbelow : below.Shown inside inner before ('\x7d' :: (text ++ other)))
    (hlaid : Laid s.lexemes after) (hspaced : Spaced (spell s.lexemes))
    (hend : NoCommentEnd after → NoCommentEnd (inside ++ '\x7d' :: (text ++ other)))
    (ls : List Lexeme) : ∃ d : Items nested,
    d.Shown (blanks ++ ((header s.node.form).toList ++ ' ' :: '\x7b' :: (inside ++ ['\x7d']) ++ text))
      (.cons (covering s.node ls) inner g) (spell s.lexemes ++ after) other := by
  have hbrace : NoCommentEnd after →
      NoCommentEnd ('\x7b' :: (inside ++ '\x7d' :: (text ++ other))) := fun hno =>
    NoCommentEnd.cons_iff.mpr ⟨by simp, hend hno⟩
  obtain ⟨s', spaces, hspaces, hnode, hspell, hprinted⟩ :=
    s.exists_printed hlaid hspaced hbrace fun c hc => by cases hc; rfl
  have hshown : (Items.block s' ⟨.braceOpen, ['\x7b'], 0⟩ rfl below ⟨.braceClose, ['\x7d'], 0⟩ rfl
      rest).Shown (spell s'.lexemes ++ '\x7b' :: (inside ++ '\x7d' :: text))
      (.cons (covering s.node ls) inner g) (spell s.lexemes ++ after) other := by
    refine ⟨?_, ?_, laid_append.mpr ⟨?_, .mark (by decide), laid_append.mpr ⟨?_, .mark (by decide),
      hrest.laid⟩⟩, fun hno => ?_⟩
    · rw [lexemes, spell_append, spell_cons, spell_append, spell_cons, hrest.spelled, hbelow.spelled]
      rfl
    · rw [trees, unplaced_covering, unplaced_covering, hrest.trees, hbelow.trees, hnode]
    · rw [spell_cons, spell_append, spell_cons, hrest.spelled, hbelow.spelled]
      simpa using hprinted.laid
    · rw [spell_cons, hrest.spelled]
      exact hbelow.laid
    · simpa using hprinted.quiet hno
  have hfirst : ∀ c, (spell s'.lexemes ++ '\x7b' :: (inside ++ '\x7d' :: text) ++ other).head? =
      some c → Text.isSpace c = false := by
    intro c hc
    rcases s'.parts with ⟨hnil, -⟩ | ⟨first, more, hfirst, hstart, -⟩
    · rw [hnil] at hc
      cases hc
      rfl
    · exact first_of_starts hfirst hstart hprinted.laid c (by simpa using hc)
  have hlead : ∀ c ∈ blanks ++ spaces, Text.isSpace c = true := fun c hc =>
    (List.mem_append.mp hc).elim (hblanks c) (hspaces c)
  obtain ⟨d, hd⟩ := hshown.lead hlead hfirst
  refine ⟨d, ?_⟩
  have htext : blanks ++ spaces ++ (spell s'.lexemes ++ '\x7b' :: (inside ++ '\x7d' :: text)) =
      blanks ++ ((header s.node.form).toList ++ ' ' :: '\x7b' :: (inside ++ ['\x7d']) ++ text) := by
    have hspell := congrArg (blanks ++ · ++ '\x7b' :: (inside ++ '\x7d' :: text)) hspell
    simpa using hspell
  rwa [htext] at hd

end shown

/-- **What a derivation prints has a derivation, with the same trees.** -/
theorem exists_shown (d : Items nested) (hlaid : Laid d.lexemes after)
    (hspaced : Spaced (spell d.lexemes)) (hbalanced : d.Balanced)
    (hother : ∀ c, other.head? = some c → Text.isSpace c = false)
    (hend : NoCommentEnd after → NoCommentEnd other) (depth : Nat) {lead trail : List Char}
    (hlead : ∀ c ∈ lead, Text.isSpace c = true) (htrail : ∀ c ∈ trail, Text.isSpace c = true) :
    ∃ d' : Items nested,
      d'.Shown (flow lead depth trail d.trees) d.trees (spell d.lexemes ++ after) other := by
  -- What is behind a statement is printed first: the statement is then cut in front of it.
  induction d generalizing after other depth lead trail with
  | done => exact exists_blanks htrail hother hend
  | blank l hl rest ih =>
    rw [lexemes, spell_cons] at hspaced ⊢
    obtain ⟨d', hd⟩ := ih hlaid.2 (spaced_append.mp hspaced).2 hbalanced hother hend depth hlead htrail
    refine ⟨d', hd.spelled, hd.trees, hd.laid, fun hno => hd.quiet (hno.within ?_)⟩
    rw [List.append_assoc]
    exact (List.suffix_append _ _).isInfix
  | comment l hl rest ih =>
    obtain ⟨hcut, hlaid⟩ := hlaid
    rw [lexemes, spell_cons] at hspaced ⊢
    obtain ⟨rest', hrest⟩ := ih hlaid (spaced_append.mp hspaced).2 hbalanced hother hend depth
      (newLine_space depth) htrail
    obtain ⟨d', hd⟩ := exists_comment hlead hrest hl hcut
    rw [List.append_assoc, trees, flow, covering_form]
    exact ⟨d', hd⟩
  | leaf s hs e he rest ih =>
    obtain ⟨hleaf, hcut, hlaid⟩ := laid_append.mp hlaid
    have hmark : e.text = [';'] := (he ▸ hcut : Cut .semicolon e.text _).eq_mark (by decide)
    rw [lexemes, spell_append, spell_cons, hmark] at hspaced ⊢
    rw [spell_cons, hmark] at hleaf
    obtain ⟨hsspaced, hspaced⟩ := spaced_append.mp hspaced
    obtain ⟨rest', hrest⟩ := ih hlaid (spaced_append.mp hspaced).2 hbalanced hother hend depth
      (newLine_space depth) htrail
    obtain ⟨d', hd⟩ := exists_leaf hlead hrest hs hleaf hsspaced
      (fun hno => hrest.quiet (hno.within (List.suffix_cons _ _).isInfix)) (s.lexemes ++ [e])
    rw [List.append_assoc, trees, flow, covering_form, s.statementText_node]
    exact ⟨d', hd⟩
  | last s hs =>
    obtain ⟨rest', hrest⟩ := exists_blanks htrail hother hend
    obtain ⟨d', hd⟩ := exists_leaf hlead hrest hbalanced hlaid hspaced hrest.quiet s.lexemes
    rw [lexemes, trees, flow, covering_form, s.statementText_node]
    exact ⟨d', hd⟩
  | block s o ho below c hc rest ihbelow ih =>
    obtain ⟨hfront, hopen, hlaid⟩ := laid_append.mp hlaid
    obtain ⟨hbelow, hclose, hlaid⟩ := laid_append.mp hlaid
    have ho : o.text = ['\x7b'] := (ho ▸ hopen : Cut .braceOpen o.text _).eq_mark (by decide)
    have hc : c.text = ['\x7d'] := (hc ▸ hclose : Cut .braceClose c.text _).eq_mark (by decide)
    rw [lexemes, spell_append, spell_cons, spell_append, spell_cons, ho, hc] at hspaced ⊢
    rw [spell_cons, spell_append, spell_cons, ho, hc] at hfront
    rw [spell_cons, hc] at hbelow
    obtain ⟨hsspaced, hspaced⟩ := spaced_append.mp hspaced
    obtain ⟨hinside, hspaced⟩ := spaced_append.mp (spaced_append.mp hspaced).2
    obtain ⟨rest', hrest⟩ := ih hlaid (spaced_append.mp hspaced).2 hbalanced hother hend depth
      (newLine_space depth) htrail
    have hbrace : NoCommentEnd (['\x7d'] ++ spell rest.lexemes ++ after) →
        NoCommentEnd ('\x7d' :: (flow (newLine depth) depth trail rest.trees ++ other)) := fun hno =>
      NoCommentEnd.cons_iff.mpr ⟨by simp, hrest.quiet (hno.within (List.suffix_cons _ _).isInfix)⟩
    have hlines := ihbelow hbelow hinside (below.balanced_of_nested rfl) (fun c hc => by cases hc; rfl)
      hbrace (depth + 1) (newLine_space (depth + 1)) (newLine_space depth)
    obtain ⟨below', hshown⟩ := exists_inside hlines fun hno =>
      hbrace (hno.within (List.suffix_append _ _).isInfix)
    obtain ⟨d', hd⟩ := exists_block hlead hrest hshown hfront hsspaced
      (fun hno => hshown.quiet (hno.within ⟨['\x7b'], [], by simp⟩))
      (s.lexemes ++ o :: (below.lexemes ++ [c]))
    rw [List.append_assoc, trees, flow, covering_form, s.statementText_node]
    exact ⟨d', hd⟩

end Items

/-! ### Other places -/

section places

variable {l : Lexeme} {a b : List Lexeme}

theorem spell_congr (h : ms.map Lexeme.bare = ls.map Lexeme.bare) : spell ms = spell ls := by
  have hbare : ∀ ls : List Lexeme, spell (ls.map Lexeme.bare) = spell ls := fun ls =>
    List.flatMap_map ..
  rw [← hbare, h, hbare]

theorem exists_bare_cons (h : ms.map Lexeme.bare = (l :: ls).map Lexeme.bare) :
    ∃ m more, ms = m :: more ∧ m.kind = l.kind ∧ m.text = l.text ∧
      more.map Lexeme.bare = ls.map Lexeme.bare := by
  obtain ⟨m, more, rfl, hm, hmore⟩ := List.map_eq_cons_iff.mp (h.trans List.map_cons)
  have hkind : m.bare.kind = l.bare.kind := by rw [hm]
  have htext : m.bare.text = l.bare.text := by rw [hm]
  exact ⟨m, more, rfl, hkind, htext, hmore⟩

theorem exists_bare_append (h : ms.map Lexeme.bare = (a ++ b).map Lexeme.bare) :
    ∃ a' b', ms = a' ++ b' ∧ a'.map Lexeme.bare = a.map Lexeme.bare ∧
      b'.map Lexeme.bare = b.map Lexeme.bare :=
  List.map_eq_append_iff.mp (h.trans List.map_append)

/-- A prelude of lexemes at other places. -/
theorem Prelude.exists_replaced (p : Prelude) (h : ms.map Lexeme.bare = p.lexemes.map Lexeme.bare) :
    ∃ q : Prelude, q.lexemes = ms ∧ q.depth = p.depth ∧ (p.Qualified → q.Qualified) := by
  refine ⟨⟨ms, p.depth, (cross_congr endsPrelude 0 h).trans p.uncut⟩, rfl, rfl, fun hp m hm => ?_⟩
  obtain ⟨more, rfl⟩ : ∃ more, ms = m :: more := List.head?_eq_some_iff.mp hm
  cases hls : p.lexemes with
  | nil =>
    rw [hls] at h
    cases h
  | cons l ls =>
    rw [hls] at h
    obtain ⟨_, _, ⟨⟩, hkind, -, -⟩ := exists_bare_cons h
    rw [hkind]
    exact hp l (by rw [hls]; rfl)

theorem Leaf.exists_replaced (s : Leaf) (h : ms.map Lexeme.bare = s.lexemes.map Lexeme.bare) :
    ∃ s' : Leaf, s'.lexemes = ms ∧ s'.depth = s.depth ∧ s'.node = s.node := by
  cases s with
  | atRule keyword hkeyword p =>
    obtain ⟨m, more, rfl, hkind, htext, hmore⟩ := exists_bare_cons h
    obtain ⟨q, rfl, hdepth, -⟩ := p.exists_replaced hmore
    refine ⟨.atRule m (hkind.trans hkeyword) q, rfl, hdepth, ?_⟩
    rw [node, node, htext, partText, partText, spell_congr hmore]
  | declaration p hp before colon after hcolon hsplit hfirst =>
    obtain ⟨q, hq, hdepth, hqualified⟩ := p.exists_replaced h
    replace h : ms.map Lexeme.bare = p.lexemes.map Lexeme.bare := h
    rw [hsplit] at h
    obtain ⟨before', more, rfl, hbefore, hmore⟩ := exists_bare_append h
    obtain ⟨m, after', rfl, hkind, -, hafter⟩ := exists_bare_cons hmore
    refine ⟨.declaration q (hqualified hp) before' m after' (hkind.trans hcolon) hq
      ((cross_congr _ 0 hbefore).trans hfirst), hq, hdepth, ?_⟩
    rw [node, node, partText, partText, spell_congr hbefore, spell_congr hafter]

theorem Front.exists_replaced (s : Front) (h : ms.map Lexeme.bare = s.lexemes.map Lexeme.bare) :
    ∃ s' : Front, s'.lexemes = ms ∧ s'.node = s.node := by
  cases s with
  | atRule keyword hkeyword p hp =>
    obtain ⟨m, more, rfl, hkind, htext, hmore⟩ := exists_bare_cons h
    obtain ⟨q, rfl, hdepth, -⟩ := p.exists_replaced hmore
    refine ⟨.atRule m (hkind.trans hkeyword) q (hdepth.trans hp), rfl, ?_⟩
    rw [node, node, htext, partText, partText, spell_congr hmore]
  | rule p hqualified hp =>
    replace h : ms.map Lexeme.bare = p.lexemes.map Lexeme.bare := h
    obtain ⟨q, rfl, hdepth, hq⟩ := p.exists_replaced h
    refine ⟨.rule q (hq hqualified) (hdepth.trans hp), rfl, ?_⟩
    rw [node, node, partText, partText, spell_congr h]

/-- Rows that agree under `f` and `g` differ in places only, and so do nodes that cover them, which agree
under `onNodes` and `onNodes'`. -/
structure Replaces (f g : Lexeme → Lexeme) (onNodes onNodes' : Node → Node) : Prop where
  bare : ∀ m l, f m = g l → m.bare = l.bare
  covering : ∀ n ms ls, ls ≠ [] → ms.map f = ls.map g →
    onNodes (Items.covering n ms) = onNodes' (Items.covering n ls)

theorem replaces_bare : Replaces Lexeme.bare Lexeme.bare Node.unspanned Node.unspanned where
  bare _ _ h := h
  covering n ms ls _ _ := by
    have hplain : ∀ row, (Items.covering n row).unspanned = n.unspanned := fun row => by
      cases row <;> rfl
    rw [hplain, hplain]

namespace Replaces

variable {f g : Lexeme → Lexeme} {onNodes onNodes' : Node → Node} (hr : Replaces f g onNodes onNodes')
include hr

theorem map_bare (h : ms.map f = ls.map g) : ms.map Lexeme.bare = ls.map Lexeme.bare := by
  induction ls generalizing ms with
  | nil => rw [List.map_eq_nil_iff.mp h]
  | cons l ls ih =>
    obtain ⟨m, more, rfl, hm, hmore⟩ := List.map_eq_cons_iff.mp (h.trans List.map_cons)
    rw [List.map_cons, List.map_cons, hr.bare m l hm, ih hmore]

theorem exists_cons (h : ms.map f = (l :: ls).map g) : ∃ m more, ms = m :: more ∧ f m = g l ∧
    m.kind = l.kind ∧ m.text = l.text ∧ more.map f = ls.map g := by
  obtain ⟨m, more, rfl, hm, hmore⟩ := List.map_eq_cons_iff.mp (h.trans List.map_cons)
  have hbare := hr.bare m l hm
  have hkind : m.bare.kind = l.bare.kind := by rw [hbare]
  have htext : m.bare.text = l.bare.text := by rw [hbare]
  exact ⟨m, more, rfl, hm, hkind, htext, hmore⟩

/-- A derivation of lexemes at other places. -/
theorem exists_items (d : Items nested) (h : ms.map f = d.lexemes.map g) :
    ∃ d' : Items nested, d'.lexemes = ms ∧ d'.trees.map onNodes = d.trees.map onNodes' := by
  have hsplit : ∀ {a b : List Lexeme} {ms : List Lexeme}, ms.map f = (a ++ b).map g → ∃ a' b',
      ms = a' ++ b' ∧ a'.map f = a.map g ∧ b'.map f = b.map g := fun h =>
    List.map_eq_append_iff.mp (h.trans List.map_append)
  induction d generalizing ms with
  | done => exact ⟨.done, (List.map_eq_nil_iff.mp h).symm, rfl⟩
  | blank l hl rest ih =>
    obtain ⟨m, more, rfl, -, hkind, -, hmore⟩ := hr.exists_cons h
    obtain ⟨rest', rfl, htrees⟩ := ih hmore
    exact ⟨.blank m (hkind ▸ hl) rest', rfl, htrees⟩
  | comment l hl rest ih =>
    obtain ⟨m, more, rfl, hm, hkind, htext, hmore⟩ := hr.exists_cons h
    obtain ⟨rest', rfl, htrees⟩ := ih hmore
    refine ⟨.comment m (hkind.trans hl) rest', rfl, ?_⟩
    have hnode := hr.covering (.comment (commentText l)) [m] [l] (List.cons_ne_nil _ _)
      (congrArg (· :: []) hm)
    rw [commentText, ← htext] at hnode
    simp only [Items.trees, Grove.map, commentText, htrees, ← htext, hnode]
  | leaf s hs e he rest ih =>
    obtain ⟨front, tail, rfl, hfront, htail⟩ := hsplit h
    obtain ⟨m, more, rfl, hm, hkind, -, hmore⟩ := hr.exists_cons htail
    obtain ⟨s', rfl, hdepth, hnode⟩ := s.exists_replaced (hr.map_bare hfront)
    obtain ⟨rest', rfl, htrees⟩ := ih hmore
    refine ⟨.leaf s' (hdepth.trans hs) m (hkind.trans he) rest', rfl, ?_⟩
    have hcover := hr.covering s.node (s'.lexemes ++ [m]) (s.lexemes ++ [e]) (by simp)
      (by simp [hfront, hm])
    simp only [Items.trees, Grove.map, htrees, hnode, hcover]
  | last s hs =>
    obtain ⟨s', rfl, hdepth, hnode⟩ := s.exists_replaced (hr.map_bare h)
    refine ⟨.last s' fun hnested => hdepth.trans (hs hnested), rfl, ?_⟩
    obtain ⟨first, more, hcons, -⟩ := s.parts
    have hcover := hr.covering s.node s'.lexemes s.lexemes (by simp [hcons]) h
    simp only [Items.trees, Grove.map, hnode, hcover]
  | block s o ho below c hc rest ihbelow ih =>
    obtain ⟨front, tail, rfl, hfront, hblock⟩ := hsplit h
    obtain ⟨o', inside, rfl, hopened, hopen, -, hinside⟩ := hr.exists_cons hblock
    obtain ⟨inner, behind, rfl, hinner, hbehind⟩ := hsplit hinside
    obtain ⟨c', more, rfl, hclosed, hclose, -, hmore⟩ := hr.exists_cons hbehind
    obtain ⟨s', rfl, hnode⟩ := s.exists_replaced (hr.map_bare hfront)
    obtain ⟨below', rfl, hbelow⟩ := ihbelow hinner
    obtain ⟨rest', rfl, hrest⟩ := ih hmore
    refine ⟨.block s' o' (hopen.trans ho) below' c' (hclose.trans hc) rest', rfl, ?_⟩
    have hcover := hr.covering s.node (s'.lexemes ++ o' :: (below'.lexemes ++ [c']))
      (s.lexemes ++ o :: (below.lexemes ++ [c])) (by simp) (by simp [hfront, hopened, hinner, hclosed])
    simp only [Items.trees, Grove.map, hbelow, hrest, hnode, hcover]

end Replaces

end places

/-! ### Texts -/

theorem print_unplaced (g : Grove Node) : print (unplaced g) = print g := printAt_unplaced 0 g

theorem Cut.closed {kind : LexemeClass} (h : Cut kind text after) : kind ≠ .unclosed := by
  rintro rfl
  cases h with
  | mark h => simp [marks] at h
  | string h => simp [quotes] at h

theorem Laid.closed (h : Laid ls after) : ∀ l ∈ ls, l.kind ≠ .unclosed := by
  induction ls with
  | nil => exact fun l hl => nomatch hl
  | cons l ls ih => exact List.forall_mem_cons.mpr ⟨h.1.closed, ih h.2⟩

theorem Laid.closed_of_bare (h : Laid ls after) (hbare : ms.map Lexeme.bare = ls.map Lexeme.bare) :
    ∀ m ∈ ms, m.kind ≠ .unclosed := by
  intro m hm
  have hmem : m.bare ∈ ls.map Lexeme.bare := hbare ▸ List.mem_map_of_mem hm
  obtain ⟨l, hl, heq⟩ := List.mem_map.mp hmem
  have hkind : l.bare.kind = m.bare.kind := by rw [heq]
  exact hkind ▸ h.closed l hl

/-- A row of pieces is what its text is cut into, but for the places. -/
theorem Laid.lexemes {text : String} (h : Laid ls []) (htext : text.toList = spell ls) :
    (lexemes text).map Lexeme.bare = ls.map Lexeme.bare := by
  obtain ⟨ms, place, hms, hbare⟩ := h.lexemesFrom 0
  rw [List.append_nil, Css.lexemesFrom, List.append_nil] at hms
  rw [Css.lexemes, htext, hms, hbare]

/-- **What is printed of a text is read again as the same trees.** The only blanks of the text are white
space, and its last statement leaves no parenthesis open. -/
theorem parse_print {text : String} {g : Grove Node} (hparse : parse text = .ok g)
    (hspaced : Spaced text.toList)
    (hbalanced : ∀ d : Items false, d.lexemes = lexemes text → d.Balanced) :
    ∃ g', parse (print g) = .ok g' ∧ unplaced g' = unplaced g ∧ print g' = print g := by
  obtain ⟨d, hd, rfl⟩ := exists_derivation hparse
  have hlaid : Laid d.lexemes [] := by
    rw [hd]
    exact laid_lexemesFrom 0 _ (closed_of_parse hparse)
  have htext : spell d.lexemes = text.toList := by
    rw [hd]
    exact spell_lexemesFrom 0 _
  have hnone : ∀ c ∈ ([] : List Char), Text.isSpace c = true := fun c hc => nomatch hc
  have hend : ∀ c, ([] : List Char).head? = some c → Text.isSpace c = false := fun c hc => nomatch hc
  obtain ⟨shown, hshown⟩ := d.exists_shown hlaid (htext ▸ hspaced) (hbalanced d hd) hend id 0 hnone hnone
  have hbare : (lexemes (print d.trees)).map Lexeme.bare = shown.lexemes.map Lexeme.bare :=
    hshown.laid.lexemes (by rw [hshown.spelled, toList_print])
  obtain ⟨again, hagain, htrees⟩ := replaces_bare.exists_items shown hbare
  have hunplaced : unplaced again.trees = unplaced d.trees := htrees.trans hshown.trees
  refine ⟨again.trees, parse_of_derivation (hshown.laid.closed_of_bare hbare) hagain, hunplaced, ?_⟩
  rw [← print_unplaced, hunplaced, print_unplaced]

/-- A block without a last semicolon, and a mark in the middle of a word. -/
theorem print_read_again : ∃ g g', parse "a\x7bb:c!important\x7d" = .ok g ∧
    print g = "a \x7b\n  b: c !important;\n\x7d" ∧ parse (print g) = .ok g' ∧
    unplaced g' = unplaced g := by
  have hread : (parse "a\x7bb:c!important\x7d").map print =
      .ok "a \x7b\n  b: c !important;\n\x7d" := by decide +kernel
  have hspaced : Spaced "a\x7bb:c!important\x7d".toList := by simp [Spaced, Text.isBlank]
  have hflat : ∀ l ∈ lexemes "a\x7bb:c!important\x7d", l.kind ≠ .parenOpen := by decide +kernel
  cases hparse : parse "a\x7bb:c!important\x7d" with
  | error e =>
    rw [hparse] at hread
    cases hread
  | ok g =>
    rw [hparse] at hread
    obtain ⟨g', hg', hsame, -⟩ := parse_print hparse hspaced fun d hd => d.balanced_of_flat (hd ▸ hflat)
    exact ⟨g, g', rfl, Except.ok.inj hread, hg', hsame⟩

end Css

end Strata
