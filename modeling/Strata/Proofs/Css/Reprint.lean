import Strata.Css.Print
import Strata.Proofs.Css.Value

/-! What is printed of a statement.

A statement is printed in other words: its parts with one blank between them, and an end that needs
nothing behind it. Its lexemes have a derivation again, of the same node (`Leaf.exists_printed`,
`Front.exists_printed`). A grove is printed as its statements flow one behind another
(`toList_print`). -/
namespace Strata.Css

variable {c : Char} {kind : LexemeClass} {ls ms : List Lexeme} {text after other : List Char}

/-! ### Rows in print -/

/-- A row of lexemes is printed as another one, in front of `other`. -/
structure Printed (ls ms : List Lexeme) (after other : List Char) : Prop where
  laid : Laid ms other
  quiet : NoCommentEnd (spell ls ++ after) → NoCommentEnd (spell ms ++ other)

theorem NoCommentEnd.broken {a b : List Char} (ha : NoCommentEnd a) (hc : isBreak c = true)
    (hb : NoCommentEnd b) : NoCommentEnd (a ++ c :: b) := by
  have hempty : NoCommentEnd (a ++ []) := by rwa [List.append_nil]
  exact hempty.before_break hc fun _ => hb

theorem NoCommentEnd.spaces {a b : List Char} (ha : ∀ c ∈ a, Text.isSpace c = true)
    (hb : NoCommentEnd b) : NoCommentEnd (a ++ b) := by
  induction a with
  | nil => exact hb
  | cons c a ih =>
    obtain ⟨hc, ha⟩ := List.forall_mem_cons.mp ha
    refine NoCommentEnd.cons_iff.mpr ⟨fun heq => ?_, ih ha⟩
    rw [heq] at hc
    cases hc

theorem Cut.eq_mark (h : Cut kind text after) (hc : (c, kind) ∈ marks) : text = [c] := by
  cases h with
  | mark h =>
    simp only [marks, List.mem_cons, Prod.mk.injEq, List.not_mem_nil, or_false] at h hc
    rcases h with ⟨rfl, rfl⟩ | ⟨rfl, rfl⟩ | ⟨rfl, rfl⟩ | ⟨rfl, rfl⟩ | ⟨rfl, rfl⟩ | ⟨rfl, rfl⟩ <;>
      simp_all
  | string h =>
    simp only [marks, quotes, List.mem_cons, Prod.mk.injEq, List.not_mem_nil, or_false] at h hc
    rcases h with ⟨rfl, rfl⟩ | ⟨rfl, rfl⟩ <;> simp_all
  | _ => simp [marks] at hc

theorem Cut.keyword (h : Cut .atKeyword text after) : text = '@' :: text.drop 1 := by
  cases h with
  | mark h => simp [marks] at h
  | string h => simp [quotes] at h
  | atKeyword => rfl

/-- Parameters as they are printed behind a keyword. -/
def paramsText : List Char → List Char
  | [] => []
  | c :: cs => ' ' :: c :: cs

/-- **The rest of an at-rule is read again from what is printed behind the keyword.** -/
theorem exists_params {keyword : Lexeme} (hkind : keyword.kind = .atKeyword)
    (hlaid : Laid (keyword :: ls) after) (hspaced : Spaced (spell ls)) (hc : isBreak c = true)
    (hend : NoCommentEnd after → NoCommentEnd other) : ∃ ms,
      spell ms = paramsText (Text.trim (spell ls)) ∧ partText ms = partText ls ∧
      (∀ depth, cross endsPrelude depth ms = cross endsPrelude depth ls) ∧
      Printed (keyword :: ls) (keyword :: ms) after (c :: other) := by
  obtain ⟨core, hcore⟩ := exists_core ls
  obtain ⟨hkeyword, hlaid⟩ := hlaid
  have hspell := hcore.spell_eq hlaid hspaced
  have hborders : ∀ {d} (front : List Char), isBreak d = true → Borders (d :: front) keyword.kind :=
    fun front hd => borders_of_break hd (by rw [hkind]; decide) front
  have hparts : NoCommentEnd (spell (keyword :: ls) ++ after) →
      NoCommentEnd keyword.text ∧ NoCommentEnd (spell core) ∧ NoCommentEnd other := by
    intro hno
    rw [spell_cons, List.append_assoc] at hno
    have hls := hno.within (List.suffix_append keyword.text _).isInfix
    exact ⟨hno.within (List.prefix_append _ _).isInfix,
      hls.within (hcore.within.trans (List.prefix_append _ after).isInfix),
      hend (hls.within (List.suffix_append _ after).isInfix)⟩
  have htext : partText core = partText ls := by
    rw [partText, partText, hspell, Text.trim_trim]
  rw [← hspell]
  cases core with
  | nil =>
    refine ⟨[], rfl, htext, hcore.cross_eq rfl, ⟨hkeyword.change (hborders other hc), trivial⟩, ?_⟩
    intro hno
    obtain ⟨hk, -, hother⟩ := hparts hno
    rw [spell_cons, spell, List.flatMap_nil, List.append_nil]
    exact hk.broken hc hother
  | cons m more =>
    have hedge := (hcore.edges hlaid).1
    have hcorelaid := hcore.laid hlaid hc hend
    obtain ⟨d, rest, hrest⟩ := List.exists_cons_of_ne_nil hcorelaid.1.ne_nil
    have hspellcore : spell (m :: more) = d :: (rest ++ spell more) := by
      rw [spell_cons, hrest, List.cons_append]
    refine ⟨gap [' '] :: m :: more, ?_, ?_, fun depth => ?_, ⟨?_, cut_blank fun e he => ?_, hcorelaid⟩,
      fun hno => ?_⟩
    · rw [spell_cons, hspellcore]
      rfl
    · rw [← htext, partText, partText, spell_cons, Text.trim_append_left]
      simp [gap, Text.isBlank]
    · rw [cross_cons rfl]
      exact hcore.cross_eq rfl depth
    · exact hkeyword.change (hborders _ rfl)
    · rw [hspellcore] at he
      cases he
      exact hedge d (by rw [hspellcore]; rfl)
    · obtain ⟨hk, hcore, hother⟩ := hparts hno
      rw [spell_cons, spell_cons, List.append_assoc, List.append_assoc]
      exact hk.broken rfl (hcore.broken hc hother)

/-! ### Statements in print -/

theorem toList_header_atRule (name params : List Char) (block : Bool) :
    (header (.atRule (.ofList name) (.ofList params) block)).toList =
      '@' :: (name ++ paramsText params) := by
  cases params with
  | nil => simp [header, paramsText]
  | cons c cs =>
    have hne : (String.ofList (c :: cs)).isEmpty = false := Bool.eq_false_iff.mpr fun hempty => by
      simpa using congrArg String.toList (String.isEmpty_iff.mp hempty)
    simp only [header, hne, Bool.false_eq_true, if_false, String.toList_append, String.toList_ofList]
    rfl

theorem toList_header_declaration (property value : List Char) (important : Bool) :
    (header (.declaration (.ofList property) (.ofList value) important)).toList =
      property ++ ':' :: valueText value important := by
  cases important <;> simp [header, valueText, markText]

theorem Core.nil_of_nil {core : List Lexeme} (h : Core [] core) : core = [] := by
  obtain ⟨⟨lead, trail, hsplit, -, -⟩, -, -⟩ := h
  obtain ⟨-, hcore⟩ := List.append_eq_nil_iff.mp hsplit.symm
  exact (List.append_eq_nil_iff.mp hcore).1

/-- A qualified prelude without the white space at its ends is one. -/
theorem Core.qualified {core more : List Lexeme} {p : Prelude} (hp : p.Qualified)
    {before : List Lexeme} (hsplit : p.lexemes = before ++ more) (h : Core before core) :
    ∀ l, core.head? = some l → startsQualified l.kind = true := by
  intro l hl
  cases before with
  | nil =>
    rw [h.nil_of_nil] at hl
    cases hl
  | cons first before =>
    have hfirst := hp first (by rw [hsplit]; rfl)
    obtain ⟨rest, rfl⟩ := h.eq_cons fun hkind => by
      rw [hkind] at hfirst
      cases hfirst
    cases hl
    exact hfirst

/-- So is one that goes on with a colon. -/
theorem Core.qualified_colon {core more ms : List Lexeme} {p : Prelude} (hp : p.Qualified)
    {before : List Lexeme} (hsplit : p.lexemes = before ++ more) (h : Core before core) {colon : Lexeme}
    (hcolon : colon.kind = .colon) :
    ∀ l, (core ++ colon :: ms).head? = some l → startsQualified l.kind = true := by
  intro l hl
  cases core with
  | nil =>
    cases hl
    rw [hcolon]
    rfl
  | cons m core =>
    cases hl
    exact h.qualified hp hsplit l rfl

section leaf

variable (s : Leaf) (hlaid : Laid s.lexemes after) (hspaced : Spaced (spell s.lexemes))
  (hend : NoCommentEnd after → NoCommentEnd other)
include hlaid hspaced hend

/-- **A statement without a block is read again from its header and a semicolon.** -/
theorem Leaf.exists_printed : ∃ s' : Leaf, s'.depth = s.depth ∧ s'.node = s.node ∧
    spell s'.lexemes = (header s.node.form).toList ∧
    Printed s.lexemes s'.lexemes after (';' :: other) := by
  cases s with
  | atRule keyword hkeyword p =>
    have hparams : Spaced (spell p.lexemes) :=
      hspaced.within (List.suffix_append keyword.text _).isInfix
    obtain ⟨ms, hms, htext, hcross, hprinted⟩ := exists_params (c := ';') hkeyword hlaid hparams rfl hend
    refine ⟨.atRule keyword hkeyword ⟨ms, p.depth, (hcross 0).trans p.uncut⟩, rfl, ?_, ?_, hprinted⟩
    · rw [Leaf.node, Leaf.node, htext]
    · have hname := (hkeyword ▸ hlaid.1 : Cut .atKeyword keyword.text _).keyword
      rw [Leaf.node, Node.atRule, partText, toList_header_atRule, ← hms, Leaf.lexemes, spell_cons,
        hname]
      rfl
  | declaration p hp before colon value hcolon hsplit hfirst =>
    replace hlaid : Laid p.lexemes after := hlaid
    replace hspaced : Spaced (spell p.lexemes) := hspaced
    rw [hsplit] at hlaid hspaced
    obtain ⟨hbefore, hcut, hvalue⟩ := laid_append.mp hlaid
    obtain ⟨core, hcore⟩ := exists_core before
    rw [spell_append] at hspaced
    have hcoretext := hcore.spell_eq hbefore (hspaced.within (List.prefix_append _ _).isInfix)
    obtain ⟨ms, hms, hrevalued⟩ := exists_value hvalue
      (hspaced.within ((List.suffix_append colon.text _).trans (List.suffix_append _ _)).isInfix) hend
    have hmark : colon.text = [':'] := (hcolon ▸ hcut : Cut .colon colon.text _).eq_mark (by decide)
    have hbehind : NoCommentEnd (spell (colon :: value) ++ after) →
        NoCommentEnd (spell ms ++ ';' :: other) := fun hno => hrevalued.quiet
      (hno.within (by rw [spell_cons, List.append_assoc]; exact (List.suffix_append _ _).isInfix))
    have huncut : cross endsPrelude 0 (core ++ colon :: ms) = some p.depth := by
      rw [← p.uncut, hsplit, cross_append, cross_append, hcore.cross_eq rfl]
      refine congrArg (Option.bind _) (funext fun depth => ?_)
      rw [cross_cons (by rw [hcolon]; rfl), cross_cons (by rw [hcolon]; rfl), hrevalued.depth]
    have hqualified : Prelude.Qualified ⟨core ++ colon :: ms, p.depth, huncut⟩ :=
      hcore.qualified_colon hp hsplit hcolon
    refine ⟨.declaration ⟨core ++ colon :: ms, p.depth, huncut⟩ hqualified core colon ms hcolon rfl
      ((hcore.cross_eq rfl 0).trans hfirst), rfl, ?_, ?_, ?_, fun hno => ?_⟩
    · rw [Leaf.node, Leaf.node, hrevalued.value, partText, hcoretext, Text.trim_trim]
      rfl
    · rw [Leaf.node, Node.declaration, partText, toList_header_declaration, Leaf.lexemes, spell_append,
        spell_cons, hmark, hcoretext, hms]
      rfl
    · refine laid_append.mpr ⟨?_, ?_, hrevalued.laid⟩
      · rw [spell_cons, hmark]
        exact hcore.laid hbefore rfl hbehind
      · rw [hmark, hcolon]
        exact .mark (by decide)
    · replace hno : NoCommentEnd (spell p.lexemes ++ after) := hno
      rw [hsplit, spell_append, List.append_assoc] at hno
      show NoCommentEnd (spell (core ++ colon :: ms) ++ ';' :: other)
      rw [spell_append, spell_cons, hmark, List.append_assoc]
      exact (hno.within (hcore.within.trans (List.prefix_append _ _).isInfix)).broken rfl
        (hbehind (hno.within (List.suffix_append _ _).isInfix))

end leaf

/-- One blank behind a row is in front of what starts with none. -/
theorem laid_gap (h : Laid ms (' ' :: other))
    (hother : ∀ c, other.head? = some c → Text.isSpace c = false) : Laid (ms ++ [gap [' ']]) other :=
  laid_append.mpr ⟨h, cut_blank hother, trivial⟩

theorem cross_gap (ms : List Lexeme) (depth : Nat) :
    cross endsPrelude depth (ms ++ [gap [' ']]) = cross endsPrelude depth ms := by
  rw [cross_append]
  cases cross endsPrelude depth ms with
  | none => rfl
  | some last => exact cross_cons rfl last []

theorem partText_gap (ms : List Lexeme) : partText (ms ++ [gap [' ']]) = partText ms := by
  rw [partText, partText, spell_append, Text.trim_append_right]
  simp [gap, spell, Text.isBlank]

/-- **A statement with a block is read again up to the block from its header and a blank.** The blank
may be all there is, and stands in front of the statement then. -/
theorem Front.exists_printed (s : Front) (hlaid : Laid s.lexemes after)
    (hspaced : Spaced (spell s.lexemes)) (hend : NoCommentEnd after → NoCommentEnd other)
    (hother : ∀ c, other.head? = some c → Text.isSpace c = false) :
    ∃ (s' : Front) (blanks : List Char), (∀ c ∈ blanks, Text.isSpace c = true) ∧ s'.node = s.node ∧
      blanks ++ spell s'.lexemes = (header s.node.form).toList ++ [' '] ∧
      Printed s.lexemes s'.lexemes after other := by
  cases s with
  | atRule keyword hkeyword p hp =>
    have hparams : Spaced (spell p.lexemes) :=
      hspaced.within (List.suffix_append keyword.text _).isInfix
    obtain ⟨ms, hms, htext, hcross, hprinted⟩ := exists_params (c := ' ') hkeyword hlaid hparams rfl hend
    have huncut := (cross_gap ms 0).trans ((hcross 0).trans p.uncut)
    refine ⟨.atRule keyword hkeyword ⟨ms ++ [gap [' ']], p.depth, huncut⟩ hp, [], by simp, ?_, ?_,
      laid_gap hprinted.laid hother, fun hno => ?_⟩
    · rw [Front.node, Front.node, partText_gap, htext]
    · have hname := (hkeyword ▸ hlaid.1 : Cut .atKeyword keyword.text _).keyword
      rw [Front.node, Node.blockAtRule, partText, toList_header_atRule, ← hms, Front.lexemes,
        spell_cons, spell_append, hname]
      simp [gap, spell]
    · have hquiet := hprinted.quiet hno
      rw [Front.lexemes, ← List.cons_append, spell_append, List.append_assoc]
      exact hquiet
  | rule p hqualified hp =>
    replace hlaid : Laid p.lexemes after := hlaid
    replace hspaced : Spaced (spell p.lexemes) := hspaced
    obtain ⟨core, hcore⟩ := exists_core p.lexemes
    have hspell := hcore.spell_eq hlaid hspaced
    have hquiet : NoCommentEnd (spell p.lexemes ++ after) →
        NoCommentEnd (spell core ++ ' ' :: other) := fun hno =>
      (hno.within (hcore.within.trans (List.prefix_append _ after).isInfix)).broken rfl
        (hend (hno.within (List.suffix_append _ after).isInfix))
    have hheader : (header (Front.rule p hqualified hp).node.form).toList = spell core := by
      rw [hspell, Front.node, Node.rule, header, partText, String.toList_ofList]
    rw [hheader]
    cases core with
    | nil =>
      refine ⟨.rule ⟨[], 0, rfl⟩ (fun l hl => by cases hl) rfl, [' '], by simp [Text.isSpace], ?_, rfl,
        trivial, fun hno => (hquiet hno).within (List.suffix_cons _ _).isInfix⟩
      show Node.rule (partText []) = Node.rule (partText p.lexemes)
      rw [partText, partText, ← hspell]
      rfl
    | cons m more =>
      have huncut := (cross_gap (m :: more) 0).trans ((hcore.cross_eq rfl 0).trans p.uncut)
      have hfirst : Prelude.Qualified ⟨m :: more ++ [gap [' ']], p.depth, huncut⟩ := by
        rintro l ⟨⟩
        exact hcore.qualified hqualified (List.append_nil _).symm m rfl
      refine ⟨.rule ⟨m :: more ++ [gap [' ']], p.depth, huncut⟩ hfirst hp, [], by simp, ?_, ?_,
        laid_gap (hcore.laid hlaid rfl hend) hother, fun hno => ?_⟩
      · rw [Front.node, Front.node, partText_gap, partText, partText, hspell, Text.trim_trim]
      · rw [Front.lexemes, spell_append]
        rfl
      · rw [Front.lexemes, spell_append, List.append_assoc]
        exact hquiet hno

theorem Cut.comment_text (h : Cut .comment text after) :
    ∃ inner, text = '/' :: '*' :: (inner ++ ['*', '/']) := by
  cases h with
  | mark h => simp [marks] at h
  | string h => simp [quotes] at h
  | comment h =>
    obtain ⟨inner, rfl⟩ := suffix_of_commentExtent? h
    exact ⟨inner, rfl⟩

theorem toList_header_comment {l : Lexeme} (h : Cut .comment l.text after) :
    (header (Node.comment (commentText l)).form).toList = l.text := by
  obtain ⟨inner, htext⟩ := h.comment_text
  simp [header, Node.comment, commentText, htext]

/-! ### Groves in print -/

/-- A new line of statements. -/
def newLine (depth : Nat) : List Char := '\n' :: (indentation depth).toList

theorem newLine_space (depth : Nat) : ∀ c ∈ newLine depth, Text.isSpace c = true := by
  refine List.forall_mem_cons.mpr ⟨rfl, fun c hc => ?_⟩
  rw [indentation, String.toList_join] at hc
  obtain ⟨line, hline, hc⟩ := List.mem_flatMap.mp hc
  rw [List.eq_of_mem_replicate hline] at hc
  have hblank : ∀ c ∈ "  ".toList, Text.isSpace c = true := List.all_eq_true.mp rfl
  exact hblank c hc

/-- A statement in print, from what its block holds in print. The top of a sheet has none. -/
def statementText (form : NodeForm) (sheet block : List Char) : List Char :=
  match form with
  | .root => sheet
  | .atRule _ _ true | .rule _ => (header form).toList ++ ' ' :: '\x7b' :: (block ++ ['\x7d'])
  | .atRule _ _ false | .declaration .. => (header form).toList ++ [';']
  | .comment _ => (header form).toList

theorem Leaf.statementText_node (s : Leaf) (sheet block : List Char) :
    statementText s.node.form sheet block = (header s.node.form).toList ++ [';'] := by cases s <;> rfl

theorem Front.statementText_node (s : Front) (sheet block : List Char) :
    statementText s.node.form sheet block =
      (header s.node.form).toList ++ ' ' :: '\x7b' :: (block ++ ['\x7d']) := by cases s <;> rfl

/-- What a block holds in print, nothing when it is empty. -/
def blockText (lines : List Char) : Grove Node → List Char
  | .nil => []
  | .cons .. => lines

/-- The statements of a grove in print: `lead` is in front of the first of them, and `trail` behind the
last. -/
def flow (lead : List Char) (depth : Nat) (trail : List Char) : Grove Node → List Char
  | .nil => trail
  | .cons top below rest =>
    lead ++ (statementText top.form (printAt depth below).toList
      (blockText (flow (newLine (depth + 1)) (depth + 1) (newLine depth) below) below) ++
        flow (newLine depth) depth trail rest)

theorem flow_newLine (depth : Nat) (trail : List Char) {g : Grove Node} (h : g ≠ .nil) :
    flow (newLine depth) depth trail g = '\n' :: flow (indentation depth).toList depth trail g := by
  cases g with
  | nil => exact absurd rfl h
  | cons top below rest => rfl

/-- A block in print behind its header, from what it holds in print. -/
theorem toList_block (depth : Nat) (below : Grove Node) (line : String) :
    (below ≠ .nil → (printAt (depth + 1) below).toList ++ newLine depth =
      flow (indentation (depth + 1)).toList (depth + 1) (newLine depth) below) →
    (line ++ " " ++ match below with
      | .nil => "\x7b\x7d"
      | .cons .. => "\x7b\n" ++ printAt (depth + 1) below ++ "\n" ++ indentation depth ++ "\x7d" :
        String).toList = line.toList ++ ' ' :: '\x7b' :: (blockText
          (flow (newLine (depth + 1)) (depth + 1) (newLine depth) below) below ++ ['\x7d']) := by
  intro h
  cases below with
  | nil => simp [blockText]
  | cons top below rest =>
    rw [blockText, flow_newLine _ _ (by simp), ← h (by simp)]
    simp [newLine]

/-- A line in print, and the lines behind it. -/
theorem toList_lines (depth : Nat) (trail : List Char) (rest : Grove Node) (line : String) :
    (rest ≠ .nil → (printAt depth rest).toList ++ trail =
      flow (indentation depth).toList depth trail rest) →
    (match rest with
      | .nil => line
      | .cons .. => line ++ "\n" ++ printAt depth rest : String).toList ++ trail =
        line.toList ++ flow (newLine depth) depth trail rest := by
  intro h
  cases rest with
  | nil => rfl
  | cons top below rest =>
    rw [flow_newLine _ _ (by simp), ← h (by simp)]
    simp

/-- Printing is what flows behind the indentation. -/
theorem toList_printAt (depth : Nat) (trail : List Char) {g : Grove Node} (h : g ≠ .nil) :
    (printAt depth g).toList ++ trail = flow (indentation depth).toList depth trail g := by
  induction g generalizing depth trail with
  | nil => exact absurd rfl h
  | cons top below rest ihbelow ihrest =>
    have hblock := fun line => toList_block depth below line (ihbelow (depth + 1) (newLine depth))
    unfold printAt
    refine (toList_lines depth trail rest _ (ihrest depth trail)).trans ?_
    rw [String.toList_append, List.append_assoc, flow]
    congr 2
    rcases top with ⟨form, span, origin⟩
    cases form with
    | root => rfl
    | atRule name params block =>
      cases block with
      | false => simp [statementText]
      | true => exact hblock _
    | rule selector => exact hblock _
    | declaration => simp [statementText]
    | comment => simp [statementText]

theorem toList_print (g : Grove Node) : (print g).toList = flow [] 0 [] g := by
  cases g with
  | nil => rfl
  | cons top below rest =>
    exact (List.append_nil _).symm.trans (toList_printAt 0 [] (by simp))

end Strata.Css
