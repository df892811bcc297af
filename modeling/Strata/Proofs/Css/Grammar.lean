import Strata.Proofs.Css.Lexeme
import Strata.Proofs.Css.Statement

/-! The grammar of statements.

`Items` are the derivations: what stands in a sheet or in a block, one statement behind another, each
with the lexemes that it takes. A derivation denotes trees, and every node there covers the lexemes of
its statement. Reading a row of lexemes succeeds exactly when they have a derivation, and gives what it
denotes (`statements_items`, `exists_items`); no row has two (`Items.eq_of_lexemes`). So `parse`
accepts the texts that are derived, and no other (`parse_derived`). -/
namespace Strata.Css

/-! ### Preludes -/

/-- The depth behind lexemes none of which is, outside parentheses, of a class to stop at. -/
def cross (stops : LexemeClass → Bool) (depth : Nat) : List Lexeme → Option Nat
  | [] => some depth
  | l :: ls =>
    if depth = 0 ∧ stops l.kind = true then none else cross stops (depthAfter depth l.kind) ls

section prelude

variable {stops : LexemeClass → Bool} {depth last : Nat} {e : Lexeme}
  {body rest before after ls : List Lexeme}

theorem cross_cons {l : Lexeme} (h : stops l.kind = false) (depth : Nat) (ls : List Lexeme) :
    cross stops depth (l :: ls) = cross stops (depthAfter depth l.kind) ls := by
  rw [cross, if_neg (by simp [h])]

theorem cross_append (stops : LexemeClass → Bool) (depth : Nat) (ls ms : List Lexeme) :
    cross stops depth (ls ++ ms) = (cross stops depth ls).bind (cross stops · ms) := by
  fun_induction cross stops depth ls with
  | case1 => rfl
  | case2 depth l ls h => rw [List.cons_append, cross, if_pos h]; rfl
  | case3 depth l ls h ih => rw [List.cons_append, cross, if_neg h, ih]

/-- The places of lexemes do not matter. -/
theorem cross_congr {ms : List Lexeme} (stops : LexemeClass → Bool) (depth : Nat)
    (h : ms.map Lexeme.bare = ls.map Lexeme.bare) : cross stops depth ms = cross stops depth ls := by
  induction ls generalizing ms depth with
  | nil => rw [List.map_eq_nil_iff.mp h]
  | cons l ls ih =>
    obtain ⟨m, ms, rfl, hm, hms⟩ := List.map_eq_cons_iff.mp (h.trans List.map_cons)
    have hkind : m.bare.kind = l.bare.kind := by rw [hm]
    replace hkind : m.kind = l.kind := hkind
    rw [cross, cross, hkind, ih _ hms]

theorem kind_of_endsPrelude {kind : LexemeClass} (h : endsPrelude kind = true)
    (hopen : kind ≠ .braceOpen) (hsemicolon : kind ≠ .semicolon) : kind = .braceClose := by
  cases kind with
  | braceClose => rfl
  | braceOpen => exact absurd rfl hopen
  | semicolon => exact absurd rfl hsemicolon
  | _ => cases h

theorem splitPrelude_of_cross (h : cross endsPrelude depth body = some last)
    (hrest : ∀ e more, rest = e :: more → last = 0 ∧ endsPrelude e.kind = true) :
    splitPrelude depth (body ++ rest) = (body, rest) := by
  fun_induction cross endsPrelude depth body with
  | case1 =>
    cases h
    cases rest with
    | nil => rfl
    | cons e more =>
      rw [List.nil_append, splitPrelude, if_pos (hrest e more rfl)]
  | case2 => cases h
  | case3 depth l ls hno ih =>
    rw [List.cons_append, splitPrelude, if_neg hno, ih h]

theorem cross_splitPrelude (depth : Nat) (ls : List Lexeme) :
    ∃ last, cross endsPrelude depth (splitPrelude depth ls).1 = some last ∧
      ∀ e more, (splitPrelude depth ls).2 = e :: more → last = 0 ∧ endsPrelude e.kind = true := by
  fun_induction splitPrelude depth ls with
  | case1 depth =>
    refine ⟨depth, rfl, fun e more hcons => ?_⟩
    cases hcons
  | case2 depth l ls h =>
    refine ⟨depth, rfl, fun e more hcons => ?_⟩
    cases hcons
    exact h
  | case3 depth l ls h body rest heq ih =>
    obtain ⟨last, hcross, hrest⟩ := ih
    rw [heq] at hcross hrest
    exact ⟨last, by rw [cross, if_neg h, hcross], hrest⟩

theorem splitColon?_eq_some : splitColon? depth ls = some (before, after) ↔
    ∃ c : Lexeme, ls = before ++ c :: after ∧ c.kind = .colon ∧
      cross (· == .colon) depth before = some 0 := by
  fun_induction splitColon? depth ls generalizing before with
  | case1 => simp
  | case2 depth l ls h =>
    obtain ⟨rfl, hkind⟩ := h
    constructor
    · intro heq
      cases heq
      exact ⟨l, rfl, hkind, rfl⟩
    · rintro ⟨c, heq, hc, hcross⟩
      cases before with
      | nil => cases heq; rfl
      | cons b before =>
        cases heq
        rw [cross, if_pos ⟨rfl, by simp [hkind]⟩] at hcross
        cases hcross
  | case3 depth l ls h ih =>
    have hstop : ¬(depth = 0 ∧ (l.kind == .colon) = true) := by simpa using h
    constructor
    · intro heq
      obtain ⟨⟨body, rest⟩, hbody, heq⟩ := Option.map_eq_some_iff.mp heq
      cases heq
      obtain ⟨c, rfl, hc, hcross⟩ := ih.mp hbody
      exact ⟨c, rfl, hc, by rw [cross, if_neg hstop, hcross]⟩
    · rintro ⟨c, heq, hc, hcross⟩
      cases before with
      | nil =>
        cases heq
        cases hcross
        exact absurd ⟨rfl, hc⟩ h
      | cons b before =>
        cases heq
        rw [cross, if_neg hstop] at hcross
        rw [ih.mpr ⟨c, rfl, hc, hcross⟩]
        rfl

end prelude

/-! ### Derivations -/

/-- The lexemes up to the end of a prelude: none of them is a brace or a semicolon outside parentheses.
Behind them `depth` parentheses are open. -/
structure Prelude where
  lexemes : List Lexeme
  depth : Nat
  uncut : cross endsPrelude 0 lexemes = some depth

/-- What a rule and a declaration may start with, as far as its own class goes. -/
def startsQualified : LexemeClass → Bool
  | .whitespace | .comment | .atKeyword | .semicolon => false
  | _ => true

/-- The prelude of a rule or of a declaration. -/
def Prelude.Qualified (p : Prelude) : Prop :=
  ∀ l, p.lexemes.head? = some l → startsQualified l.kind = true

/-- A statement without a block, up to what ends it. -/
inductive Leaf where
  | atRule (keyword : Lexeme) (isKeyword : keyword.kind = .atKeyword) (p : Prelude)
  /-- The property is what stands before the first colon outside parentheses. -/
  | declaration (p : Prelude) (qualified : p.Qualified) (before : List Lexeme) (colon : Lexeme)
    (after : List Lexeme) (isColon : colon.kind = .colon)
    (split : p.lexemes = before ++ colon :: after) (first : cross (· == .colon) 0 before = some 0)

/-- A statement with a block, up to the block. -/
inductive Front where
  | atRule (keyword : Lexeme) (isKeyword : keyword.kind = .atKeyword) (p : Prelude)
    (closed : p.depth = 0)
  | rule (p : Prelude) (qualified : p.Qualified) (closed : p.depth = 0)

namespace Leaf

def lexemes : Leaf → List Lexeme
  | atRule keyword _ p => keyword :: p.lexemes
  | declaration p .. => p.lexemes

/-- The parentheses that are open behind the statement. -/
def depth : Leaf → Nat
  | atRule _ _ p => p.depth
  | declaration p .. => p.depth

def node : Leaf → Node
  | atRule keyword _ p => .atRule (.ofList (keyword.text.drop 1)) (partText p.lexemes)
  | declaration _ _ before _ after .. =>
    .declaration (partText before) (.ofList (cutImportant (Text.trim (spell after))).1)
      (cutImportant (Text.trim (spell after))).2

end Leaf

namespace Front

def lexemes : Front → List Lexeme
  | atRule keyword _ p _ => keyword :: p.lexemes
  | rule p .. => p.lexemes

def node : Front → Node
  | atRule keyword _ p _ => .blockAtRule (.ofList (keyword.text.drop 1)) (partText p.lexemes)
  | rule p .. => .rule (partText p.lexemes)

end Front

/-- What stands in a block or, not nested, in a sheet. -/
inductive Items : (nested : Bool) → Type where
  | done {nested} : Items nested
  | blank {nested} (l : Lexeme) (isBlank : l.kind = .whitespace ∨ l.kind = .semicolon)
    (rest : Items nested) : Items nested
  | comment {nested} (l : Lexeme) (isComment : l.kind = .comment) (rest : Items nested) :
    Items nested
  | leaf {nested} (s : Leaf) (closed : s.depth = 0) (e : Lexeme) (isEnd : e.kind = .semicolon)
    (rest : Items nested) : Items nested
  /-- A statement that ends with its block or with the text. In a block its prelude does, so no
  parenthesis is open. -/
  | last {nested} (s : Leaf) (closed : nested = true → s.depth = 0) : Items nested
  | block {nested} (s : Front) (o : Lexeme) (isOpen : o.kind = .braceOpen) (below : Items true)
    (c : Lexeme) (isClose : c.kind = .braceClose) (rest : Items nested) : Items nested

namespace Items

variable {nested : Bool}

/-- The row that is derived. -/
def lexemes {nested : Bool} : Items nested → List Lexeme
  | done => []
  | blank l _ rest => l :: rest.lexemes
  | comment l _ rest => l :: rest.lexemes
  | leaf s _ e _ rest => s.lexemes ++ e :: rest.lexemes
  | last s _ => s.lexemes
  | block s o _ below c _ rest => s.lexemes ++ o :: (below.lexemes ++ c :: rest.lexemes)

/-- The node from the first of some lexemes to the last. -/
def covering (n : Node) : List Lexeme → Node
  | [] => n
  | first :: more => n.spanning first.start (stopOf first more)

/-- What is denoted. -/
def trees {nested : Bool} : Items nested → Grove Node
  | done => .nil
  | blank _ _ rest => rest.trees
  | comment l _ rest => .cons (covering (.comment (commentText l)) [l]) .nil rest.trees
  | leaf s _ e _ rest => .cons (covering s.node (s.lexemes ++ [e])) .nil rest.trees
  | last s _ => .cons (covering s.node s.lexemes) .nil .nil
  | block s o _ below c _ rest =>
    .cons (covering s.node (s.lexemes ++ o :: (below.lexemes ++ [c]))) below.trees rest.trees

end Items

/-- What follows some items: the end of the text, or the brace that closes their block. -/
inductive Follows : (nested : Bool) → List Lexeme → Prop where
  | text : Follows false []
  | brace {c : Lexeme} {ls : List Lexeme} : c.kind = .braceClose → Follows true (c :: ls)

/-! ### Statements of a derivation -/

/-- The classes that a statement other than a comment or a bare block starts with. -/
def startsPrelude : LexemeClass → Bool
  | .comment | .braceOpen | .whitespace | .semicolon | .braceClose => false
  | _ => true

theorem endsPrelude_of_startsPrelude {kind : LexemeClass} (h : startsPrelude kind = true) :
    endsPrelude kind = false := by
  cases kind <;> first | rfl | cases h

theorem startsPrelude_cases {kind : LexemeClass} (hspace : kind ≠ .whitespace)
    (hsemicolon : kind ≠ .semicolon) (hclose : kind ≠ .braceClose) :
    kind = .comment ∨ kind = .braceOpen ∨ startsPrelude kind = true := by
  cases kind <;> simp_all [startsPrelude]

theorem startsPrelude_of_qualified {kind : LexemeClass} (h : startsQualified kind = true)
    (hno : endsPrelude kind = false) : startsPrelude kind = true ∧ kind ≠ .atKeyword := by
  cases kind <;> simp_all [startsQualified, startsPrelude, endsPrelude]

theorem startsQualified_of_startsPrelude {kind : LexemeClass} (h : startsPrelude kind = true)
    (hkeyword : kind ≠ .atKeyword) : startsQualified kind = true := by
  cases kind <;> simp_all [startsQualified, startsPrelude]

section parts

variable {first : Lexeme} {more : List Lexeme} {depth : Nat} {node : Node}

/-- A prelude does not start with what would end it. -/
theorem endsPrelude_first (h : cross endsPrelude 0 (first :: more) = some depth) :
    endsPrelude first.kind = false := by
  rw [cross] at h
  split at h
  · cases h
  · next hno => simpa using hno

theorem Prelude.eq_of_lexemes {p q : Prelude} (h : p.lexemes = q.lexemes) : p = q := by
  obtain ⟨ls, depth, hp⟩ := p
  obtain ⟨ms, depth', hq⟩ := q
  cases h
  cases hp.symm.trans hq
  rfl

/-- The first lexeme of a qualified prelude. -/
theorem Prelude.Qualified.starts {p : Prelude} (h : p.Qualified) (hp : p.lexemes = first :: more) :
    startsPrelude first.kind = true ∧ first.kind ≠ .atKeyword := by
  have huncut := p.uncut
  rw [hp] at huncut
  exact startsPrelude_of_qualified (h first (by rw [hp]; rfl)) (endsPrelude_first huncut)

/-- A keyword counts to the prelude or not: no depth is lost. -/
theorem cross_keyword (h : first.kind = .atKeyword) :
    cross endsPrelude 0 (first :: more) = cross endsPrelude 0 more := by
  rw [cross_cons (by rw [h]; rfl), h]
  rfl

theorem Leaf.parts (s : Leaf) : ∃ first more, s.lexemes = first :: more ∧
    startsPrelude first.kind = true ∧ cross endsPrelude 0 (first :: more) = some s.depth ∧
    leafNode first more = .ok s.node := by
  cases s with
  | atRule keyword hkeyword p =>
    refine ⟨keyword, p.lexemes, rfl, by rw [hkeyword]; rfl, ?_, ?_⟩
    · rw [cross_keyword hkeyword]
      exact p.uncut
    · rw [leafNode, if_pos hkeyword]
      rfl
  | declaration p hp before colon after hcolon hsplit hfirst =>
    obtain ⟨first, more, hcons⟩ : ∃ first more, p.lexemes = first :: more := by
      rw [hsplit]
      cases before with
      | nil => exact ⟨_, _, rfl⟩
      | cons => exact ⟨_, _, rfl⟩
    obtain ⟨hstart, hkeyword⟩ := hp.starts hcons
    have hsplit' := splitColon?_eq_some.mpr ⟨colon, hcons ▸ hsplit, hcolon, hfirst⟩
    refine ⟨first, more, hcons, hstart, hcons ▸ p.uncut, ?_⟩
    rw [leafNode, if_neg hkeyword, declaration?, hsplit']
    rfl

theorem exists_leaf (hstart : startsPrelude first.kind = true)
    (hcross : cross endsPrelude 0 (first :: more) = some depth)
    (hleaf : leafNode first more = .ok node) :
    ∃ s : Leaf, s.lexemes = first :: more ∧ s.depth = depth ∧ s.node = node := by
  unfold leafNode at hleaf
  split at hleaf
  · next hkeyword =>
    cases hleaf
    rw [cross_keyword hkeyword] at hcross
    exact ⟨.atRule first hkeyword ⟨more, depth, hcross⟩, rfl, rfl, rfl⟩
  · next hkeyword =>
    split at hleaf
    · next node hd =>
      cases hleaf
      obtain ⟨⟨before, after⟩, hsplit, rfl⟩ := Option.map_eq_some_iff.mp hd
      obtain ⟨colon, heq, hcolon, hfirst⟩ := splitColon?_eq_some.mp hsplit
      have hqualified : Prelude.Qualified ⟨first :: more, depth, hcross⟩ := by
        rintro l ⟨⟩
        exact startsQualified_of_startsPrelude hstart hkeyword
      exact ⟨.declaration ⟨first :: more, depth, hcross⟩ hqualified before colon after hcolon heq
        hfirst, rfl, rfl, rfl⟩
    · cases hleaf

theorem Leaf.eq_of_lexemes {s t : Leaf} (h : s.lexemes = t.lexemes) : s = t := by
  -- A keyword does not start a declaration.
  have hmixed : ∀ {p q : Prelude} {keyword : Lexeme}, keyword.kind = .atKeyword →
      keyword :: p.lexemes = q.lexemes → ¬ q.Qualified := fun hkeyword heq hq =>
    (hq.starts heq.symm).2 hkeyword
  cases s with
  | atRule keyword hkeyword p =>
    cases t with
    | atRule keyword' hkeyword' q =>
      obtain ⟨rfl, heq⟩ := List.cons.inj h
      cases Prelude.eq_of_lexemes heq
      rfl
    | declaration q hq => exact absurd hq (hmixed hkeyword h)
  | declaration p hp before colon after hcolon hsplit hfirst =>
    cases t with
    | atRule keyword hkeyword q => exact absurd hp (hmixed hkeyword h.symm)
    | declaration q hq before' colon' after' hcolon' hsplit' hfirst' =>
      cases Prelude.eq_of_lexemes h
      have hone := splitColon?_eq_some.mpr ⟨colon, hsplit, hcolon, hfirst⟩
      have htwo := splitColon?_eq_some.mpr ⟨colon', hsplit', hcolon', hfirst'⟩
      cases hone.symm.trans htwo
      have hcolons := List.append_cancel_left (hsplit.symm.trans hsplit')
      obtain ⟨rfl, -⟩ := List.cons.inj hcolons
      rfl

theorem Front.uncut (s : Front) : cross endsPrelude 0 s.lexemes = some 0 := by
  cases s with
  | atRule keyword hkeyword p hp => exact (cross_keyword hkeyword).trans (hp ▸ p.uncut)
  | rule p _ hp => exact hp ▸ p.uncut

/-- A statement with a block starts with its brace, or as any other. -/
theorem Front.parts (s : Front) : s.lexemes = [] ∧ s.node = .rule "" ∨
    ∃ first more, s.lexemes = first :: more ∧ startsPrelude first.kind = true ∧
      s.node = blockNode first more := by
  cases s with
  | atRule keyword hkeyword p hp =>
    refine Or.inr ⟨keyword, p.lexemes, rfl, by rw [hkeyword]; rfl, ?_⟩
    rw [blockNode, if_pos hkeyword]
    rfl
  | rule p hqualified hp =>
    cases hcons : p.lexemes with
    | nil => exact Or.inl ⟨hcons, by rw [Front.node, hcons]; rfl⟩
    | cons first more =>
      obtain ⟨hstart, hkeyword⟩ := hqualified.starts hcons
      refine Or.inr ⟨first, more, hcons, hstart, ?_⟩
      rw [blockNode, if_neg hkeyword, Front.node, hcons]

theorem exists_front (hstart : startsPrelude first.kind = true)
    (hcross : cross endsPrelude 0 (first :: more) = some 0) :
    ∃ s : Front, s.lexemes = first :: more := by
  by_cases hkeyword : first.kind = .atKeyword
  · rw [cross_keyword hkeyword] at hcross
    exact ⟨.atRule first hkeyword ⟨more, 0, hcross⟩ rfl, rfl⟩
  · have hqualified : Prelude.Qualified ⟨first :: more, 0, hcross⟩ := by
      rintro l ⟨⟩
      exact startsQualified_of_startsPrelude hstart hkeyword
    exact ⟨.rule ⟨first :: more, 0, hcross⟩ hqualified rfl, rfl⟩

theorem Front.eq_of_lexemes {s t : Front} (h : s.lexemes = t.lexemes) : s = t := by
  cases s with
  | atRule keyword hkeyword p =>
    cases t with
    | atRule keyword' hkeyword' q =>
      obtain ⟨rfl, heq⟩ := List.cons.inj h
      cases Prelude.eq_of_lexemes heq
      rfl
    | rule q hq => exact absurd hkeyword (hq.starts (Eq.symm h)).2
  | rule p hp =>
    cases t with
    | atRule keyword hkeyword q => exact absurd hkeyword (hp.starts h).2
    | rule q hq =>
      cases Prelude.eq_of_lexemes h
      rfl

end parts

/-! ### What is denoted is read -/

/-- The reading gives these trees and has these lexemes remaining. -/
structure Reading.Gives {limit : Nat} (r : Reading limit) (g : Grove Node) (rest : List Lexeme) :
    Prop where
  trees : r.trees = g
  rest : r.rest.map Subtype.val = .ok rest

namespace Reading.Gives

variable {m n : Nat} {r : Reading m} {g : Grove Node} {rest : List Lexeme}

theorem exists_rest (h : r.Gives g rest) :
    ∃ remaining, r.rest = .ok remaining ∧ remaining.1 = rest := by
  have hrest := h.rest
  cases hr : r.rest with
  | error e =>
    rw [hr] at hrest
    cases hrest
  | ok remaining =>
    rw [hr] at hrest
    exact ⟨remaining, rfl, Except.ok.inj hrest⟩

theorem within (h : r.Gives g rest) (hle : m ≤ n) : (r.within hle).Gives g rest := by
  obtain ⟨remaining, hr, rfl⟩ := h.exists_rest
  exact ⟨h.trees, by rw [Reading.within, hr]; rfl⟩

theorem under (h : r.Gives g rest) (node : Node) (below : Grove Node) :
    (r.under node below).Gives (.cons node below g) rest :=
  ⟨congrArg (Grove.cons node below) h.trees, h.rest⟩

end Reading.Gives

/-- How a statement without a block ends: what is its own behind the prelude, and what remains. -/
inductive Ends : Nat → List Lexeme → List Lexeme → Prop where
  | text {depth : Nat} : Ends depth [] []
  | semicolon {e : Lexeme} {ls : List Lexeme} : e.kind = .semicolon → Ends 0 [e] ls
  | brace {e : Lexeme} {ls : List Lexeme} : e.kind = .braceClose → Ends 0 [] (e :: ls)

theorem stopOf_append_singleton (first : Lexeme) (more : List Lexeme) (e : Lexeme) :
    stopOf first (more ++ [e]) = e.stop := by
  simp [stopOf]

section opening

variable {l o e : Lexeme} {ls more taken rest : List Lexeme} {node : Node}

/-- The prelude of a statement, followed by what ends it. -/
theorem splitPrelude_first {depth : Nat} (hstart : startsPrelude l.kind = true)
    (hcross : cross endsPrelude 0 (l :: more) = some depth)
    (hrest : ∀ e after, rest = e :: after → depth = 0 ∧ endsPrelude e.kind = true) :
    splitPrelude (depthAfter 0 l.kind) (more ++ rest) = (more, rest) := by
  rw [cross_cons (endsPrelude_of_startsPrelude hstart)] at hcross
  exact splitPrelude_of_cross hcross hrest

theorem Ends.stops {depth : Nat} (h : Ends depth taken rest) :
    ∀ e after, taken ++ rest = e :: after → depth = 0 ∧ endsPrelude e.kind = true := by
  intro e after heq
  cases h with
  | text => cases heq
  | semicolon hkind =>
    cases heq
    exact ⟨rfl, by rw [hkind]; rfl⟩
  | brace hkind =>
    cases heq
    exact ⟨rfl, by rw [hkind]; rfl⟩

theorem opening_leaf (s : Leaf) (h : Ends s.depth taken rest) : ∃ first more remaining,
    s.lexemes = first :: more ∧ startsPrelude first.kind = true ∧
      opening first (more ++ (taken ++ rest)) =
        .whole (Items.covering s.node (s.lexemes ++ taken)) remaining ∧ remaining.1 = rest := by
  obtain ⟨first, more, hcons, hstart, hcross, hleaf⟩ := s.parts
  have hsplit := splitPrelude_first hstart hcross h.stops
  refine ⟨first, more, ?_⟩
  rw [hcons]
  generalize htail : taken ++ rest = tail at hsplit
  suffices ∃ remaining, opening first (more ++ tail) =
      .whole (s.node.spanning first.start (stopOf first (more ++ taken))) remaining ∧
        remaining.1 = rest by
    obtain ⟨remaining, hopening, hrest⟩ := this
    exact ⟨remaining, rfl, hstart, hopening, hrest⟩
  generalize s.depth = depth at h
  unfold opening
  split
  · next hkind =>
    rw [hkind] at hstart
    cases hstart
  · next hkind =>
    rw [hkind] at hstart
    cases hstart
  · simp only
    split
    · next hnil =>
      rw [hsplit] at hnil
      cases h with
      | text =>
        simp only [hsplit, hleaf, List.append_nil]
        exact ⟨_, rfl, rfl⟩
      | _ => cases htail.trans hnil
    · next e after hafter =>
      rw [hsplit] at hafter
      cases h with
      | text => cases htail.trans hafter
      | semicolon hkind =>
        cases htail.trans hafter
        simp only [hsplit, hleaf, hkind, stopOf_append_singleton]
        exact ⟨_, rfl, rfl⟩
      | brace hkind =>
        cases htail.trans hafter
        simp only [hsplit, hleaf, hkind, List.append_nil]
        exact ⟨_, rfl, rfl⟩

/-- The first lexeme of a statement with a block is its brace, or one of its prelude. -/
theorem opening_front (s : Front) (ho : o.kind = .braceOpen) (ls : List Lexeme) :
    ∃ first more remaining, s.lexemes ++ o :: ls = first :: more ∧
      (first.kind = .braceOpen ∨ startsPrelude first.kind = true) ∧
      opening first more = .block s.node remaining ∧ remaining.1 = ls := by
  rcases s.parts with ⟨hnil, hnode⟩ | ⟨first, more, hcons, hstart, hnode⟩
  · rw [hnil, hnode]
    refine ⟨o, ls, ⟨ls, Nat.le_refl _⟩, rfl, Or.inl ho, ?_, rfl⟩
    rw [opening, ho]
  · have hcross := s.uncut
    rw [hcons] at hcross ⊢
    have hsplit : splitPrelude (depthAfter 0 first.kind) (more ++ o :: ls) = (more, o :: ls) := by
      refine splitPrelude_first hstart hcross fun e after he => ?_
      cases he
      exact ⟨rfl, by rw [ho]; rfl⟩
    rw [hnode]
    suffices ∃ remaining, opening first (more ++ o :: ls) = .block (blockNode first more) remaining ∧
        remaining.1 = ls by
      obtain ⟨remaining, hopening, hrest⟩ := this
      exact ⟨first, _, remaining, rfl, Or.inr hstart, hopening, hrest⟩
    unfold opening
    split
    · next hkind =>
      rw [hkind] at hstart
      cases hstart
    · next hkind =>
      rw [hkind] at hstart
      cases hstart
    · simp only
      split
      · next hnil =>
        rw [hsplit] at hnil
        cases hnil
      · next e after hafter =>
        rw [hsplit] at hafter
        cases hafter
        simp only [hsplit, ho]
        exact ⟨_, rfl, rfl⟩

end opening

theorem statements_whole {l : Lexeme} {ls : List Lexeme} {node : Node} {rest : Remaining ls.length}
    (hkind : l.kind = .comment ∨ startsPrelude l.kind = true) (h : opening l ls = .whole node rest) :
    statements (l :: ls) = ((statements rest.1).within (Nat.le_succ_of_le rest.2)).under node .nil := by
  rw [statements]
  split
  · simp_all [startsPrelude]
  · simp_all [startsPrelude]
  · simp_all [startsPrelude]
  · rw [h]

theorem statements_opened {l close : Lexeme} {ls after : List Lexeme} {node : Node}
    {rest : Remaining ls.length} (hkind : l.kind = .braceOpen ∨ startsPrelude l.kind = true)
    (h : opening l ls = .block node rest) {hle : (close :: after).length ≤ rest.1.length}
    (hrest : (statements rest.1).rest = .ok ⟨close :: after, hle⟩) :
    ∃ hbound, statements (l :: ls) = ((statements after).within hbound).under
      (node.spanning l.start close.stop) (statements rest.1).trees := by
  have hbound : after.length ≤ (l :: ls).length := by
    have hrest := rest.2
    simp only [List.length_cons] at hle ⊢
    omega
  rw [statements]
  split
  · simp_all [startsPrelude]
  · simp_all [startsPrelude]
  · simp_all [startsPrelude]
  · simp only [h]
    split
    · next heq => cases hrest.symm.trans heq
    · next heq => cases hrest.symm.trans heq
    · next heq =>
      cases hrest.symm.trans heq
      exact ⟨hbound, rfl⟩

theorem gives_leaf {s : Leaf} {taken rest last : List Lexeme} {g : Grove Node}
    (h : Ends s.depth taken rest) (hrest : (statements rest).Gives g last) :
    (statements (s.lexemes ++ (taken ++ rest))).Gives
      (.cons (Items.covering s.node (s.lexemes ++ taken)) .nil g) last := by
  obtain ⟨first, more, remaining, hcons, hstart, hopening, hremaining⟩ := opening_leaf s h
  replace hrest : (statements remaining.1).Gives g last := by
    rw [hremaining]
    exact hrest
  rw [hcons, List.cons_append, ← hcons, statements_whole (Or.inr hstart) hopening]
  exact (hrest.within _).under _ _

/-- What is open where nothing is to be read. -/
theorem gives_follows {nested : Bool} {ls : List Lexeme} (h : Follows nested ls) :
    (statements ls).Gives .nil ls := by
  cases h with
  | text =>
    rw [statements]
    exact ⟨rfl, rfl⟩
  | brace hkind =>
    rw [statements]
    simp only [hkind]
    exact ⟨rfl, rfl⟩

/-- **Reading gives what a derivation denotes.** -/
theorem statements_items {nested : Bool} (d : Items nested) {tail : List Lexeme}
    (h : Follows nested tail) : (statements (d.lexemes ++ tail)).Gives d.trees tail := by
  induction d generalizing tail with
  | done => exact gives_follows h
  | blank l hblank rest ih =>
    have hskip : statements (l :: (rest.lexemes ++ tail)) =
        (statements (rest.lexemes ++ tail)).within (Nat.le_succ _) := by
      rw [statements]
      rcases hblank with hkind | hkind <;> simp only [hkind]
    rw [Items.lexemes, List.cons_append, hskip]
    exact (ih h).within _
  | comment l hkind rest ih =>
    have hopening : opening l (rest.lexemes ++ tail) =
        .whole (Items.covering (.comment (commentText l)) [l]) ⟨_, Nat.le_refl _⟩ := by
      rw [opening, hkind]
      rfl
    rw [Items.lexemes, List.cons_append, statements_whole (Or.inl hkind) hopening]
    exact ((ih h).within _).under _ _
  | leaf s hclosed e hkind rest ih =>
    have hends : Ends s.depth [e] (rest.lexemes ++ tail) := by
      rw [hclosed]
      exact .semicolon hkind
    have hgives := gives_leaf hends (ih h)
    rwa [List.singleton_append, ← List.cons_append, ← List.append_assoc] at hgives
  | last s hclosed =>
    have hends : Ends s.depth [] tail := by
      cases h with
      | text => exact .text
      | brace hkind =>
        rw [hclosed rfl]
        exact .brace hkind
    have hgives := gives_leaf hends (gives_follows h)
    rwa [List.append_nil, List.nil_append] at hgives
  | block s o ho below c hc rest ihbelow ih =>
    obtain ⟨first, more, inner, hcons, hstart, hopening, hinner⟩ :=
      opening_front s ho (below.lexemes ++ c :: (rest.lexemes ++ tail))
    have hbelow : (statements inner.1).Gives below.trees (c :: (rest.lexemes ++ tail)) := by
      rw [hinner]
      exact ihbelow (.brace hc)
    obtain ⟨⟨_, hle⟩, hrest, rfl⟩ := hbelow.exists_rest
    obtain ⟨hbound, hopened⟩ := statements_opened hstart hopening hrest
    have hrow : (Items.block s o ho below c hc rest).lexemes ++ tail = first :: more := by
      rw [← hcons, Items.lexemes]
      simp
    have hspan : s.node.spanning first.start c.stop =
        Items.covering s.node (s.lexemes ++ o :: (below.lexemes ++ [c])) := by
      cases hs : s.lexemes with
      | nil =>
        rw [hs] at hcons
        rw [(List.cons.inj hcons).1, List.nil_append, Items.covering, stopOf_append_singleton]
      | cons l ls =>
        rw [hs] at hcons
        rw [← (List.cons.inj hcons).1, List.cons_append, Items.covering, List.append_cons,
          ← List.append_assoc, stopOf_append_singleton]
    rw [hrow, hopened, hbelow.trees, hspan]
    exact ((ih h).within _).under _ _

/-! ### What is read is derived -/

section cases

variable {l : Lexeme} {ls : List Lexeme} {node : Node} {rest : Remaining ls.length}

/-- A statement without a block is a comment, or it ends with its prelude. -/
theorem leaf_of_opening (h : opening l ls = .whole node rest) (hkind : l.kind ≠ .braceOpen →
    l.kind = .comment ∨ startsPrelude l.kind = true) : l.kind = .comment ∧ rest.1 = ls ∨
      ∃ (s : Leaf) (taken : List Lexeme), Ends s.depth taken rest.1 ∧
        l :: ls = s.lexemes ++ (taken ++ rest.1) := by
  obtain ⟨depth, hcross, hends⟩ := cross_splitPrelude (depthAfter 0 l.kind) ls
  have happend := splitPrelude_append (depthAfter 0 l.kind) ls
  unfold opening at h
  split at h
  · next hcomment =>
    cases h
    exact Or.inl ⟨hcomment, rfl⟩
  · cases h
  · next hcomment hopen =>
    have hstart := (hkind hopen).resolve_left hcomment
    rw [← cross_cons (endsPrelude_of_startsPrelude hstart)] at hcross
    right
    simp only at h
    split at h
    · next hnil =>
      split at h
      · cases h
      · next hleaf =>
        cases h
        obtain ⟨s, hs, -, -⟩ := exists_leaf hstart hcross hleaf
        rw [hnil] at happend
        exact ⟨s, [], .text, by rw [hs, List.cons_append, List.nil_append, happend]⟩
    · next e more hcons =>
      obtain ⟨rfl, he⟩ := hends e more hcons
      rw [hcons] at happend
      split at h
      · cases h
      · next hbrace =>
        split at h
        · cases h
        · next hleaf =>
          obtain ⟨s, hs, hdepth, -⟩ := exists_leaf hstart hcross hleaf
          split at h <;> cases h
          · next hsemicolon =>
            refine ⟨s, [e], ?_, by rw [hs, List.singleton_append, List.cons_append, happend]⟩
            rw [hdepth]
            exact .semicolon hsemicolon
          · next hsemicolon =>
            refine ⟨s, [], ?_, by rw [hs, List.nil_append, List.cons_append, happend]⟩
            rw [hdepth]
            exact .brace (kind_of_endsPrelude he hbrace hsemicolon)

/-- A statement with a block starts with its brace, or its prelude ends there. -/
theorem front_of_opening (h : opening l ls = .block node rest) (hkind : l.kind ≠ .comment →
    l.kind = .braceOpen ∨ startsPrelude l.kind = true) :
    ∃ (s : Front) (o : Lexeme), o.kind = .braceOpen ∧ l :: ls = s.lexemes ++ o :: rest.1 := by
  obtain ⟨depth, hcross, hends⟩ := cross_splitPrelude (depthAfter 0 l.kind) ls
  have happend := splitPrelude_append (depthAfter 0 l.kind) ls
  unfold opening at h
  split at h
  · cases h
  · next hopen =>
    cases h
    exact ⟨.rule ⟨[], 0, rfl⟩ (fun l hl => by cases hl) rfl, l, hopen, rfl⟩
  · next hcomment hopen =>
    have hstart := (hkind hcomment).resolve_left hopen
    rw [← cross_cons (endsPrelude_of_startsPrelude hstart)] at hcross
    simp only at h
    split at h
    · split at h <;> cases h
    · next e more hcons =>
      obtain ⟨rfl, -⟩ := hends e more hcons
      rw [hcons] at happend
      split at h
      · next ho =>
        cases h
        obtain ⟨s, hs⟩ := exists_front hstart hcross
        exact ⟨s, e, ho, by rw [hs, List.cons_append, happend]⟩
      · split at h
        · cases h
        · split at h <;> cases h

end cases

theorem Reading.rest_within {m n : Nat} (r : Reading m) (h : m ≤ n) :
    (r.within h).rest.map Subtype.val = r.rest.map Subtype.val := by
  unfold Reading.within
  cases r.rest <;> rfl

/-- **What is read has a derivation.** -/
theorem exists_items {ls rest : List Lexeme} (h : (statements ls).rest.map Subtype.val = .ok rest) :
    ∃ (nested : Bool) (d : Items nested), Follows nested rest ∧ ls = d.lexemes ++ rest := by
  revert rest
  fun_induction statements ls with
  | case1 =>
    rintro _ ⟨⟩
    exact ⟨false, .done, .text, rfl⟩
  | case2 l ls hkind ih =>
    intro rest h
    obtain ⟨nested, d, hfollows, rfl⟩ := ih ((Reading.rest_within ..).symm.trans h)
    exact ⟨nested, .blank l (Or.inl hkind) d, hfollows, rfl⟩
  | case3 l ls hkind ih =>
    intro rest h
    obtain ⟨nested, d, hfollows, rfl⟩ := ih ((Reading.rest_within ..).symm.trans h)
    exact ⟨nested, .blank l (Or.inr hkind) d, hfollows, rfl⟩
  | case4 l ls hkind =>
    rintro _ ⟨⟩
    exact ⟨true, .done, .brace hkind, rfl⟩
  | case5 => rintro _ ⟨⟩
  | case6 l ls node rest hopening hspace hsemicolon hclose ih =>
    intro last h
    rw [Reading.under, Reading.rest_within] at h
    have hkind := startsPrelude_cases hspace hsemicolon hclose
    rcases leaf_of_opening hopening fun hno => hkind.imp_right (Or.resolve_left · hno) with
      ⟨hcomment, hrest⟩ | ⟨s, taken, hends, hrow⟩
    · obtain ⟨nested, d, hfollows, hd⟩ := ih h
      exact ⟨nested, .comment l hcomment d, hfollows, congrArg (l :: ·) (hrest.symm.trans hd)⟩
    · simp only [hrow]
      generalize hdepth : s.depth = depth at hends
      generalize rest.1 = remains at hends h ih ⊢
      cases hends with
      | text =>
        have hlast : last = [] := Except.ok.inj (h.symm.trans (gives_follows .text).rest)
        rw [hlast]
        exact ⟨false, .last s (fun hnested => absurd hnested Bool.false_ne_true), .text, rfl⟩
      | @semicolon e _ he =>
        obtain ⟨nested, d, hfollows, rfl⟩ := ih h
        exact ⟨nested, .leaf s hdepth e he d, hfollows, by simp [Items.lexemes]⟩
      | brace he =>
        have hlast := Except.ok.inj (h.symm.trans (gives_follows (.brace he)).rest)
        rw [hlast]
        exact ⟨true, .last s fun _ => hdepth, .brace he, rfl⟩
  | case7 => rintro _ ⟨⟩
  | case8 => rintro _ ⟨⟩
  | case9 l ls node rest hopening inner close after hle hinner _ hspace hsemicolon hclose ihbelow =>
    rename_i ih
    intro last h
    rw [Reading.under, Reading.rest_within] at h
    have hkind := startsPrelude_cases hspace hsemicolon hclose
    obtain ⟨s, o, ho, hrow⟩ := front_of_opening hopening fun hno => hkind.resolve_left hno
    have hbelow : inner.rest.map Subtype.val = .ok (close :: after) := by
      rw [hinner]
      rfl
    obtain ⟨nested, below, hfollows, hbelow⟩ := ihbelow hbelow
    obtain ⟨nested', d, hlast, rfl⟩ := ih h
    cases hfollows with
    | brace hc =>
      refine ⟨nested', .block s o ho below close hc d, hlast, ?_⟩
      rw [hrow, hbelow, Items.lexemes]
      simp

/-! ### One derivation -/

/-- What some items start with. -/
inductive ItemForm where
  | none
  | blank
  | comment
  | statement

/-- What a row of lexemes starts with. -/
def formOf : List Lexeme → ItemForm
  | [] => .none
  | l :: _ =>
    match l.kind with
    | .whitespace | .semicolon => .blank
    | .comment => .comment
    | _ => .statement

namespace Items

variable {nested : Bool}

def form : Items nested → ItemForm
  | done => .none
  | blank .. => .blank
  | comment .. => .comment
  | leaf .. | last .. | block .. => .statement

theorem formOf_lexemes (d : Items nested) : formOf d.lexemes = d.form := by
  have hstarts : ∀ {first : Lexeme} {more : List Lexeme},
      first.kind = .braceOpen ∨ startsPrelude first.kind = true →
      formOf (first :: more) = .statement := by
    intro first more h
    rw [formOf]
    rcases h with h | h
    · rw [h]
    · cases hkind : first.kind <;> simp_all [startsPrelude]
  cases d with
  | done => rfl
  | blank l h rest => rcases h with h | h <;> simp [lexemes, formOf, form, h]
  | comment l h rest => simp [lexemes, formOf, form, h]
  | leaf s _ e _ rest =>
    obtain ⟨first, more, hcons, hstart, -⟩ := s.parts
    rw [lexemes, hcons]
    exact hstarts (Or.inr hstart)
  | last s _ =>
    obtain ⟨first, more, hcons, hstart, -⟩ := s.parts
    rw [lexemes, hcons]
    exact hstarts (Or.inr hstart)
  | block s o ho below c _ rest =>
    obtain ⟨first, more, -, hcons, hstart, -⟩ :=
      opening_front s ho (below.lexemes ++ c :: rest.lexemes)
    rw [lexemes, hcons]
    exact hstarts hstart

/-- The prelude of the first statement, and what remains behind it. -/
def cut : Items nested → List Lexeme × List Lexeme
  | leaf s _ e _ rest => (s.lexemes, e :: rest.lexemes)
  | last s _ => (s.lexemes, [])
  | block s o _ below c _ rest => (s.lexemes, o :: (below.lexemes ++ c :: rest.lexemes))
  | done | blank .. | comment .. => ([], [])

theorem splitPrelude_lexemes (d : Items nested) (h : d.form = .statement) :
    splitPrelude 0 d.lexemes = d.cut := by
  have hleaf : ∀ (s : Leaf) {tail : List Lexeme},
      (∀ e after, tail = e :: after → s.depth = 0 ∧ endsPrelude e.kind = true) →
      splitPrelude 0 (s.lexemes ++ tail) = (s.lexemes, tail) := by
    intro s tail htail
    obtain ⟨first, more, hcons, -, hcross, -⟩ := s.parts
    exact splitPrelude_of_cross (hcons ▸ hcross) htail
  cases d with
  | leaf s hs e he rest =>
    refine hleaf s fun e' after heq => ?_
    cases heq
    exact ⟨hs, by rw [he]; rfl⟩
  | last s hs =>
    have hsplit := hleaf s (fun e after heq => nomatch heq : ∀ e after, [] = e :: after → _)
    rwa [List.append_nil] at hsplit
  | block s o ho below c hc rest =>
    refine splitPrelude_of_cross s.uncut fun e after heq => ?_
    cases heq
    exact ⟨rfl, by rw [ho]; rfl⟩
  | _ => cases h

section same

variable {a b : Items nested} (h : a.lexemes = b.lexemes)
include h

theorem form_eq : a.form = b.form := by rw [← formOf_lexemes, h, formOf_lexemes]

theorem cut_eq (ha : a.form = .statement) : a.cut = b.cut := by
  rw [← splitPrelude_lexemes a ha, h, splitPrelude_lexemes b ((form_eq h).symm.trans ha)]

end same

/-- The items of a block end at its brace. -/
theorem eq_of_closed {a b : Items true} {c d : Lexeme} {ls ms : List Lexeme}
    (hc : c.kind = .braceClose) (hd : d.kind = .braceClose)
    (h : a.lexemes ++ c :: ls = b.lexemes ++ d :: ms) :
    a.lexemes = b.lexemes ∧ c = d ∧ ls = ms := by
  have ha := (statements_items a (.brace hc : Follows true (c :: ls))).rest
  have hb := (statements_items b (.brace hd : Follows true (d :: ms))).rest
  rw [h] at ha
  have htail := Except.ok.inj (ha.symm.trans hb)
  rw [htail] at h
  exact ⟨List.append_cancel_right h, List.cons.inj htail⟩

/-- **A row of lexemes has one derivation.** -/
theorem eq_of_lexemes {a b : Items nested} (h : a.lexemes = b.lexemes) : a = b := by
  induction a with
  | done =>
    cases b with
    | done => rfl
    | _ => cases form_eq h
  | blank l hl rest ih =>
    cases b with
    | blank m hm rest' =>
      obtain ⟨rfl, hrest⟩ := List.cons.inj h
      rw [ih hrest]
    | _ => cases form_eq h
  | comment l hl rest ih =>
    cases b with
    | comment m hm rest' =>
      obtain ⟨rfl, hrest⟩ := List.cons.inj h
      rw [ih hrest]
    | _ => cases form_eq h
  | leaf s hs e he rest ih =>
    have hform := form_eq h
    have hcut := cut_eq h rfl
    cases b with
    | leaf s' hs' e' he' rest' =>
      obtain ⟨hlexemes, htail⟩ := Prod.mk.inj hcut
      obtain ⟨rfl, hrest⟩ := List.cons.inj htail
      cases Leaf.eq_of_lexemes hlexemes
      rw [ih hrest]
    | last s' hs' => cases (Prod.mk.inj hcut).2
    | block s' o' ho' below' c' hc' rest' =>
      obtain ⟨rfl, -⟩ := List.cons.inj (Prod.mk.inj hcut).2
      cases he.symm.trans ho'
    | _ => cases hform
  | last s hs =>
    have hform := form_eq h
    have hcut := cut_eq h rfl
    cases b with
    | last s' hs' =>
      cases Leaf.eq_of_lexemes (Prod.mk.inj hcut).1
      rfl
    | leaf s' hs' e' he' rest' => cases (Prod.mk.inj hcut).2
    | block s' o' ho' below' c' hc' rest' => cases (Prod.mk.inj hcut).2
    | _ => cases hform
  | block s o ho below c hc rest ihbelow ih =>
    have hform := form_eq h
    have hcut := cut_eq h rfl
    cases b with
    | block s' o' ho' below' c' hc' rest' =>
      obtain ⟨hlexemes, htail⟩ := Prod.mk.inj hcut
      obtain ⟨rfl, hinner⟩ := List.cons.inj htail
      obtain ⟨hbelow, rfl, hrest⟩ := eq_of_closed hc hc' hinner
      cases Front.eq_of_lexemes hlexemes
      rw [ihbelow hbelow, ih hrest]
    | leaf s' hs' e' he' rest' =>
      obtain ⟨rfl, -⟩ := List.cons.inj (Prod.mk.inj hcut).2
      cases ho.symm.trans he'
    | last s' hs' => cases (Prod.mk.inj hcut).2
    | _ => cases hform

end Items

theorem closed_of_parse {text : String} {g : Grove Node} (h : parse text = .ok g) :
    ∀ l ∈ lexemes text, l.kind ≠ .unclosed := by
  rw [parse_eq_ok, read] at h
  cases hfind : (lexemes text).find? (·.kind == .unclosed) with
  | some l =>
    rw [hfind] at h
    cases h
  | none =>
    intro l hl
    simpa using List.find?_eq_none.mp hfind l hl

theorem parse_of_closed {text : String} (h : ∀ l ∈ lexemes text, l.kind ≠ .unclosed) {g : Grove Node} :
    parse text = .ok g ↔ (statements (lexemes text)).Gives g [] := by
  have hfind : (lexemes text).find? (·.kind == .unclosed) = none :=
    List.find?_eq_none.mpr fun l hl => by simpa using h l hl
  rw [parse_eq_ok, read, hfind]
  simp only
  constructor
  · intro hread
    split at hread
    · cases hread
    · next hrest =>
      cases hread
      exact ⟨rfl, by rw [hrest]; rfl⟩
    · cases hread
  · intro hgives
    obtain ⟨⟨remaining, hle⟩, hrest, rfl⟩ := hgives.exists_rest
    rw [hrest]
    exact congrArg (·, none) hgives.trees

theorem parse_of_derivation {text : String} (h : ∀ l ∈ lexemes text, l.kind ≠ .unclosed)
    {d : Items false} (hd : d.lexemes = lexemes text) : parse text = .ok d.trees := by
  have hgives := statements_items d .text
  rw [List.append_nil, hd] at hgives
  exact (parse_of_closed h).mpr hgives

theorem exists_derivation {text : String} {g : Grove Node} (h : parse text = .ok g) :
    ∃ d : Items false, d.lexemes = lexemes text ∧ d.trees = g := by
  have hclosed := closed_of_parse h
  obtain ⟨nested, d, hfollows, hd⟩ := exists_items ((parse_of_closed hclosed).mp h).rest
  cases hfollows
  rw [List.append_nil] at hd
  exact ⟨d, hd.symm, Except.ok.inj ((parse_of_derivation hclosed hd.symm).symm.trans h)⟩

/-- **A text is parsed exactly when its strings are closed and its lexemes have a derivation.** It has no
other one then, and the trees are those that it denotes. -/
theorem parse_derived (text : String) :
    ((∃ g, parse text = .ok g) ↔ (∀ l ∈ lexemes text, l.kind ≠ .unclosed) ∧
      ∃ d : Items false, d.lexemes = lexemes text) ∧
    ∀ d : Items false, d.lexemes = lexemes text →
      (∀ d' : Items false, d'.lexemes = lexemes text → d' = d) ∧
      ∀ g, parse text = .ok g → g = d.trees := by
  refine ⟨⟨fun ⟨g, hg⟩ => ?_, fun ⟨hclosed, d, hd⟩ => ?_⟩, fun d hd => ⟨fun d' hd' => ?_, fun g hg => ?_⟩⟩
  · obtain ⟨d, hd, -⟩ := exists_derivation hg
    exact ⟨closed_of_parse hg, d, hd⟩
  · exact ⟨d.trees, parse_of_derivation hclosed hd⟩
  · exact Items.eq_of_lexemes (hd'.trans hd.symm)
  · exact Except.ok.inj (hg.symm.trans (parse_of_derivation (closed_of_parse hg) hd))

end Strata.Css
