import Strata.Proofs.Css.RoundTrip

/-! Spans of what is read.

Lexemes follow one another without a gap (`Placed`), so the span of a statement is the place of its row of
lexemes, the spans of a row of siblings follow one another, and those in a block are between its braces
(`Items.spanned`). A row that is cut out of its text is cut into the same lexemes again (`Laid.front`), and
it is a derivation of its own: so the slice under a span is read as that one tree (`spans_exact`). -/
namespace Strata

namespace Grove

variable {α : Type}

/-- The labels of the trees in a row. -/
def tops : Grove α → List α
  | nil => []
  | cons top _ rest => top :: rest.tops

/-- Every label with what is below it, in document order. -/
def subtrees : Grove α → List (α × Grove α)
  | nil => []
  | cons top below rest => (top, below) :: (below.subtrees ++ rest.subtrees)

theorem map_id (g : Grove α) : g.map id = g := by
  induction g with
  | nil => rfl
  | cons top below rest ihbelow ihrest => rw [map, ihbelow, ihrest, id]

end Grove

/-- The same span, `n` bytes further on. -/
def Span.shifted (n : Nat) (s : Span) : Span := ⟨s.start + n, s.stop + n⟩

def Node.shifted (n : Nat) (node : Node) : Node := { node with span := node.span.map (Span.shifted n) }

/-- Both nodes have spans, and that of `a` ends before that of `b` starts or there. -/
def Node.Before (a b : Node) : Prop :=
  ∃ s t, a.span = some s ∧ b.span = some t ∧ s.stop ≤ t.start

namespace Css

variable {nested : Bool} {ls ms : List Lexeme} {l first : Lexeme} {cs after : List Char} {n lo hi : Nat}

def Lexeme.shifted (n : Nat) (l : Lexeme) : Lexeme := { l with start := l.start + n }

/-! ### Lengths in bytes -/

theorem byteLength_append (a b : List Char) : byteLength (a ++ b) = byteLength a + byteLength b := by
  have hfrom : ∀ (cs : List Char) (n : Nat),
      cs.foldl (fun n c => n + c.utf8Size) n = n + byteLength cs := by
    intro cs
    induction cs with
    | nil => exact fun _ => rfl
    | cons c cs ih =>
      intro n
      rw [byteLength, List.foldl_cons, List.foldl_cons, ih, ih]
      omega
  rw [byteLength, List.foldl_append, hfrom]
  rfl

theorem byteLength_cons (c : Char) (cs : List Char) :
    byteLength (c :: cs) = c.utf8Size + byteLength cs := by
  rw [← List.singleton_append, byteLength_append]
  exact congrArg (· + byteLength cs) (Nat.zero_add _)

theorem byteLength_pos (h : cs ≠ []) : 0 < byteLength cs := by
  obtain ⟨c, cs, rfl⟩ := List.exists_cons_of_ne_nil h
  rw [byteLength_cons]
  exact Nat.add_pos_left c.utf8Size_pos _

/-! ### Places of lexemes -/

/-- The first lexeme starts at byte `start`, and each of the others where the one before it stops. -/
def Placed (start : Nat) : List Lexeme → Prop
  | [] => True
  | l :: ls => l.start = start ∧ Placed l.stop ls

theorem placed_lexemesFrom (start : Nat) (cs : List Char) : Placed start (lexemesFrom start cs) := by
  fun_induction lexemesFrom start cs with
  | case1 => trivial
  | case2 start c cs l ih => exact ⟨rfl, ih⟩

theorem placed_append : Placed n (ls ++ ms) ↔ Placed n ls ∧ Placed (n + byteLength (spell ls)) ms := by
  induction ls generalizing n with
  | nil => simp [Placed, spell, byteLength]
  | cons l ls ih =>
    rw [List.cons_append, Placed, Placed, ih, and_assoc, spell_cons, byteLength_append]
    refine and_congr_right fun hl => and_congr_right fun _ => ?_
    rw [Lexeme.stop, hl, Nat.add_assoc]

theorem Placed.shifted (h : Placed lo ls) (n : Nat) :
    Placed (lo + n) (ls.map (Lexeme.shifted n)) := by
  induction ls generalizing lo with
  | nil => trivial
  | cons l ls ih =>
    obtain ⟨hl, hls⟩ := h
    refine ⟨congrArg (· + n) hl, ?_⟩
    rw [show (l.shifted n).stop = l.stop + n from Nat.add_right_comm ..]
    exact ih hls

theorem Placed.eq_of_bare (hls : Placed n ls) (hms : Placed n ms)
    (h : ms.map Lexeme.bare = ls.map Lexeme.bare) : ms = ls := by
  induction ls generalizing n ms with
  | nil => exact List.map_eq_nil_iff.mp h
  | cons l ls ih =>
    obtain ⟨m, more, rfl, hkind, htext, hmore⟩ := exists_bare_cons h
    have heq : m = l := by
      have hstart : m.start = l.start := hms.1.trans hls.1.symm
      cases m
      cases l
      simp_all
    rw [heq] at hms ⊢
    rw [ih hls.2 hms.2 hmore]

theorem Placed.stopOf {more : List Lexeme} (h : Placed n (first :: more)) :
    stopOf first more = n + byteLength (spell (first :: more)) := by
  obtain ⟨front, l, hlast⟩ : ∃ front l, first :: more = front ++ [l] :=
    ⟨_, _, (List.dropLast_append_getLast (List.cons_ne_nil first more)).symm⟩
  have hstop : Css.stopOf first more = l.stop := by simp [Css.stopOf, hlast]
  rw [hlast] at h ⊢
  obtain ⟨-, hl, -⟩ := placed_append.mp h
  rw [hstop, Lexeme.stop, hl, spell_append, byteLength_append, Nat.add_assoc]
  simp [spell]

/-- The span of a node is the place of its lexemes. -/
theorem Placed.span_covering (h : Placed n ls) (hls : ls ≠ []) (node : Node) :
    (Items.covering node ls).span = some ⟨n, n + byteLength (spell ls)⟩ := by
  obtain ⟨first, more, rfl⟩ := List.exists_cons_of_ne_nil hls
  rw [Items.covering, h.stopOf, ← h.1]
  rfl

theorem stopOf_shifted (n : Nat) (first : Lexeme) (more : List Lexeme) :
    stopOf (first.shifted n) (more.map (Lexeme.shifted n)) = stopOf first more + n := by
  simp only [stopOf, ← List.map_cons, List.getLast_map]
  exact Nat.add_right_comm ..

theorem replaces_shifted (n : Nat) : Replaces (Lexeme.shifted n) id (Node.shifted n) id where
  bare m l h := by
    rw [← show m.shifted n = l from h]
    rfl
  covering node ms ls hls h := by
    rw [List.map_id] at h
    subst h
    cases ms with
    | nil => exact absurd rfl hls
    | cons first more =>
      rw [List.map_cons, Items.covering, Items.covering, stopOf_shifted]
      rfl

/-! ### Rows cut out of a text -/

/-- Pieces of a text are pieces of what is cut off behind them. -/
theorem Laid.front (h : Laid ls after) : Laid ls [] := by
  induction ls with
  | nil => trivial
  | cons l ls ih =>
    obtain ⟨hcut, hlaid⟩ := h
    refine ⟨hcut.change ?_, ih hlaid⟩
    rw [List.append_nil]
    cases ls with
    | nil => cases l.kind <;> simp [Borders, spell]
    | cons m ls =>
      obtain ⟨c, more, hm⟩ := List.exists_cons_of_ne_nil hlaid.1.ne_nil
      refine hcut.borders.change ?_ ?_
      · rw [spell_cons, hm]
        rfl
      · rw [spell_cons, hm]
        exact fun hno => hno.within (List.prefix_append (more ++ spell ls) after).isInfix

theorem Laid.spell_ne_nil (h : Laid ls after) (hls : ls ≠ []) : spell ls ≠ [] := by
  obtain ⟨l, ls, rfl⟩ := List.exists_cons_of_ne_nil hls
  rw [spell_cons]
  exact List.append_ne_nil_of_left_ne_nil h.1.ne_nil _

/-- A derivation somewhere in a text is read from its slice, with places that start at none. -/
theorem Items.parse_slice (d : Items false) (hlaid : Laid d.lexemes after)
    (hplaced : Placed n d.lexemes) : ∃ g, parse (.ofList (spell d.lexemes)) = .ok g ∧
      g.map (Node.shifted n) = d.trees := by
  have htext : (String.ofList (spell d.lexemes)).toList = spell d.lexemes := String.toList_ofList
  have hbare := hlaid.front.lexemes htext
  have hshifted : (Css.lexemes (.ofList (spell d.lexemes))).map (Lexeme.shifted n) = d.lexemes := by
    refine hplaced.eq_of_bare ?_ ?_
    · have hzero := (placed_lexemesFrom 0 (String.ofList (spell d.lexemes)).toList).shifted n
      rwa [Nat.zero_add] at hzero
    · rw [List.map_map]
      exact hbare
  obtain ⟨d', hd', htrees⟩ := (replaces_shifted n).exists_items d
    (hshifted.trans (List.map_id _).symm)
  rw [Grove.map_id] at htrees
  exact ⟨d'.trees, parse_of_derivation (hlaid.closed_of_bare hbare) hd', htrees⟩

/-! ### Trees of a derivation -/

namespace Items

variable {top : Node} {below g : Grove Node}

/-- Each tree is denoted by a part of the derivation that is one for itself. -/
theorem exists_part (d : Items nested) (h : (top, below) ∈ d.trees.subtrees) :
    ∃ (e : Items false) (lead trail : List Lexeme) (node : Node),
      d.lexemes = lead ++ (e.lexemes ++ trail) ∧ e.lexemes ≠ [] ∧
      top = covering node e.lexemes ∧ e.trees = .cons top below .nil := by
  induction d with
  | done => cases h
  | blank l hl rest ih =>
    obtain ⟨e, lead, trail, node, hsplit, hpart⟩ := ih h
    exact ⟨e, l :: lead, trail, node, congrArg (l :: ·) hsplit, hpart⟩
  | comment l hl rest ih =>
    rcases List.mem_cons.mp h with heq | h
    · cases heq
      exact ⟨.comment l hl .done, [], rest.lexemes, _, rfl, List.cons_ne_nil _ _, rfl, rfl⟩
    · obtain ⟨e, lead, trail, node, hsplit, hpart⟩ := ih h
      exact ⟨e, l :: lead, trail, node, congrArg (l :: ·) hsplit, hpart⟩
  | leaf s hs e he rest ih =>
    rcases List.mem_cons.mp h with heq | h
    · cases heq
      exact ⟨.leaf s hs e he .done, [], rest.lexemes, _, by simp [lexemes], by simp [lexemes], rfl, rfl⟩
    · obtain ⟨part, lead, trail, node, hsplit, hpart⟩ := ih h
      exact ⟨part, s.lexemes ++ e :: lead, trail, node, by simp [lexemes, hsplit], hpart⟩
  | last s hs =>
    rcases List.mem_cons.mp h with heq | h
    · cases heq
      obtain ⟨first, more, hcons, -⟩ := s.parts
      have hne : s.lexemes ≠ [] := by simp [hcons]
      exact ⟨.last s (fun hnested => absurd hnested Bool.false_ne_true), [], [], _,
        by simp [lexemes], hne, rfl, rfl⟩
    · cases h
  | block s o ho inside c hc rest ihinside ih =>
    rcases List.mem_cons.mp h with heq | h
    · cases heq
      exact ⟨.block s o ho inside c hc .done, [], rest.lexemes, _, by simp [lexemes],
        by simp [lexemes], rfl, rfl⟩
    · rcases List.mem_append.mp h with h | h
      · obtain ⟨e, lead, trail, node, hsplit, hpart⟩ := ihinside h
        exact ⟨e, s.lexemes ++ o :: lead, trail ++ c :: rest.lexemes, node,
          by simp [lexemes, hsplit], hpart⟩
      · obtain ⟨e, lead, trail, node, hsplit, hpart⟩ := ih h
        exact ⟨e, s.lexemes ++ o :: (inside.lexemes ++ c :: lead), trail, node,
          by simp [lexemes, hsplit], hpart⟩

end Items

/-- The spans of a row of trees are between two places and follow one another, and those below a tree are
strictly inside its own. -/
def Spanned (lo hi : Nat) : Grove Node → Prop
  | .nil => True
  | .cons top below rest => ∃ s, top.span = some s ∧ lo ≤ s.start ∧ s.start < s.stop ∧ s.stop ≤ hi ∧
    Spanned (s.start + 1) (s.stop - 1) below ∧ Spanned s.stop hi rest

theorem Spanned.mono {g : Grove Node} {lo' hi' : Nat} (h : Spanned lo hi g) (hlo : lo' ≤ lo)
    (hhi : hi ≤ hi') : Spanned lo' hi' g := by
  induction g generalizing lo lo' with
  | nil => trivial
  | cons top below rest _ ihrest =>
    obtain ⟨s, hs, hstart, hlt, hstop, hbelow, hrest⟩ := h
    exact ⟨s, hs, hlo.trans hstart, hlt, hstop.trans hhi, hbelow, ihrest hrest (Nat.le_refl _)⟩

theorem byteLength_spell_append (ls ms : List Lexeme) :
    byteLength (spell (ls ++ ms)) = byteLength (spell ls) + byteLength (spell ms) := by
  rw [spell_append, byteLength_append]

theorem Laid.byteLength_pos (h : Laid ls after) (hls : ls ≠ []) : 0 < byteLength (spell ls) :=
  Css.byteLength_pos (h.spell_ne_nil hls)

/-- A tree has the place of its row, and the others have the places behind it. -/
theorem spanned_append (row tail : List Lexeme) {node : Node} {below rest : Grove Node}
    (hlaid : Laid (row ++ tail) after) (hplaced : Placed lo (row ++ tail)) (hrow : row ≠ [])
    (hbelow : Spanned (lo + 1) (lo + byteLength (spell row) - 1) below)
    (hrest : ∀ {lo}, Laid tail after → Placed lo tail →
      Spanned lo (lo + byteLength (spell tail)) rest) :
    Spanned lo (lo + byteLength (spell (row ++ tail)))
      (.cons (Items.covering node row) below rest) := by
  obtain ⟨hcut, htail⟩ := laid_append.mp hlaid
  obtain ⟨hplace, hbehind⟩ := placed_append.mp hplaced
  rw [byteLength_spell_append, ← Nat.add_assoc]
  exact ⟨_, hplace.span_covering hrow node, Nat.le_refl _,
    Nat.lt_add_of_pos_right (hcut.byteLength_pos hrow), Nat.le_add_right _ _, hbelow,
    hrest htail hbehind⟩

/-- **The trees of a derivation are spanned by its lexemes.** -/
theorem Items.spanned (d : Items nested) (hlaid : Laid d.lexemes after) (hplaced : Placed lo d.lexemes) :
    Spanned lo (lo + byteLength (spell d.lexemes)) d.trees := by
  induction d generalizing lo after with
  | done => trivial
  | blank l hl rest ih =>
    have hrest := ih hlaid.2 hplaced.2
    rw [Lexeme.stop, hplaced.1] at hrest
    rw [lexemes, spell_cons, byteLength_append, ← Nat.add_assoc]
    exact hrest.mono (Nat.le_add_right _ _) (Nat.le_refl _)
  | comment l hl rest ih =>
    exact spanned_append [l] rest.lexemes hlaid hplaced (List.cons_ne_nil _ _) trivial ih
  | leaf s hs e he rest ih =>
    rw [lexemes, List.append_cons] at hlaid hplaced ⊢
    exact spanned_append (s.lexemes ++ [e]) rest.lexemes hlaid hplaced (by simp) trivial ih
  | last s hs =>
    obtain ⟨first, more, hcons, -⟩ := s.parts
    rw [lexemes, ← List.append_nil s.lexemes] at hlaid hplaced ⊢
    exact spanned_append s.lexemes [] hlaid hplaced (by simp [hcons]) trivial fun _ _ => trivial
  | block s o ho below c hc rest ihbelow ih =>
    have hrow : (block s o ho below c hc rest).lexemes =
        (s.lexemes ++ o :: (below.lexemes ++ [c])) ++ rest.lexemes := by simp [lexemes]
    rw [hrow] at hlaid hplaced ⊢
    refine spanned_append _ rest.lexemes hlaid hplaced (by simp) ?_ ih
    -- Between the braces.
    have hinner : s.lexemes ++ o :: (below.lexemes ++ [c]) =
        (s.lexemes ++ [o]) ++ (below.lexemes ++ [c]) := by simp
    rw [hinner] at hlaid hplaced ⊢
    obtain ⟨hfront, hbehind⟩ := laid_append.mp (laid_append.mp hlaid).1
    obtain ⟨hbelow, hclose⟩ := laid_append.mp hbehind
    have hplace := (placed_append.mp (placed_append.mp hplaced).1).2
    have hspanned := ihbelow hbelow (placed_append.mp hplace).1
    have hopened := (laid_append.mp hfront).2.byteLength_pos (List.cons_ne_nil o [])
    have hclosed := hclose.byteLength_pos (List.cons_ne_nil c [])
    simp only [byteLength_spell_append] at hspanned hopened hclosed ⊢
    exact hspanned.mono (by omega) (by omega)

section tops

variable {g : Grove Node}

theorem Spanned.between (h : Spanned lo hi g) :
    ∀ node ∈ g.tops, ∃ s, node.span = some s ∧ lo ≤ s.start ∧ s.stop ≤ hi := by
  induction g generalizing lo with
  | nil => exact fun node hnode => nomatch hnode
  | cons top below rest _ ihrest =>
    obtain ⟨s, hs, hstart, hlt, hstop, -, hrest⟩ := h
    refine List.forall_mem_cons.mpr ⟨⟨s, hs, hstart, hstop⟩, fun node hnode => ?_⟩
    obtain ⟨t, ht, hlo, hhi⟩ := ihrest hrest node hnode
    exact ⟨t, ht, by omega, hhi⟩

theorem Spanned.pairwise (h : Spanned lo hi g) : g.tops.Pairwise Node.Before := by
  induction g generalizing lo with
  | nil => exact List.Pairwise.nil
  | cons top below rest _ ihrest =>
    obtain ⟨s, hs, -, -, -, -, hrest⟩ := h
    refine List.pairwise_cons.mpr ⟨fun node hnode => ?_, ihrest hrest⟩
    obtain ⟨t, ht, hlo, -⟩ := hrest.between node hnode
    exact ⟨s, t, hs, ht, hlo⟩

end tops

/-! ### Texts -/

/-- What a span says of a tree in a text: a slice of the text, on boundaries of characters, which is read
as this tree alone. The spans of what is directly below follow one another, strictly inside. -/
structure Exact (text : String) (top : Node) (below : Grove Node) (s : Span) (slice : List Char) :
    Prop where
  span : top.span = some s
  inhabited : s.start < s.stop
  cut : ∃ lead trail, text.toList = lead ++ (slice ++ trail) ∧ byteLength lead = s.start ∧
    byteLength (lead ++ slice) = s.stop
  inside : ∀ node ∈ below.tops, ∃ t, node.span = some t ∧ s.start < t.start ∧ t.stop < s.stop
  ordered : below.tops.Pairwise Node.Before
  alone : ∃ top' below', parse (.ofList slice) = .ok (.cons top' below' .nil) ∧
    top'.shifted s.start = top ∧ below'.map (Node.shifted s.start) = below

/-- A part of a derivation, where it stands in the text. -/
theorem Items.exact {e : Items false} {lead trail : List Lexeme} {text : String} {node : Node}
    {below : Grove Node} (htext : text.toList = spell (lead ++ (e.lexemes ++ trail)))
    (hlaid : Laid e.lexemes after) (hplaced : Placed (byteLength (spell lead)) e.lexemes)
    (hne : e.lexemes ≠ []) (htrees : e.trees = .cons (covering node e.lexemes) below .nil) :
    ∃ s slice, Exact text (covering node e.lexemes) below s slice := by
  have hspan := hplaced.span_covering hne node
  have hspanned := e.spanned hlaid hplaced
  obtain ⟨g, hparse, hg⟩ := e.parse_slice hlaid hplaced
  rw [htrees] at hspanned hg
  obtain ⟨s, hs, -, hlt, -, hbelow, -⟩ := hspanned
  cases hspan.symm.trans hs
  refine ⟨_, spell e.lexemes, hspan, hlt, ⟨spell lead, spell trail, ?_, rfl, ?_⟩, fun n hn => ?_,
    hbelow.pairwise, ?_⟩
  · rw [htext, spell_append, spell_append]
  · rw [byteLength_append]
  · obtain ⟨t, ht, hlo, hhi⟩ := hbelow.between n hn
    exact ⟨t, ht, hlo, by omega⟩
  · cases g with
    | nil => cases hg
    | cons top' below' rest' =>
      obtain ⟨htop, hbelow, hrest⟩ := Grove.cons.inj hg
      cases rest' with
      | nil => exact ⟨top', below', hparse, htop, hbelow⟩
      | cons => cases hrest

/-- **The span of every node is the slice of the text that is read as its tree alone**, and siblings
follow one another. -/
theorem spans_exact {text : String} {g : Grove Node} (h : parse text = .ok g) :
    g.tops.Pairwise Node.Before ∧
      ∀ top below, (top, below) ∈ g.subtrees → ∃ s slice, Exact text top below s slice := by
  obtain ⟨d, hd, rfl⟩ := exists_derivation h
  have hlaid : Laid d.lexemes [] := hd ▸ laid_lexemesFrom 0 _ (closed_of_parse h)
  have hplaced : Placed 0 d.lexemes := hd ▸ placed_lexemesFrom 0 _
  have htext : text.toList = spell d.lexemes := hd ▸ (spell_lexemes text).symm
  refine ⟨(d.spanned hlaid hplaced).pairwise, fun top below hmem => ?_⟩
  obtain ⟨e, lead, trail, node, hsplit, hne, rfl, htrees⟩ := d.exists_part hmem
  rw [hsplit] at hlaid hplaced htext
  have hplace := (placed_append.mp (placed_append.mp hplaced).2).1
  rw [Nat.zero_add] at hplace
  exact Items.exact htext (laid_append.mp (laid_append.mp hlaid).2).1 hplace hne htrees

/-- A comment that has more bytes than characters, and a declaration that ends with its block. -/
theorem spans_exact_behind_wide : ∃ g s slice, parse "/*é*/a\x7bb:c\x7d" = .ok g ∧
    ((Node.declaration "b" "c" false).spanning 8 11, .nil) ∈ g.subtrees ∧
    Exact "/*é*/a\x7bb:c\x7d" ((Node.declaration "b" "c" false).spanning 8 11) .nil s slice := by
  have hparse : parse "/*é*/a\x7bb:c\x7d" = .ok (.cons ((Node.comment "é").spanning 0 6) .nil
      (.cons ((Node.rule "a").spanning 6 12)
        (.cons ((Node.declaration "b" "c" false).spanning 8 11) .nil .nil) .nil)) := by
    decide +kernel
  have hmem := (by decide : ((Node.declaration "b" "c" false).spanning 8 11, Grove.nil) ∈
    (Grove.cons ((Node.comment "é").spanning 0 6) .nil (.cons ((Node.rule "a").spanning 6 12)
      (.cons ((Node.declaration "b" "c" false).spanning 8 11) .nil .nil) .nil)).subtrees)
  obtain ⟨s, slice, hexact⟩ := (spans_exact hparse).2 _ _ hmem
  exact ⟨_, s, slice, hparse, hmem, hexact⟩

end Css

end Strata
