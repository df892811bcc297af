import Strata.Css.Pieces
import Strata.Proofs.Text.Uses

/-! The pieces of a parameter list.

What a text is cut into depends on what stands before only through the state of the scan, so the cuts
of two texts in a row are joined where the texts meet (`cut_append`). A piece that is followed by
white space at the top level, or by nothing, can be exchanged for another such piece: what follows is
cut the same (`Heads.pieces_append`). -/
namespace Strata.Css

open Text

variable {isSeparator : Char → Bool} {s : ScanState} {c : Char} {cs ds piece rest : List Char}

/-- Where a scan stands behind a text. -/
def ScanState.after (s : ScanState) (cs : List Char) : ScanState := cs.foldl ScanState.next s

namespace ScanState

theorem isTop_iff : s.isTop = true ↔ s = {} := by
  rcases s with ⟨depth, quote, escaped⟩
  simp [isTop, and_assoc]

theorem after_append (s : ScanState) (cs ds : List Char) :
    s.after (cs ++ ds) = (s.after cs).after ds := List.foldl_append

/-- What does not steer a scan is passed over, outside and inside brackets. -/
theorem next_of_not_steering (hc : isSteering c = false) (depth : Nat) :
    next ⟨depth, none, false⟩ c = ⟨depth, none, false⟩ := by
  simp only [isSteering, Bool.or_eq_false_iff, beq_eq_false_iff_ne] at hc
  obtain ⟨⟨⟨hquote, hopens⟩, hcloses⟩, hslash⟩ := hc
  simp [next, hquote, hopens, hcloses, hslash]

end ScanState

/-! ### Cuts -/

theorem cut_ne_nil (isSeparator : Char → Bool) (s : ScanState) (cs : List Char) :
    cut isSeparator s cs ≠ [] := by
  cases cs with
  | nil => simp [cut]
  | cons c cs =>
    rw [cut]
    split
    · simp
    · split <;> simp

theorem cut_separator (hc : isSteering c = false) (hsep : isSeparator c = true) (cs : List Char) :
    cut isSeparator {} (c :: cs) = [] :: cut isSeparator {} cs := by
  rw [cut, if_pos (by simp [ScanState.isTop, hc, hsep])]

/-- A character that does not cut continues the first piece. -/
theorem cut_cons (h : (s.isTop && !isSteering c && isSeparator c) = false) {p : List Char}
    {ps : List (List Char)} (hcut : cut isSeparator (s.next c) cs = p :: ps) :
    cut isSeparator s (c :: cs) = (c :: p) :: ps := by
  rw [cut, h, if_neg Bool.false_ne_true, hcut]

/-- **The last piece of one text is continued by the first one of the next.** -/
theorem cut_append (isSeparator : Char → Bool) (s : ScanState) (cs ds : List Char) :
    ∃ init last p ps, cut isSeparator s cs = init ++ [last] ∧
      cut isSeparator (s.after cs) ds = p :: ps ∧
      cut isSeparator s (cs ++ ds) = init ++ (last ++ p) :: ps := by
  induction cs generalizing s with
  | nil =>
    obtain ⟨p, ps, hp⟩ := List.exists_cons_of_ne_nil (cut_ne_nil isSeparator s ds)
    exact ⟨[], [], p, ps, rfl, hp, hp⟩
  | cons c cs ih =>
    by_cases hsep : (s.isTop && !isSteering c && isSeparator c) = true
    · simp only [Bool.and_eq_true, Bool.not_eq_true'] at hsep
      obtain ⟨⟨htop, hc⟩, hsep⟩ := hsep
      obtain rfl := ScanState.isTop_iff.mp htop
      obtain ⟨init, last, p, ps, hfirst, hsecond, hboth⟩ := ih {}
      refine ⟨[] :: init, last, p, ps, ?_, ?_, ?_⟩
      · rw [cut_separator hc hsep, hfirst, List.cons_append]
      · rw [ScanState.after, List.foldl_cons, ScanState.next_of_not_steering hc]
        exact hsecond
      · rw [List.cons_append, cut_separator hc hsep, hboth, List.cons_append]
    · rw [Bool.not_eq_true] at hsep
      obtain ⟨init, last, p, ps, hfirst, hsecond, hboth⟩ := ih (s.next c)
      cases init with
      | nil => exact ⟨[], c :: last, p, ps, cut_cons hsep hfirst, hsecond, cut_cons hsep hboth⟩
      | cons q init =>
        exact ⟨(c :: q) :: init, last, p, ps, cut_cons hsep hfirst, hsecond, cut_cons hsep hboth⟩

/-- A text that is not cut, and takes the scan from one state to another. -/
structure Passes (isSeparator : Char → Bool) (s t : ScanState) (cs : List Char) : Prop where
  solid : cut isSeparator s cs = [cs]
  after : s.after cs = t

theorem Passes.nil (isSeparator : Char → Bool) (s : ScanState) : Passes isSeparator s s [] :=
  ⟨rfl, rfl⟩

theorem Passes.cons {t : ScanState} (hc : (s.isTop && !isSteering c && isSeparator c) = false)
    (hcs : Passes isSeparator (s.next c) t cs) : Passes isSeparator s t (c :: cs) :=
  ⟨cut_cons hc hcs.solid, hcs.after⟩

/-- What is not cut is continued by the first piece of what follows. -/
theorem Passes.cut_append {t : ScanState} (h : Passes isSeparator s t cs) {p : List Char}
    {ps : List (List Char)} (hds : cut isSeparator t ds = p :: ps) :
    cut isSeparator s (cs ++ ds) = (cs ++ p) :: ps := by
  obtain ⟨init, last, p', ps', hfirst, hsecond, hboth⟩ := Css.cut_append isSeparator s cs ds
  obtain ⟨rfl, rfl⟩ : init = [] ∧ cs = last := by
    rw [h.solid] at hfirst
    cases init with
    | nil => exact ⟨rfl, List.singleton_inj.mp hfirst⟩
    | cons q init => simp at hfirst
  rw [h.after, hds] at hsecond
  cases hsecond
  exact hboth

theorem Passes.append {t u : ScanState} (hcs : Passes isSeparator s t cs)
    (hds : Passes isSeparator t u ds) : Passes isSeparator s u (cs ++ ds) where
  solid := hcs.cut_append hds.solid
  after := by rw [ScanState.after_append, hcs.after, hds.after]

/-! ### First pieces -/

/-- `piece` is the first piece of a text, and `rest` is what follows it. -/
structure Heads (piece rest : List Char) : Prop where
  solid : cut isSpace {} piece = [piece]
  filled : piece ≠ []
  apart : ∀ c, rest.head? = some c → isSpace c = true ∧ ScanState.after {} piece = {}

theorem isSteering_of_isSpace (h : isSpace c = true) : isSteering c = false := by
  simp only [isSpace, Bool.or_eq_true, beq_iff_eq] at h
  rcases h with (((rfl | rfl) | rfl) | rfl) | rfl <;> decide

/-- **Behind its first piece a text is cut as it is by itself.** -/
theorem Heads.pieces_append (h : Heads piece rest) :
    pieces (piece ++ rest) = piece :: pieces rest := by
  unfold pieces piecesBy
  cases rest with
  | nil =>
    rw [List.append_nil, h.solid]
    simp [cut, h.filled]
  | cons c rest =>
    obtain ⟨hspace, htop⟩ := h.apart c rfl
    have hrest := cut_separator (isSteering_of_isSpace hspace) hspace rest
    have hpasses : Passes isSpace {} {} piece := ⟨h.solid, htop⟩
    rw [hpasses.cut_append hrest, hrest, List.append_nil]
    simp [h.filled]

/-- A text starts with a part that is not cut, up to where it is cut first. -/
theorem exists_solid (isSeparator : Char → Bool) (s : ScanState) (cs : List Char) :
    ∃ piece rest, cs = piece ++ rest ∧ cut isSeparator s piece = [piece] ∧
      ∀ c, rest.head? = some c →
        isSeparator c = true ∧ isSteering c = false ∧ s.after piece = {} := by
  induction cs generalizing s with
  | nil => exact ⟨[], [], rfl, rfl, by simp⟩
  | cons c cs ih =>
    by_cases hsep : (s.isTop && !isSteering c && isSeparator c) = true
    · refine ⟨[], c :: cs, rfl, rfl, fun d hd => ?_⟩
      cases hd
      simp only [Bool.and_eq_true, Bool.not_eq_true'] at hsep
      exact ⟨hsep.2, hsep.1.2, ScanState.isTop_iff.mp hsep.1.1⟩
    · rw [Bool.not_eq_true] at hsep
      obtain ⟨piece, rest, rfl, hsolid, hrest⟩ := ih (s.next c)
      exact ⟨c :: piece, rest, rfl, cut_cons hsep hsolid, hrest⟩

/-- A text that does not start with white space has a first piece, at its start. -/
theorem exists_heads (hne : cs ≠ []) (hfirst : ∀ c, cs.head? = some c → isSpace c = false) :
    ∃ piece rest, cs = piece ++ rest ∧ Heads piece rest := by
  obtain ⟨piece, rest, rfl, hsolid, hrest⟩ := exists_solid isSpace {} cs
  refine ⟨piece, rest, rfl, hsolid, ?_, fun c hc => ⟨(hrest c hc).1, (hrest c hc).2.2⟩⟩
  rintro rfl
  obtain ⟨c, more, rfl⟩ := List.exists_cons_of_ne_nil hne
  have hspace := (hrest c rfl).1
  rw [hfirst c rfl] at hspace
  cases hspace

/-! ### Quotes -/

theorem isQuote_iff {c : Char} : isQuote c = true ↔ c = '"' ∨ c = '\'' := by
  simp [isQuote]

theorem ne_backslash_of_isQuote {q : Char} (hq : isQuote q = true) : q ≠ '\\' := by
  rcases isQuote_iff.mp hq with rfl | rfl <;> decide

/-- Neither a quote nor a backslash. -/
def isLiteral (c : Char) : Bool := !isQuote c && c != '\\'

theorem isLiteral_iff {c : Char} : isLiteral c = true ↔ isQuote c = false ∧ c ≠ '\\' := by
  simp [isLiteral]

/-- Where a scan is not at the top level, a text that makes no difference to it is not cut. -/
theorem passes_inside {ok : Char → Bool} (htop : s.isTop = false)
    (hnext : ∀ c, ok c = true → s.next c = s) (hcs : Uses ok cs) : Passes isSeparator s s cs := by
  induction cs with
  | nil => exact .nil isSeparator s
  | cons c cs ih =>
    obtain ⟨hc, hcs⟩ := uses_cons.mp hcs
    refine .cons (by simp [htop]) ?_
    rw [hnext c hc]
    exact ih hcs

/-- A literal text in quotes is not cut, at any depth. -/
theorem passes_quoted {q : Char} (hq : isQuote q = true) (hcs : Uses isLiteral cs) (depth : Nat) :
    Passes isSeparator ⟨depth, none, false⟩ ⟨depth, none, false⟩ (q :: (cs ++ [q])) := by
  have hslash := ne_backslash_of_isQuote hq
  have hinside : Passes isSeparator ⟨depth, some q, false⟩ ⟨depth, some q, false⟩ cs := by
    refine passes_inside (by simp [ScanState.isTop]) (fun c hc => ?_) hcs
    obtain ⟨hquote, hc⟩ := isLiteral_iff.mp hc
    have hne : c ≠ q := by
      rintro rfl
      rw [hq] at hquote
      cases hquote
    simp [ScanState.next, hc, hne]
  refine .cons (by simp [isSteering, hq]) ?_
  have hopen : ScanState.next ⟨depth, none, false⟩ q = ⟨depth, some q, false⟩ := by
    simp [ScanState.next, hslash, hq]
  rw [hopen]
  refine hinside.append (.cons (by simp [ScanState.isTop]) ?_)
  simpa [ScanState.next, hslash] using Passes.nil isSeparator _

end Strata.Css
