import Strata.Proofs.Css.Pieces

/-! Where a parameter list is cut.

A text is cut at a separator that does not steer the scan and is met at the top level (`CutsAt`). The
pieces are the slices between such places, and nothing else of the text is left out (`Segmented`). What is
in front of a cut and what is behind it are segmented by themselves, so the spans of the whole are the
spans of both (`Segmented.append`). -/
namespace Strata.Css

variable {isSeparator : Char → Bool} {s : ScanState} {c : Char} {a b cs : List Char} {i : Nat}
  {spans more : List (Nat × Nat)}

/-- The character at `i` is a separator, no quote, bracket or backslash, and a scan from `s` meets it
outside brackets and quotes and not behind a backslash. -/
def CutsAt (isSeparator : Char → Bool) (s : ScanState) (cs : List Char) (i : Nat) : Prop :=
  ∃ c, cs[i]? = some c ∧ isSeparator c = true ∧ isSteering c = false ∧
    (s.after (cs.take i)).isTop = true

/-- The characters between two places. -/
def slice (cs : List Char) (span : Nat × Nat) : List Char := (cs.take span.2).drop span.1

/-- One of the spans holds the place. -/
def Covers (spans : List (Nat × Nat)) (i : Nat) : Prop := ∃ span ∈ spans, span.1 ≤ i ∧ i < span.2

/-- Spans that hold all characters of a text but those that cut it, in order and with a cut between. -/
structure Segmented (isSeparator : Char → Bool) (cs : List Char) (spans : List (Nat × Nat)) :
    Prop where
  filled : ∀ span ∈ spans, span.1 < span.2 ∧ span.2 ≤ cs.length
  apart : spans.Pairwise fun span other => span.2 < other.1
  covered : ∀ i < cs.length, Covers spans i ↔ ¬ CutsAt isSeparator {} cs i

/-! ### Cuts -/

theorem not_cutsAt_of_solid (h : cut isSeparator s cs = [cs]) : ¬ CutsAt isSeparator s cs i := by
  induction cs generalizing s i with
  | nil =>
    rintro ⟨c, hc, -⟩
    cases hc
  | cons c cs ih =>
    by_cases hsep : (s.isTop && !isSteering c && isSeparator c) = true
    · rw [cut, if_pos hsep] at h
      cases h
    · rw [Bool.not_eq_true] at hsep
      obtain ⟨p, ps, hp⟩ := List.exists_cons_of_ne_nil (cut_ne_nil isSeparator (s.next c) cs)
      rw [cut_cons hsep hp] at h
      obtain ⟨hhead, rfl⟩ := List.cons.inj h
      rw [(List.cons.inj hhead).2] at hp
      cases i with
      | zero =>
        rintro ⟨d, hd, hseparator, hsteering, htop⟩
        cases hd
        have htop : s.isTop = true := htop
        simp [htop, hseparator, hsteering] at hsep
      | succ i => exact ih hp

theorem cutsAt_front (b : List Char) (hi : i < a.length) :
    CutsAt isSeparator s (a ++ b) i ↔ CutsAt isSeparator s a i := by
  unfold CutsAt
  rw [List.getElem?_append_left hi, List.take_append_of_le_length (Nat.le_of_lt hi)]

section cut

variable (hsep : isSeparator c = true) (hc : isSteering c = false) (ha : ScanState.after {} a = {})
include hsep hc ha

theorem cutsAt_between (b : List Char) : CutsAt isSeparator {} (a ++ c :: b) a.length := by
  refine ⟨c, by simp, hsep, hc, ?_⟩
  rw [List.take_left, ha]
  rfl

omit hsep in
theorem cutsAt_behind (b : List Char) (i : Nat) :
    CutsAt isSeparator {} (a ++ c :: b) (a.length + 1 + i) ↔ CutsAt isSeparator {} b i := by
  have hafter : ScanState.after {} (a ++ [c]) = {} := by
    rw [ScanState.after_append, ha]
    exact ScanState.next_of_not_steering hc 0
  have hlen : a.length + 1 = (a ++ [c]).length := by simp
  unfold CutsAt
  rw [List.append_cons, hlen, List.getElem?_append_right (Nat.le_add_right ..),
    List.take_length_add_append, ScanState.after_append, hafter, Nat.add_sub_cancel_left]

/-- **The pieces in front of a cut are followed by those behind it.** -/
theorem piecesBy_append (b : List Char) :
    piecesBy isSeparator (a ++ c :: b) = piecesBy isSeparator a ++ piecesBy isSeparator b := by
  obtain ⟨init, last, p, ps, hfirst, hsecond, hboth⟩ := cut_append isSeparator {} a (c :: b)
  rw [ha, cut_separator hc hsep] at hsecond
  obtain ⟨rfl, rfl⟩ := List.cons.inj hsecond
  unfold piecesBy
  rw [hfirst, hboth, List.append_nil, ← List.filter_append, List.append_cons]

end cut

/-! ### Segments -/

/-- A span, `n` characters further on. -/
def moved (n : Nat) (span : Nat × Nat) : Nat × Nat := (n + span.1, n + span.2)

theorem slice_front (b : List Char) {span : Nat × Nat} (h : span.2 ≤ a.length) :
    slice (a ++ b) span = slice a span := by
  rw [slice, slice, List.take_append_of_le_length h]

theorem slice_moved (a b : List Char) (span : Nat × Nat) :
    slice (a ++ b) (moved a.length span) = slice b span := by
  simp only [slice, moved, List.take_length_add_append, List.drop_length_add_append]

theorem covers_append : Covers (spans ++ more) i ↔ Covers spans i ∨ Covers more i := by
  simp only [Covers, List.mem_append, or_and_right, exists_or]

theorem covers_moved (n : Nat) : Covers (spans.map (moved n)) (n + i) ↔ Covers spans i := by
  constructor
  · rintro ⟨span, hspan, hle, hlt⟩
    obtain ⟨front, hfront, rfl⟩ := List.mem_map.mp hspan
    exact ⟨front, hfront, Nat.le_of_add_le_add_left hle, Nat.lt_of_add_lt_add_left hlt⟩
  · rintro ⟨span, hspan, hle, hlt⟩
    exact ⟨moved n span, List.mem_map_of_mem hspan, Nat.add_le_add_left hle n,
      Nat.add_lt_add_left hlt n⟩

theorem not_covers_moved {n : Nat} (h : i < n) : ¬ Covers (spans.map (moved n)) i := by
  rintro ⟨span, hspan, hle, -⟩
  obtain ⟨front, -, rfl⟩ := List.mem_map.mp hspan
  simp only [moved] at hle
  omega

namespace Segmented

theorem not_covers (h : Segmented isSeparator cs spans) (hi : cs.length ≤ i) : ¬ Covers spans i := by
  rintro ⟨span, hspan, -, hlt⟩
  have hle := (h.filled span hspan).2
  omega

/-- What is not cut is one segment, or none when it is empty. -/
theorem solid (h : cut isSeparator {} cs = [cs]) : ∃ spans, Segmented isSeparator cs spans ∧
    piecesBy isSeparator cs = spans.map (slice cs) := by
  cases cs with
  | nil => exact ⟨[], ⟨by simp, .nil, fun i hi => absurd hi (Nat.not_lt_zero i)⟩, rfl⟩
  | cons c cs =>
    refine ⟨[(0, (c :: cs).length)], ⟨by simp, List.pairwise_singleton _ _, fun i hi => ?_⟩, ?_⟩
    · exact iff_of_true ⟨_, List.mem_singleton_self _, Nat.zero_le i, hi⟩ (not_cutsAt_of_solid h)
    · rw [piecesBy, h]
      simp [slice]

/-- **What is in front of a cut and what is behind it are segmented by themselves.** -/
theorem append (hsep : isSeparator c = true) (hc : isSteering c = false)
    (htop : ScanState.after {} a = {}) (ha : Segmented isSeparator a spans)
    (hb : Segmented isSeparator b more) :
    Segmented isSeparator (a ++ c :: b) (spans ++ more.map (moved (a.length + 1))) where
  filled := by
    intro span hspan
    rw [List.length_append, List.length_cons]
    rcases List.mem_append.mp hspan with hspan | hspan
    · have hfilled := ha.filled span hspan
      omega
    · obtain ⟨behind, hbehind, rfl⟩ := List.mem_map.mp hspan
      have hfilled := hb.filled behind hbehind
      simp only [moved]
      omega
  apart := by
    refine List.pairwise_append.mpr ⟨ha.apart, List.pairwise_map.mpr (hb.apart.imp fun h => ?_), ?_⟩
    · exact Nat.add_lt_add_left h _
    · intro span hspan other hother
      obtain ⟨behind, -, rfl⟩ := List.mem_map.mp hother
      have hfilled := ha.filled span hspan
      simp only [moved]
      omega
  covered := by
    intro i hi
    rw [covers_append]
    rcases Nat.lt_trichotomy i a.length with hlt | rfl | hgt
    · rw [or_iff_left (not_covers_moved (Nat.lt_succ_of_lt hlt)), ha.covered i hlt,
        cutsAt_front _ hlt]
    · have hcut := cutsAt_between hsep hc htop b
      exact iff_of_false (not_or.mpr ⟨ha.not_covers (Nat.le_refl _),
        not_covers_moved (Nat.lt_succ_self _)⟩) (fun hno => hno hcut)
    · obtain ⟨j, rfl⟩ := Nat.exists_eq_add_of_le (Nat.succ_le_of_lt hgt)
      rw [List.length_append, List.length_cons] at hi
      rw [or_iff_right (ha.not_covers (Nat.le_of_lt hgt)), covers_moved, hb.covered j (by omega),
        cutsAt_behind hc htop]

end Segmented

/-- A text is segmented, by induction over its cuts. -/
theorem exists_segmented (isSeparator : Char → Bool) (cs : List Char) :
    ∃ spans, Segmented isSeparator cs spans ∧ piecesBy isSeparator cs = spans.map (slice cs) := by
  induction hlen : cs.length using Nat.strongRecOn generalizing cs with
  | _ n ih =>
    obtain ⟨piece, rest, rfl, hsolid, hrest⟩ := exists_solid isSeparator {} cs
    obtain ⟨spans, hspans, hpiece⟩ := Segmented.solid hsolid
    cases rest with
    | nil =>
      rw [List.append_nil]
      exact ⟨spans, hspans, hpiece⟩
    | cons c rest =>
      obtain ⟨hsep, hc, htop⟩ := hrest c rfl
      obtain ⟨more, hmore, hbehind⟩ := ih rest.length (by simp [← hlen]; omega) rest rfl
      refine ⟨spans ++ more.map (moved (piece.length + 1)), hspans.append hsep hc htop hmore, ?_⟩
      rw [piecesBy_append hsep hc htop, hpiece, hbehind, List.map_append, List.map_map]
      congr 1
      · exact List.map_congr_left fun span hspan => (slice_front _ (hspans.filled span hspan).2).symm
      · refine List.map_congr_left fun span _ => ?_
        rw [List.append_cons, ← List.length_singleton, ← List.length_append]
        exact (slice_moved _ _ span).symm

/-- **The pieces of a text are the slices between its cuts**, and a cut may be made first: the pieces
behind it do not depend on what is in front. -/
theorem pieces_between_cuts (isSeparator : Char → Bool) :
    (∀ cs, ∃ spans, Segmented isSeparator cs spans ∧
      piecesBy isSeparator cs = spans.map (slice cs)) ∧
    ∀ a b c, isSeparator c = true → isSteering c = false → ScanState.after {} a = {} →
      piecesBy isSeparator (a ++ c :: b) = piecesBy isSeparator a ++ piecesBy isSeparator b :=
  ⟨exists_segmented isSeparator, fun _ b _ hsep hc htop => piecesBy_append hsep hc htop b⟩

end Strata.Css
