import Strata.Text.Split

/-! Texts made of some characters.

What a text is cut into is made of the characters of the text, and what is put
together is made of those of its parts. -/
namespace Strata.Text

variable {ok : Char → Bool} {cs ds : List Char} {sep : Char}

/-- All characters of a text are of one kind. -/
def Uses (ok : Char → Bool) (cs : List Char) : Prop := ∀ c ∈ cs, ok c = true

instance : Decidable (Uses ok cs) := List.decidableBAll (ok · = true) cs

theorem uses_nil : Uses ok [] := by
  intro c hc
  cases hc

theorem uses_append : Uses ok (cs ++ ds) ↔ Uses ok cs ∧ Uses ok ds := List.forall_mem_append

theorem uses_cons {c : Char} : Uses ok (c :: cs) ↔ ok c = true ∧ Uses ok cs := List.forall_mem_cons

theorem Uses.of_subset (h : Uses ok ds) (hsub : cs ⊆ ds) : Uses ok cs := fun c hc => h c (hsub hc)

theorem Uses.splitAll (h : Uses ok cs) {piece : List Char} (hp : piece ∈ splitAll sep cs) :
    Uses ok piece := by
  induction cs generalizing piece with
  | nil =>
    cases List.mem_singleton.mp hp
    exact uses_nil
  | cons c cs ih =>
    obtain ⟨hc, hcs⟩ := uses_cons.mp h
    unfold Text.splitAll at hp
    split at hp
    · rcases List.mem_cons.mp hp with rfl | hp
      · exact uses_nil
      · exact ih hcs hp
    · split at hp
      · next hnil => exact absurd hnil (splitAll_ne_nil sep cs)
      · next first rest hpieces =>
        rcases List.mem_cons.mp hp with rfl | hp
        · exact uses_cons.mpr ⟨hc, ih hcs (hpieces ▸ List.mem_cons_self ..)⟩
        · exact ih hcs (hpieces ▸ List.mem_cons_of_mem _ hp)

theorem Uses.dropEndChar (h : Uses ok cs) : Uses ok (dropEndChar sep cs) :=
  h.of_subset fun _ hc =>
    List.mem_reverse.mp ((List.dropWhile_sublist _).subset (List.mem_reverse.mp hc))

theorem uses_intercalate {pieces : List (List Char)} (hsep : Uses ok ds)
    (h : ∀ p ∈ pieces, Uses ok p) : Uses ok (ds.intercalate pieces) := by
  induction pieces with
  | nil => exact uses_nil
  | cons p pieces ih =>
    obtain ⟨hp, hpieces⟩ := List.forall_mem_cons.mp h
    cases pieces with
    | nil => simpa [List.intercalate] using hp
    | cons q pieces =>
      have hrest := ih hpieces
      simp only [List.intercalate, List.intersperse, List.flatten_cons, uses_append] at hrest ⊢
      exact ⟨hp, hsep, hrest⟩

/-! ### Small letters -/

/-- A capital letter gets small, and no other character changes. -/
theorem toLower_cases (c : Char) : c.toLower = c ∨ c.isUpper = true ∧ c.toLower.isLower = true := by
  unfold Char.toLower
  split
  · next h =>
    right
    unfold Char.isUpper Char.isLower
    refine ⟨by simpa using h, ?_⟩
    simp [UInt32.le_iff_toNat_le] at h ⊢
    omega
  · exact Or.inl rfl

theorem eq_of_toLower {c d : Char} (hd : d.isLower = false) (h : c.toLower = d) : c = d := by
  rcases toLower_cases c with heq | ⟨-, hlower⟩
  · rwa [heq] at h
  · rw [h, hd] at hlower
    cases hlower

end Strata.Text
