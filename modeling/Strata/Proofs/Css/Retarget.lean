import Strata.Proofs.Css.ImportParams
import Strata.Proofs.Text.Blank

/-! Another specifier in the target.

The target of an import is the first piece of its parameters. Written with another specifier it is
again one piece, of the same form, so what is read from the new parameters is what was read from the
old ones but for the specifier (`retargets`). The specifier has to fit between any quotes and into
`url(…)` without them (`Fits`). -/
namespace Strata.Css

open Text

variable {params s r : String} {piece rest spec : List Char} {form : TargetForm}

/-- No quote, no bracket and no backslash. -/
abbrev Unsteering (cs : List Char) : Prop := Uses (fun c => !isSteering c) cs

/-- The specifier can be written in every form of target, and be found again. -/
structure Fits (s : String) : Prop where
  filled : s.toList ≠ []
  unsteering : Unsteering s.toList
  trimmed : Trimmed s.toList

theorem isLiteral_of_not_steering {c : Char} (h : isSteering c = false) : isLiteral c = true := by
  simp only [isSteering, Bool.or_eq_false_iff, beq_eq_false_iff_ne] at h
  exact isLiteral_iff.mpr ⟨h.1.1.1, h.2⟩

theorem Unsteering.literal {cs : List Char} (h : Unsteering cs) : Uses isLiteral cs :=
  fun c hc => isLiteral_of_not_steering (Bool.not_eq_true' _ ▸ h c hc)

/-- A text that does not start with a quote is not in quotes. -/
theorem unquote?_eq_none {cs : List Char} (h : ∀ c, cs.head? = some c → isQuote c = false) :
    unquote? cs = none := by
  unfold unquote?
  split
  · next q c more => simp [h q rfl]
  · rfl

/-! ### Reading -/

/-- The parameters of an import start with their target. -/
theorem importTarget?_of_heads (htrim : trim params.toList = piece ++ rest) (h : Heads piece rest)
    (hread : readTarget? piece = some (form, spec)) :
    importTarget? params = some ⟨form, spec, rest⟩ := by
  simp [importTarget?, htrim, h.pieces_append, hread]

theorem exists_of_importTarget? {target : ImportTarget} (h : importTarget? params = some target) :
    ∃ piece, trim params.toList = piece ++ target.modifiers ∧ Heads piece target.modifiers ∧
      readTarget? piece = some (target.form, target.specifier) := by
  have hne : trim params.toList ≠ [] := by
    intro hnil
    simp [importTarget?, hnil, pieces, piecesBy, cut] at h
  have hfirst (c : Char) (hc : (trim params.toList).head? = some c) : isSpace c = false := by
    have hblank := (trimmed_trim params.toList).first c hc
    rw [← Bool.not_eq_true] at hblank ⊢
    exact fun hspace => hblank (isBlank_of_isSpace hspace)
  obtain ⟨piece, rest, htrim, hheads⟩ := exists_heads hne hfirst
  cases hread : readTarget? piece with
  | none => simp [importTarget?, htrim, hheads.pieces_append, hread] at h
  | some held =>
    rw [importTarget?_of_heads htrim hheads hread] at h
    cases h
    exact ⟨piece, htrim, hheads, hread⟩

/-- The modifiers alone name the layers. -/
theorem layerNames_congr {new : List Char} (htrim : trim params.toList = piece ++ rest)
    (h : Heads piece rest) (htrim' : trim r.toList = new ++ rest) (h' : Heads new rest) :
    layerNames r = layerNames params := by
  rw [layerNames, layerNames, htrim, htrim', h.pieces_append, h'.pieces_append, List.drop_one,
    List.drop_one, List.tail_cons, List.tail_cons]

/-! ### Writing -/

/-- Any quote of the form is one. -/
def TargetForm.WellQuoted (form : TargetForm) : Prop :=
  ∀ q, form = .quoted q ∨ form = .url (some q) → isQuote q = true

theorem toList_url (inner : String) :
    ("url(" ++ inner ++ ")").toList = 'u' :: 'r' :: 'l' :: '(' :: (inner.toList ++ [')']) := by
  simp [String.toList_append]

theorem passes_url {inner : List Char}
    (h : Passes isSpace ⟨1, none, false⟩ ⟨1, none, false⟩ inner) :
    Passes isSpace {} {} ('u' :: 'r' :: 'l' :: '(' :: (inner ++ [')'])) := by
  have hclose : Passes isSpace ⟨1, none, false⟩ {} [')'] :=
    .cons (by decide) (.nil isSpace {})
  exact .cons (by decide) (.cons (by decide) (.cons (by decide) (.cons (by decide)
    (h.append hclose))))

/-- **A written target is not cut.** -/
theorem passes_write (hform : form.WellQuoted) (hs : Fits s) :
    Passes isSpace {} {} (form.write s).toList := by
  have hliteral := hs.unsteering.literal
  match form with
  | .quoted q =>
    rw [TargetForm.write, toList_plainImport]
    exact passes_quoted (hform q (.inl rfl)) hliteral 0
  | .url (some q) =>
    rw [TargetForm.write, toList_url, toList_plainImport]
    exact passes_url (passes_quoted (hform q (.inr rfl)) hliteral 1)
  | .url none =>
    rw [TargetForm.write, toList_url]
    refine passes_url (passes_inside rfl (fun c hc => ?_) hs.unsteering)
    exact ScanState.next_of_not_steering (Bool.not_eq_true' _ ▸ hc) 1

theorem readTarget?_url {inner : List Char} :
    readTarget? ('u' :: 'r' :: 'l' :: '(' :: (inner ++ [')'])) =
      match unquote? (trim inner) with
      | some (q, specifier) => some (.url (some q), specifier)
      | none => if (trim inner).isEmpty then none else some (.url none, trim inner) := by
  have hargument : argument? "url(" ('u' :: 'r' :: 'l' :: '(' :: (inner ++ [')'])) = some inner := by
    simp [argument?, afterCaseless?, before?]
  rw [readTarget?, unquote?_eq_none (by simp [isQuote]), hargument]
  rfl

/-- **A written target is read back.** -/
theorem readTarget?_write (hform : form.WellQuoted) (hs : Fits s) :
    readTarget? (form.write s).toList = some (form, s.toList) := by
  match form with
  | .quoted q =>
    rw [TargetForm.write, toList_plainImport, readTarget?, unquote?_quoted (hform q (.inl rfl))]
  | .url (some q) =>
    have hq := hform q (.inr rfl)
    rw [TargetForm.write, toList_url, toList_plainImport, readTarget?_url, trim_quoted hq,
      unquote?_quoted hq]
  | .url none =>
    have hfirst (c : Char) (hc : s.toList.head? = some c) : isQuote c = false :=
      (isLiteral_iff.mp (hs.unsteering.literal c (List.mem_of_mem_head? hc))).1
    rw [TargetForm.write, toList_url, readTarget?_url, hs.trimmed.trim_eq,
      unquote?_eq_none hfirst]
    simp [hs.filled]

theorem trimmed_enclosed {c d : Char} (hc : isBlank c = false) (hd : isBlank d = false)
    (cs : List Char) : Trimmed (c :: (cs ++ [d])) where
  first b hb := by
    cases hb
    exact hc
  last b hb := by
    rw [← List.cons_append, List.getLast?_concat] at hb
    cases hb
    exact hd

/-- No blank stands at either end of a written target. -/
theorem trimmed_write (hform : form.WellQuoted) (s : String) : Trimmed (form.write s).toList := by
  match form with
  | .quoted q =>
    have hblank := isBlank_of_isQuote (hform q (.inl rfl))
    rw [TargetForm.write, toList_plainImport]
    exact trimmed_enclosed hblank hblank s.toList
  | .url quote =>
    obtain ⟨inner, hinner⟩ : ∃ inner, TargetForm.write (.url quote) s = "url(" ++ inner ++ ")" := by
      cases quote <;> exact ⟨_, rfl⟩
    rw [hinner, toList_url]
    exact trimmed_enclosed (by decide) (by decide) ('r' :: 'l' :: '(' :: inner.toList)

/-! ### Exchange -/

/-- The parameters `r` are `params` with the specifier `s` in the target. -/
structure Retargets (params s r : String) : Prop where
  specifier : specifier? r = some s
  quote : importQuote r = importQuote params
  layers : layerNames r = layerNames params
  /-- What stands behind the target is kept. -/
  kept : ∃ old new rest, (pieces (trim params.toList)).head? = some old ∧
    trim params.toList = old ++ rest ∧ (pieces r.toList).head? = some new ∧ r.toList = new ++ rest
  /-- Only the last of two exchanges counts. -/
  again : ∀ t, replaceTarget? r t = replaceTarget? params t

/-- Nothing but the specifier of the target is exchanged. -/
theorem importTarget?_exchanged {target : ImportTarget} (h : importTarget? params = some target)
    (hs : Fits s) (hr : r = target.form.write s ++ .ofList target.modifiers) :
    importTarget? r = some { target with specifier := s.toList } ∧
      Heads (target.form.write s).toList target.modifiers ∧ trim r.toList = r.toList := by
  obtain ⟨piece, htrim, hheads, hread⟩ := exists_of_importTarget? h
  have hform : target.form.WellQuoted := fun q => isQuote_of_readTarget? hread
  have hlist : r.toList = (target.form.write s).toList ++ target.modifiers := by
    rw [hr, String.toList_append, String.toList_ofList]
  have hpasses := passes_write hform hs
  have hread' := readTarget?_write hform hs
  have hfilled : (target.form.write s).toList ≠ [] := by
    intro hnil
    rw [hnil] at hread'
    simp [readTarget?, unquote?, argument?, afterCaseless?] at hread'
  have hheads' : Heads (target.form.write s).toList target.modifiers :=
    ⟨hpasses.solid, hfilled, fun c hc => ⟨(hheads.apart c hc).1, hpasses.after⟩⟩
  have htrimmed : Trimmed r.toList := by
    rw [hlist]
    exact (trimmed_write hform s).append_of_end hfilled (htrim ▸ trimmed_trim params.toList)
  exact ⟨importTarget?_of_heads (by rw [htrimmed.trim_eq, hlist]) hheads' hread', hheads',
    htrimmed.trim_eq⟩

/-- **Exchanging the specifier of a target obeys the laws of a lens.** The new specifier is read back,
everything else is read as before, and a later exchange forgets an earlier one. -/
theorem retargets (h : replaceTarget? params s = some r) (hs : Fits s) : Retargets params s r := by
  obtain ⟨target, htarget, hr⟩ := Option.map_eq_some_iff.mp h
  obtain ⟨piece, htrim, hheads, -⟩ := exists_of_importTarget? htarget
  obtain ⟨htarget', hheads', htrim'⟩ := importTarget?_exchanged htarget hs hr.symm
  have hlist : r.toList = (target.form.write s).toList ++ target.modifiers := by
    rw [← hr, String.toList_append, String.toList_ofList]
  rw [hlist] at htrim'
  exact {
    specifier := by simp [specifier?, htarget', hs.filled]
    quote := by simp [importQuote, htarget', htarget]
    layers := layerNames_congr htrim hheads (by rw [hlist, htrim']) hheads'
    kept := ⟨piece, _, _, by rw [htrim, hheads.pieces_append]; rfl, htrim,
      by rw [hlist, hheads'.pieces_append]; rfl, hlist⟩
    again := fun t => by simp [replaceTarget?, htarget', htarget] }

/-- Quotes in `url(…)`, the layer and the media are kept. -/
theorem retargets_url_in_layer :
    replaceTarget? " URL( 'a.css' )\n  layer(base) screen" "./b c.css" =
        some "url('./b c.css')\n  layer(base) screen" ∧
      Retargets " URL( 'a.css' )\n  layer(base) screen" "./b c.css"
        "url('./b c.css')\n  layer(base) screen" := by
  have hexchanged : replaceTarget? " URL( 'a.css' )\n  layer(base) screen" "./b c.css" =
      some "url('./b c.css')\n  layer(base) screen" := by decide +kernel
  have htrimmed : Trimmed "./b c.css".toList := by
    have h := trimmed_trim "./b c.css".toList
    rwa [show trim "./b c.css".toList = "./b c.css".toList by decide +kernel] at h
  exact ⟨hexchanged, retargets hexchanged ⟨by decide, by decide, htrimmed⟩⟩

end Strata.Css
