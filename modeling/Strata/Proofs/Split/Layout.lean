import Strata.Proofs.Split.Errands

/-! What a derived stylesheet holds.

Utilities move donor by donor, those of a later donor in front of the others (`Divided.top`).
Companions then line up in front of all of them, as no utility is an import (`Parted.fronted`). -/
namespace Strata.Workspace

open Forest

variable {w v u : Workspace} {settings : Settings} {d : Derivations}

/-- What a split makes of the donors and of their derived stylesheets. -/
structure LaidOut (w : Workspace) (settings : Settings) (d : Derivations) (u : Workspace) : Prop where
  /-- The stylesheets that are new are those that utilities go to. -/
  made : ∀ derived, d.donorsOf derived ≠ [] ↔ w.sheets.size ≤ derived ∧ derived < u.sheets.size
  /-- Below the root there are companions, and behind them the utilities of the donors, those of the
  last donor in front. -/
  top : ∀ derived t, w.sheets.size ≤ derived → u.get? derived = some t → ∃ imports,
    u.doc.children t.root =
      imports ++ (d.donorsOf derived).reverse.flatMap (w.utilities settings) ∧
    ∀ c ∈ imports, u.doc.IsCompanion c
  kept : ∀ donor derived x, (donor, derived) ∈ d.pairs → x ∈ w.utilities settings donor →
    u.doc.get? x = w.doc.get? x
  /-- No utility is left in a donor. -/
  emptied : ∀ donor derived x, (donor, derived) ∈ d.pairs → u.sheetOf? x = some donor →
    (u.doc.get? x).any (Node.isAt settings.atRule) = false
  nodup : (d.pairs.map Prod.fst).Nodup
  /-- The donors are decided on before anything moves, and there is one decision. -/
  decided : ∀ S, w.Decides settings S ↔ S = fun id => id ∈ d.pairs.map Prod.fst

namespace Parted

variable (h : Parted w settings d v u)
include h

theorem decides_iff (hw : w.Analysed) (S : SheetId → Prop) :
    w.Decides settings S ↔ S = fun id => id ∈ d.pairs.map Prod.fst := by
  have hsplits : w.Splits settings = fun id => id ∈ d.pairs.map Prod.fst := by
    funext id
    rw [h.donors]
    exact propext (mem_donors hw id).symm
  rw [← hsplits]
  refine ⟨fun hS => ?_, ?_⟩
  · exact Decides.unique hw.not_importsAuthored_cycle hw.decides_splits hS
  · rintro rfl
    exact hw.decides_splits

variable (hw : w.Recorded)
include hw

omit h in
/-- An outermost at-rule with the name has moved, so none is left within another either. -/
theorem not_isAt_of_unmoved {donor derived : SheetId} {x : NodeId} (hp : (donor, derived) ∈ d.pairs)
    (hx : w.sheetOf? x = some donor) (hu : w.Unmoved settings d.pairs x) :
    (w.doc.get? x).any (Node.isAt settings.atRule) = false := by
  obtain ⟨hlive, s, hs, hwithin⟩ := hw.tidy.sheetOf?_eq_some.mp hx
  rcases within_iff.mp hwithin with rfl | hbelow
  · obtain ⟨n, hn⟩ := contains_iff_get?.mp hlive
    have hn' : w.doc.get? s.root = some n := hn
    rw [hn', Option.any_some]
    exact isAt_of_isRoot ((Document.Tidy.form hw.tidy s.root n hn).mpr (root_mem_roots hs)) _
  · by_contra hat
    rw [Bool.not_eq_false] at hat
    obtain ⟨a, ha, hax⟩ := hw.tidy.wellFormed.exists_outermost hbelow hat
    have hutility : a ∈ w.utilities settings donor := by rwa [utilities, hs]
    have hno := hu a hax
    rw [isMoved_iff.mpr ⟨donor, derived, hp, hutility⟩] at hno
    cases hno

variable (hat : Text.sameCaseless settings.atRule "import" = false)
include hat

theorem emptied {donor derived : SheetId} {x : NodeId} (hp : (donor, derived) ∈ d.pairs)
    (hx : u.sheetOf? x = some donor) : (u.doc.get? x).any (Node.isAt settings.atRule) = false := by
  by_contra hname
  rw [Bool.not_eq_false] at hname
  obtain ⟨n, hn, hname⟩ := (Option.any_eq_true _ _).mp hname
  have himport := isImportRule_of_isAt hat hname
  cases hv : v.doc.contains x with
  | false =>
    obtain ⟨⟨m, hm, hmi, -⟩, -⟩ := h.accompanied.added x (contains_iff_get?.mpr ⟨n, hn⟩) hv
    cases hn.symm.trans hm
    rw [hmi] at himport
    cases himport
  | true =>
    have hnv : v.doc.get? x = some n := (h.accompanied.grown.data x hv).symm.trans hn
    rw [h.accompanied.sheetOf?_base h.divided.tidy hv] at hx
    rcases (h.divided.live x).mp hv with hlive | ⟨id, t, hid, ht, rfl⟩
    · rcases unmoved_or_carried w settings d.pairs x with hu | ⟨_, hc⟩
      · rw [h.divided.sheetOf?_unmoved hw.tidy hlive hu] at hx
        have hno := not_isAt_of_unmoved hw hp hx hu
        rw [h.divided.data x hlive] at hnv
        rw [hnv, Option.any_some, hname] at hno
        cases hno
      · rw [h.divided.sheetOf?_carried hw.tidy hc] at hx
        cases hx
        obtain ⟨own, hown, -⟩ := hc.donor hw.tidy
        exact absurd (h.lt_size hp) (Nat.not_lt.mpr (h.divided.pair own _ hown).1)
    · rw [h.divided.form id t hid ht] at hnv
      cases hnv
      cases hname

/-- Below the root of a derived stylesheet there is no import before companions are added. -/
theorem importless {derived : SheetId} {t : Sheet} (hle : w.sheets.size ≤ derived)
    (ht : v.get? derived = some t) : Importless v.doc t.root := by
  intro c hc
  rw [h.divided.top derived t hle ht] at hc
  obtain ⟨donor, hp, hutility⟩ := mem_utilitiesFor.mp hc
  obtain ⟨s, hs, -⟩ := exists_sheet_of_utility hw.tidy hutility
  obtain ⟨n, hn, hname⟩ :=
    (Option.any_eq_true _ _).mp ((mem_utilities hw.tidy hs).mp hutility).2.1
  rw [h.divided.data c (live_utility hw.tidy hutility), hn]
  exact isImportRule_of_isAt hat hname

/-- The top of a derived stylesheet: companions in a line, and behind them the utilities. -/
theorem exists_line {derived : SheetId} {t : Sheet} (hle : w.sheets.size ≤ derived)
    (ht : u.get? derived = some t) : ∃ line,
      Line v u d (v.errands d.pairs) derived t.root line ∧
      u.doc.children t.root = line ++ w.utilitiesFor settings d.pairs derived := by
  obtain ⟨s, hs, hst⟩ := h.accompanied.sheet derived t ht
  rw [hst.root]
  obtain ⟨line, hline⟩ := h.fronted hw derived s hs (h.importless hw hat hle hs)
  exact ⟨line, hline, by rw [hline.children, h.divided.top derived s hle hs]⟩

omit hw hat in
theorem laidOut (hw : w.Analysed) (hat : Text.sameCaseless settings.atRule "import" = false) :
    LaidOut w settings d u where
  made derived := by
    constructor
    · intro hne
      obtain ⟨donor, hm⟩ := List.exists_mem_of_ne_nil _ hne
      have hp := Derivations.mem_donorsOf.mp hm
      obtain ⟨hle, hlt⟩ := h.divided.pair donor derived hp
      exact ⟨hle, h.size ▸ hlt⟩
    · rintro ⟨hle, hlt⟩
      obtain ⟨donor, hp⟩ := h.beside.donor derived hle (h.size ▸ hlt)
      exact List.ne_nil_of_mem (Derivations.mem_donorsOf.mpr hp)
  top derived t hle ht := by
    obtain ⟨line, hline, hchildren⟩ := h.exists_line hw hat hle ht
    refine ⟨line, hchildren, fun c hc => ?_⟩
    obtain ⟨n, hn, hadded, himport⟩ := hline.get? h.accompanied hc
    exact ⟨n, hn, himport, hadded⟩
  kept donor derived x _ hx := h.data (live_utility hw.tidy hx)
  emptied donor derived x hp := h.emptied hw hat hp
  nodup := by
    rw [h.donors]
    exact donors_nodup w settings
  decided := h.decides_iff hw

end Parted

/-- **A derived stylesheet holds the utilities of its donors, those of the last in front, behind
imports that were added, and the donors hold none.** -/
theorem laid_out_by_split (sources : List (Option FilePath × String)) (resolve : Resolution)
    (base : FilePath) (settings : Settings)
    (hat : Text.sameCaseless settings.atRule "import" = false) {table : List (List SheetId)}
    {w : Workspace}
    (hl : ((filled sources).connect resolve base).1.inheritLayers = .ok (table, w)) :
    ∃ u d, w.split settings = .ok (u, d) ∧ LaidOut w settings d u := by
  have hw := analysed (fresh_filled sources) hl
  obtain ⟨v, u, d, hsplit, h⟩ := exists_split hw settings
  exact ⟨u, d, hsplit, h.laidOut hw hat⟩

/-- Two stylesheets that share a derived one, and a third that one of them imports. -/
def sharedTop : List (Option FilePath × String) :=
  [(some ⟨"/p/root.css"⟩,
      "@import './lib' layer(utilities);\n@import './lib/lib.css' layer(utilities);"),
    (some ⟨"/p/lib/index.css"⟩, "@import '../x.css';\nh1 {}\n@utility a { c: d }"),
    (some ⟨"/p/lib/lib.css"⟩, "h1 {}\n@utility b { c: d }"),
    (some ⟨"/p/x.css"⟩, "h1 {}\n@utility x { c: d }")]

/-- The utility of the second stands in front, behind the import of what the third is split into. -/
theorem laid_out_shared : ∃ table w u d, ((filled sharedTop).connect
      (.known (sharedTop.filterMap Prod.fst)) ⟨"/p"⟩).1.inheritLayers = .ok (table, w) ∧
    w.split {} = .ok (u, d) ∧ d.pairs = [(1, 4), (2, 4), (3, 5)] ∧
    (u.get? 4).map (fun t => (u.doc.children t.root).map fun c => (u.doc.get? c).bind Node.params?) =
      some [some "'../x.utilities.css'", some "b", some "a"] ∧
    LaidOut w {} d u := by
  have hrun : splitsWith sharedTop (.known (sharedTop.filterMap Prod.fst)) ⟨"/p"⟩ {}
      (fun _ u d => d.pairs == [(1, 4), (2, 4), (3, 5)] && (u.get? 4).map (fun t =>
        (u.doc.children t.root).map fun c => (u.doc.get? c).bind Node.params?) ==
          some [some "'../x.utilities.css'", some "b", some "a"]) = true := by decide +kernel
  obtain ⟨table, w, u, d, hl, hsplit, hcheck⟩ := exists_of_splitsWith hrun
  rw [Bool.and_eq_true, beq_iff_eq, beq_iff_eq] at hcheck
  obtain ⟨u', d', hsplit', h⟩ := laid_out_by_split _ _ ⟨"/p"⟩ {} (by decide +kernel) hl
  cases hsplit.symm.trans hsplit'
  exact ⟨table, w, u, d, hl, hsplit, hcheck.1, hcheck.2, h⟩

end Strata.Workspace
