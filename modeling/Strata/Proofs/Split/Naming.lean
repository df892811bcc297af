import Strata.Proofs.Following
import Strata.Proofs.Path.Directory
import Strata.Proofs.Split.Files
import Strata.Proofs.Split.Outcome
import Strata.Proofs.Workspace.Numbering

/-! What derived stylesheets are named after.

A derived stylesheet is named after an import of its donor: of those whose specifier ends in a
proper name the one with the least identifier (`named_after_least`). When every text has been read,
that is the first import in turn, by stylesheets as these were registered and in document order
within each. It need not be when some text has left free slots behind (`not_always_first`). -/
namespace Strata

/-- The import leads to this stylesheet. -/
def Destination.leadsTo (y : SheetId) : Destination → Bool
  | .sheet target _ => target == y
  | _ => false

theorem Destination.leadsTo_iff {y : SheetId} {found : Destination} :
    found.leadsTo y = true ↔ ∃ layers, found = .sheet y layers := by
  cases found <;> simp [leadsTo]

theorem find?_filterMap_eq_findSome? {α β : Type} (f : α → Option β) (p : β → Bool) (as : List α) :
    (as.filterMap f).find? p = as.findSome? fun a => (f a).filter p := by
  induction as with
  | nil => rfl
  | cons a as ih =>
    rw [List.filterMap_cons, List.findSome?_cons]
    cases f a with
    | none => exact ih
    | some b =>
      rw [List.find?_cons, Option.filter_some]
      cases p b with
      | true => rfl
      | false => exact ih

namespace Workspace

open Forest FilePath

variable {w v u : Workspace} {resolve : Resolution} {base file : FilePath} {settings : Settings}
  {d : Derivations} {donor derived y : SheetId} {rule : NodeId} {name first : String}

/-! ### Names in imports -/

/-- The last name in the specifier of an import, where it is proper. -/
def properName? (w : Workspace) (rule : NodeId) : Option String :=
  ((((w.doc.get? rule).bind Node.params?).bind Css.specifier?).map FilePath.specifierName).filter
    fun name => name != "" && name != "." && name != ".."

/-- The imports of a stylesheet, by stylesheets as these were registered, and in document order within
each. -/
def importsInTurn (w : Workspace) (resolve : Resolution) (base : FilePath) (y : SheetId) :
    List NodeId :=
  ((w.outgoing base).filter fun o => (o.destination w resolve).leadsTo y).map Outgoing.rule

/-- The proper name of the first import in turn that has one. -/
def nameInTurn? (w : Workspace) (resolve : Resolution) (base : FilePath) (y : SheetId) :
    Option String :=
  (w.importsInTurn resolve base y).findSome? w.properName?

/-- Of the imports of a stylesheet with a proper name the one with the least identifier has this
name. -/
def LeastNamed (w : Workspace) (resolve : Resolution) (base : FilePath) (y : SheetId)
    (name : String) : Prop :=
  ∃ rule ∈ w.importsInTurn resolve base y, w.properName? rule = some name ∧
    ∀ other ∈ w.importsInTurn resolve base y, (w.properName? other).isSome = true → other ≠ rule →
      rule.before other = true

theorem mem_importsInTurn : rule ∈ w.importsInTurn resolve base y ↔
    ∃ x layers, w.Edge resolve base x y rule layers := by
  simp only [importsInTurn, List.mem_map, List.mem_filter, mem_outgoing, Destination.leadsTo_iff]
  constructor
  · rintro ⟨o, ⟨⟨s, hs, hdir, hrule⟩, layers, hfound⟩, rfl⟩
    exact ⟨o.source, layers, s, hs, hrule, hdir ▸ hfound⟩
  · rintro ⟨x, layers, s, hs, hrule, hfound⟩
    exact ⟨⟨x, s.dir?.getD base, rule⟩, ⟨⟨s, hs, rfl, hrule⟩, layers, hfound⟩, rfl⟩

/-- The name is that of the first import in the list that is kept. -/
theorem nameFromImports?_eq (w : Workspace) (donor : SheetId) :
    w.nameFromImports? donor = (w.authoredImports donor).findSome? w.properName? :=
  find?_filterMap_eq_findSome? ..

/-! ### What the name is taken from -/

namespace Follows

variable (hv : Follows w v resolve base) (h : w.Fresh)
include hv h

omit h in
theorem mem_inbound {t : Sheet} (ht : v.get? y = some t) (rule : NodeId) :
    rule ∈ t.inbound ↔ rule ∈ w.importsInTurn resolve base y :=
  (hv.inbound y t ht rule).trans mem_importsInTurn.symm

theorem nameFromImports?_inbound {t : Sheet} (ht : v.get? y = some t) :
    v.nameFromImports? y = t.inbound.findSome? w.properName? := by
  have hname : v.properName? = w.properName? := by
    funext rule
    rw [properName?, properName?, hv.same.doc]
  rw [nameFromImports?_eq, (hv.recorded h).authoredImports_eq ht, hname]

/-- **The name is that of the import with the least identifier.** -/
theorem nameFromImports?_eq_some {t : Sheet} (ht : v.get? y = some t) :
    v.nameFromImports? y = some name ↔ w.LeastNamed resolve base y name := by
  rw [hv.nameFromImports?_inbound h ht,
    Ordered.findSome?_eq_some NodeId.total_before (hv.rising y t ht)]
  simp only [LeastNamed, hv.mem_inbound ht]

theorem nameFromImports?_eq_none {t : Sheet} (ht : v.get? y = some t) :
    v.nameFromImports? y = none ↔ w.nameInTurn? resolve base y = none := by
  rw [hv.nameFromImports?_inbound h ht, nameInTurn?, List.findSome?_eq_none_iff,
    List.findSome?_eq_none_iff]
  simp only [hv.mem_inbound ht]

/-- With a proper name in some import the donor goes by one. -/
theorem nameFromImports?_of_inTurn {t : Sheet} (ht : v.get? y = some t)
    (hfirst : w.nameInTurn? resolve base y = some first) :
    v.nameFromImports? y = some (v.nameFor y file) := by
  cases hname : v.nameFromImports? y with
  | none =>
    rw [hv.nameFromImports?_eq_none h ht, hfirst] at hname
    cases hname
  | some name => rw [nameFor, hname, Option.getD_some]

/-- Where identifiers rise, that is the first import in turn. -/
theorem nameFromImports?_numbered (hn : w.Numbered base) {t : Sheet} (ht : v.get? y = some t) :
    v.nameFromImports? y = w.nameInTurn? resolve base y := by
  have hrising : (w.importsInTurn resolve base y).Pairwise (NodeId.before · · = true) :=
    hn.rising.sublist (List.filter_sublist.map _)
  have hsame : t.inbound = w.importsInTurn resolve base y :=
    Ordered.eq_of_pairwise NodeId.total_before (hv.rising y t ht) hrising (hv.mem_inbound ht)
  rw [hv.nameFromImports?_inbound h ht, hsame, nameInTurn?]

end Follows

/-- What the derived stylesheet of a donor with a file is named after. -/
structure NamedAfter (w : Workspace) (resolve : Resolution) (base : FilePath) (donor : SheetId)
    (file : FilePath) (name : String) : Prop where
  /-- Without a proper name in an import it is the name of the file. -/
  ownName : w.nameInTurn? resolve base donor = none → name = file.fileName?.getD ""
  least : ∀ first, w.nameInTurn? resolve base donor = some first →
    w.LeastNamed resolve base donor name
  first_iff : ∀ first, w.nameInTurn? resolve base donor = some first →
    (name = first ↔ w.LeastNamed resolve base donor first)

/-- Derived stylesheets, in what a split of `w` leaves, are named after imports in the workspace that
the texts filled. -/
def NamesDerived (sources : List (Option FilePath × String)) (resolve : Resolution)
    (base : FilePath) (settings : Settings) (w u : Workspace) (d : Derivations) : Prop :=
  ∀ donor derived, (donor, derived) ∈ d.pairs → ∃ s t file name attempt,
    w.get? donor = some s ∧ s.file = some file ∧ u.get? derived = some t ∧
    t.file = some (derivedPath settings file name attempt).normalize ∧
    NamedAfter (filled sources) resolve base donor file name ∧
    (AllRead sources → ∀ first, (filled sources).nameInTurn? resolve base donor = some first →
      name = first)

/-- **A derived stylesheet is named after the import of its donor with the least identifier, and this
is the first import in turn where no text was refused for its grammar.** -/
theorem named_after_least (sources : List (Option FilePath × String)) (resolve : Resolution)
    (base : FilePath) (settings : Settings) :
    ∃ u d, ((filled sources).connect resolve base).1.afterInheriting.split settings = .ok (u, d) ∧
      NamesDerived sources resolve base settings
        ((filled sources).connect resolve base).1.afterInheriting u d := by
  have hfresh := fresh_filled sources
  have hfollows := (follows_connect hfresh resolve base).afterInheriting
  generalize ((filled sources).connect resolve base).1.afterInheriting = w at *
  obtain ⟨state, hstate, -, hbeside, -⟩ := exists_divided_beside (hfollows.recorded hfresh) settings
  obtain ⟨u, d, hsplit⟩ := exists_parting w settings
  obtain ⟨state', hstate', rfl, hu⟩ := split_eq_ok hsplit
  cases hstate.symm.trans hstate'
  refine ⟨u, _, hsplit, fun donor derived hp => ?_⟩
  obtain ⟨s, t, file, attempt, hs, hfile, ht, htfile⟩ := hbeside.path donor derived hp
  obtain ⟨t', ht', hsame⟩ := (sameFiles_foldlM hu).get?_of_left ht
  refine ⟨s, t', file, w.nameFor donor file, attempt, hs, hfile, ht', hsame.file.trans htfile,
    ⟨fun hnone => ?_, fun first hfirst => ?_, fun first hfirst => ?_⟩, fun hread first hfirst => ?_⟩
  · rw [nameFor, (hfollows.nameFromImports?_eq_none hfresh hs).mpr hnone]
    rfl
  · rw [← hfollows.nameFromImports?_eq_some hfresh hs]
    exact hfollows.nameFromImports?_of_inTurn hfresh hs hfirst
  · rw [← hfollows.nameFromImports?_eq_some hfresh hs,
      hfollows.nameFromImports?_of_inTurn hfresh hs hfirst, Option.some.injEq]
  · rw [nameFor, hfollows.nameFromImports?_numbered hfresh (rising_filled hread base) hs, hfirst]
    rfl

/-- Two imports of a directory with an index, the first by the name of the directory. -/
def importedTwice : List (Option FilePath × String) :=
  [(some ⟨"/p/index.css"⟩, "@import './lib' layer(utilities);\n@import './lib/index.css';"),
    (some ⟨"/p/lib/index.css"⟩, "h1 {}\n@utility foo { color: red }")]

def importedTwiceFiles : Resolution := .known [⟨"/p/index.css"⟩, ⟨"/p/lib/index.css"⟩]

/-- The second stylesheet is split, and its utilities go to `path`. -/
def goesTo (path : FilePath) (w u : Workspace) (d : Derivations) : Bool :=
  d.pairs == [(1, 2)] && (w.get? 1).any (fun s => s.file == some ⟨"/p/lib/index.css"⟩) &&
    (u.get? 2).any fun t => t.file == some path

/-- The first of two imports gives the name. -/
theorem named_after_directory : AllRead importedTwice ∧
    (filled importedTwice).nameInTurn? importedTwiceFiles ⟨"/p"⟩ 1 = some "lib" ∧
    ∃ w u d, ((filled importedTwice).connect importedTwiceFiles ⟨"/p"⟩).1.afterInheriting = w ∧
      w.split {} = .ok (u, d) ∧ goesTo ⟨"/p/lib/lib.utilities.css"⟩ w u d = true ∧
      NamesDerived importedTwice importedTwiceFiles ⟨"/p"⟩ {} w u d := by
  have hread : ∀ source ∈ importedTwice, (Css.read source.2).2 = none := by decide +kernel
  have hrun : splitsWith importedTwice importedTwiceFiles ⟨"/p"⟩ {}
      (goesTo ⟨"/p/lib/lib.utilities.css"⟩) = true := by decide +kernel
  obtain ⟨table, w, u, d, hl, hsplit, hcheck⟩ := exists_of_splitsWith hrun
  obtain ⟨u', d', hsplit', h⟩ := named_after_least importedTwice importedTwiceFiles ⟨"/p"⟩ {}
  rw [afterInheriting_eq hl] at hsplit' h
  cases hsplit.symm.trans hsplit'
  refine ⟨allRead_of_parse fun source hs => ?_, by decide +kernel,
    w, u, d, afterInheriting_eq hl, hsplit, hcheck, h⟩
  exact ⟨_, Css.parse_eq_ok.mpr (Prod.ext rfl (hread source hs))⟩

/-- The same behind a text that does not parse, whose slots the first stylesheet gets. -/
def importedTwiceAfterError : List (Option FilePath × String) :=
  (some ⟨"/p/bad.css"⟩, "a {}\nb {}\n\x7d") :: importedTwice

theorem exists_of_goesTo {path : FilePath} (h : goesTo path w u d = true) : ∃ s t,
    (1, 2) ∈ d.pairs ∧ w.get? 1 = some s ∧ s.file = some ⟨"/p/lib/index.css"⟩ ∧
      u.get? 2 = some t ∧ t.file = some path := by
  simp only [goesTo, Bool.and_eq_true, beq_iff_eq, Option.any_eq_true] at h
  obtain ⟨⟨hpairs, s, hs, hfile⟩, t, ht, hpath⟩ := h
  exact ⟨s, t, hpairs ▸ List.mem_singleton_self _, hs, hfile, ht, hpath⟩

/-- A path that is made of the name of the directory starts with it. -/
theorem derivedPath_of_directory (attempt : Nat) :
    (derivedPath {} ⟨"/p/lib/index.css"⟩ "lib" attempt).normalize ≠ ⟨"/p/lib/index.utilities.css"⟩ := by
  intro heq
  have hnamed : Component.Named (derivedName "lib" "utilities" (some "css") attempt) :=
    named_derivedName (by decide) (by decide) (by decide) (by decide) attempt
  have hname := fileName?_join_directory (p := ⟨"/p/lib/index.css"⟩) (by decide +kernel) hnamed
  have hsame : derivedName "lib" "utilities" (some "css") attempt = "index.utilities.css" :=
    Option.some.inj (hname.symm.trans ((congrArg fileName? heq).trans (by decide +kernel)))
  obtain ⟨stem, rest, htext, -, rfl | ⟨-, -, ext, hext⟩⟩ :=
    exists_stem "lib" "utilities" (some "css") attempt
  · rw [hsame] at htext
    cases (List.cons.inj htext).1
  · have hdot : '.' ∈ "lib".toList := hext ▸ List.mem_append_right _ (List.mem_cons_self ..)
    revert hdot
    decide

/-- The same imports behind a text that does not parse: the second gives the name. -/
theorem not_always_first : ¬ ∀ (sources : List (Option FilePath × String)) (resolve : Resolution)
    (base : FilePath) (table : List (List SheetId)) (w u : Workspace) (d : Derivations),
    ((filled sources).connect resolve base).1.inheritLayers = .ok (table, w) →
    w.split {} = .ok (u, d) → ∀ donor derived s t file first, (donor, derived) ∈ d.pairs →
      w.get? donor = some s → s.file = some file → u.get? derived = some t →
      (filled sources).nameInTurn? resolve base donor = some first →
      ∃ attempt, t.file = some (derivedPath {} file first attempt).normalize := by
  intro hall
  have hrun : splitsWith importedTwiceAfterError importedTwiceFiles ⟨"/p"⟩ {}
      (goesTo ⟨"/p/lib/index.utilities.css"⟩) = true := by decide +kernel
  have hfirst : (filled importedTwiceAfterError).nameInTurn? importedTwiceFiles ⟨"/p"⟩ 1 =
      some "lib" := by decide +kernel
  obtain ⟨table, w, u, d, hl, hsplit, hcheck⟩ := exists_of_splitsWith hrun
  obtain ⟨s, t, hp, hs, hfile, ht, hpath⟩ := exists_of_goesTo hcheck
  obtain ⟨attempt, hattempt⟩ := hall _ _ _ table w u d hl hsplit 1 2 s t _ _ hp hs hfile ht hfirst
  exact derivedPath_of_directory attempt (Option.some.inj (hattempt.symm.trans hpath))

end Workspace

end Strata
