import Strata.Proofs.Forest.Subtrees
import Strata.Proofs.Migration.Issued

/-! Sources are registered whole or not at all.

A text is read into new nodes, wherever its error is, and after an error these go with their root. So
nothing of the text stays, and nothing else has changed (`sameTrees_withoutText`). Without an error the
new nodes are those of one more stylesheet, which has the trees of the text. -/
namespace Strata

namespace Document

open Forest

variable {f g doc : Document}

/-! ### Trees that have not changed -/

/-- The same nodes live, with the same data, the same parents and the same children. -/
structure SameTrees (f g : Document) : Prop where
  live : ∀ x, g.contains x = f.contains x
  data : ∀ x, g.get? x = f.get? x
  parent : ∀ x, g.parent? x = f.parent? x
  children : ∀ x, g.children x = f.children x

theorem SameTrees.refl (f : Document) : SameTrees f f :=
  ⟨fun _ => rfl, fun _ => rfl, fun _ => rfl, fun _ => rfl⟩

/-- What is known of the live nodes is known of all. -/
theorem SameTrees.of_live (hlive : ∀ x, g.contains x = f.contains x)
    (hsame : ∀ x, f.contains x = true →
      g.get? x = f.get? x ∧ g.parent? x = f.parent? x ∧ g.children x = f.children x) :
    SameTrees f g := by
  have hdead : ∀ x, f.contains x = false →
      g.get? x = f.get? x ∧ g.parent? x = f.parent? x ∧ g.children x = f.children x := by
    intro x hx
    have hx' := (hlive x).trans hx
    exact ⟨(get?_eq_none hx').trans (get?_eq_none hx).symm,
      (parent?_eq_none hx').trans (parent?_eq_none hx).symm,
      (children_eq_nil hx').trans (children_eq_nil hx).symm⟩
  have hall : ∀ x, g.get? x = f.get? x ∧ g.parent? x = f.parent? x ∧ g.children x = f.children x :=
    fun x => by
      cases hx : f.contains x with
      | true => exact hsame x hx
      | false => exact hdead x hx
  exact ⟨hlive, fun x => (hall x).1, fun x => (hall x).2.1, fun x => (hall x).2.2⟩

theorem SameTrees.root? (h : SameTrees f g) (hf : f.WellFormed) (hg : g.WellFormed) (x : NodeId) :
    g.root? x = f.root? x := by
  have hwithin : ∀ top, g.Within top x ↔ f.Within top x := fun top => by
    rw [Within, Within, funext h.parent]
  refine Option.ext fun root => ?_
  rw [hg.root?_eq_some, hf.root?_eq_some, h.live, h.parent, hwithin]

/-! ### A text comes and goes -/

section withText

variable (h : doc.WellFormed) (text : String)
include h

/-- What a text brings is within its root. -/
theorem within_withText {x : NodeId} (hx : (doc.withText text).2.contains x = true)
    (hnew : doc.contains x = false) : (doc.withText text).2.Within (doc.withText text).1 x := by
  cases hcreated : (doc.create .root).2.contains x with
  | false => exact ((planted_withText h text).fresh x hx hcreated).1.within
  | true =>
    rcases (contains_create h.stocked Node.root x).mp hcreated with rfl | hold
    · exact Within.refl _
    · cases hold.symm.trans hnew

/-- **A text whose root is removed leaves no trace.** -/
theorem sameTrees_withoutText :
    SameTrees doc ((doc.withText text).2.remove (doc.withText text).1) := by
  obtain ⟨hwf, hgrown, hdead, -⟩ := grown_withText h text
  refine .of_live (fun x => ?_) fun x hx => ?_
  · rw [Bool.eq_iff_iff, contains_remove hwf]
    constructor
    · rintro ⟨hx, hout⟩
      by_contra hold
      exact hout (within_withText h text hx (Bool.eq_false_iff.mpr hold))
    · exact fun hx => ⟨hgrown.live x hx, not_within_withText h text hx⟩
  · have hout := not_within_withText h text hx
    have hkeep : (doc.children x).filter (· != (doc.withText text).1) = doc.children x := by
      refine List.filter_eq_self.mpr fun c hc => bne_iff_ne.mpr ?_
      rintro rfl
      cases hdead.symm.trans (h.contains_child hc)
    refine ⟨(get?_remove hwf _ hout).trans (hgrown.data x hx),
      (parent?_remove hwf _ hout).trans (hgrown.parent x hx), ?_⟩
    rw [children_remove hwf _ hout, (withText_keeps h text hx).2.2, hkeep]

theorem root?_withText {x : NodeId} (hx : doc.contains x = true) :
    (doc.withText text).2.root? x = doc.root? x := by
  obtain ⟨hwf, hgrown, -, -⟩ := grown_withText h text
  refine Option.ext fun root => ?_
  rw [hwf.root?_eq_some, h.root?_eq_some, hgrown.within_iff h hx, iff_true_intro hx,
    iff_true_intro (hgrown.live x hx)]
  refine and_congr_right fun _ => and_congr_right fun hw => ?_
  rw [hgrown.parent root (h.contains_above hw hx)]

/-- The trees that were there stay as they are. -/
theorem grove_withText_of_known {top : NodeId} (htop : doc.contains top = true ∨ doc.Spent top) :
    (doc.withText text).2.get? top = doc.get? top ∧
      (doc.withText text).2.grove top = doc.grove top := by
  obtain ⟨hwf, -, -, -⟩ := grown_withText h text
  have hkept : ∀ x, doc.contains x = true ∨ doc.Spent x →
      (doc.withText text).2.get? x = doc.get? x ∧
        (doc.withText text).2.children x = doc.children x := by
    rintro x (hx | hx)
    · exact (withText_keeps h text hx).2
    · have hdead := hx.not_contains h.stocked
      have hdead' := ((ages_withText h text).spent x hx).not_contains hwf.stocked
      exact ⟨(get?_eq_none hdead').trans (get?_eq_none hdead).symm,
        (children_eq_nil hdead').trans (children_eq_nil hdead).symm⟩
  refine ⟨(hkept top htop).1, grove_congr h hwf fun x hx => hkept x ?_⟩
  rcases within_iff.mp hx with rfl | ⟨p, hp, -⟩
  · exact htop
  · exact Or.inl (contains_of_parent? hp)

theorem css_withText_of_known {top : NodeId} (htop : doc.contains top = true ∨ doc.Spent top) :
    Document.css (doc.withText text).2 top = Document.css doc top := by
  obtain ⟨hget, hgrove⟩ := grove_withText_of_known h text htop
  rw [css, css, hget, hgrove]

end withText

end Document

namespace Workspace

open Forest Document Relation

variable {w v : Workspace} {file : Option FilePath} {text : String} {id : SheetId}

/-- Nothing has changed but the slots that are free. -/
structure Undisturbed (w v : Workspace) : Prop where
  sheets : v.sheets = w.sheets
  holders : ∀ path, v.holderOf? path = w.holderOf? path
  owners : ∀ x, v.sheetOf? x = w.sheetOf? x
  trees : SameTrees w.doc v.doc

/-- One more stylesheet, which has the trees of the text and all nodes that are new. -/
structure Admitted (w : Workspace) (file : Option FilePath) (text : String) (id : SheetId)
    (s : Sheet) (v : Workspace) : Prop where
  size : v.sheets.size = w.sheets.size + 1
  next : id = w.sheets.size
  others : ∀ other, other ≠ id → v.get? other = w.get? other
  trees : ∀ other t, w.get? other = some t → v.doc.grove t.root = w.doc.grove t.root
  prints : ∀ other, other ≠ id → v.css other = w.css other
  known : ∀ x, w.doc.contains x = true → v.doc.contains x = true ∧ v.doc.get? x = w.doc.get? x ∧
    v.doc.parent? x = w.doc.parent? x ∧ v.doc.children x = w.doc.children x
  owners : ∀ x, w.doc.contains x = true → v.sheetOf? x = w.sheetOf? x
  sheet : v.get? id = some s
  record : s = { Sheet.new (file.map FilePath.normalize) text s.root with loadedPrint := v.css id }
  top : v.doc.get? s.root = some .root
  tree : Css.parse text = .ok (v.doc.grove s.root)
  /-- The tree is the one that the text makes in an empty document. -/
  alone : v.doc.grove s.root =
    (Document.withText {} text).2.grove (Document.withText {} text).1
  holders : ∀ path, v.holderOf? path =
    if file.map FilePath.normalize = some path.normalize then some id else w.holderOf? path
  new : ∀ x, v.doc.contains x = true → w.doc.contains x = false → v.sheetOf? x = some id

/-- One more stylesheet is the owner of the nodes below its root that no other owns. -/
theorem sheetOf?_push (w : Workspace) (s : Sheet) (x : NodeId) : (w.push s).2.sheetOf? x =
    (w.sheetOf? x).or (if w.doc.root? x = some s.root then some w.sheets.size else none) := by
  simp only [sheetOf?, push]
  cases hroot : w.doc.root? x with
  | none => simp
  | some root =>
    simp only [Option.bind_eq_bind, Option.bind_some, Array.findIdx?_push, beq_iff_eq,
      Option.some.injEq, @eq_comm _ root]

section Issued

variable (h : w.Issued)
include h

/-- A sheet is made and removed again. -/
theorem Issued.undisturbed (text : String) :
    Undisturbed w { w with doc := (w.doc.withText text).2.remove (w.doc.withText text).1 } := by
  have hsame := sameTrees_withoutText h.wellFormed text
  obtain ⟨hwf, -, -, -⟩ := grown_withText h.wellFormed text
  refine ⟨rfl, fun _ => rfl, fun x => ?_, hsame⟩
  simp only [sheetOf?, hsame.root? h.wellFormed (hwf.remove _)]

/-- The root of a new sheet is not that of a stylesheet. -/
theorem Issued.withText_not_mem_roots (text : String) : (w.doc.withText text).1 ∉ w.roots := by
  obtain ⟨hwf, -, hfresh, hlive, -⟩ := grown_withText h.wellFormed text
  intro hm
  rcases h.roots _ hm with hold | hspent
  · cases hfresh.symm.trans hold
  · have hdead := ((ages_withText h.wellFormed text).spent _ hspent).not_contains hwf.stocked
    cases hdead.symm.trans hlive

section push

variable {s : Sheet} (hroot : s.root = (w.doc.withText text).1)
include hroot

theorem Issued.sheetOf?_of_known {x : NodeId} (hx : w.doc.contains x = true) :
    (Workspace.push { w with doc := (w.doc.withText text).2 } s).2.sheetOf? x = w.sheetOf? x := by
  obtain ⟨-, -, hfresh, -⟩ := grown_withText h.wellFormed text
  have hsame := root?_withText h.wellFormed text hx
  rw [sheetOf?_push, if_neg, Option.or_none]
  · simp only [sheetOf?, hsame]
  · rw [hsame, hroot, h.wellFormed.root?_eq_some]
    rintro ⟨-, hw, -⟩
    cases hfresh.symm.trans (h.wellFormed.contains_above hw hx)

theorem Issued.sheetOf?_of_new {x : NodeId} (hx : (w.doc.withText text).2.contains x = true)
    (hnew : w.doc.contains x = false) :
    (Workspace.push { w with doc := (w.doc.withText text).2 } s).2.sheetOf? x = some w.sheets.size := by
  obtain ⟨hwf, -, -, -, htop⟩ := grown_withText h.wellFormed text
  have hbelow : (w.doc.withText text).2.root? x = some s.root := by
    rw [hroot, hwf.root?_eq_some]
    exact ⟨hx, within_withText h.wellFormed text hx hnew, htop⟩
  have hunowned : sheetOf? { w with doc := (w.doc.withText text).2 } x = none := by
    rw [sheetOf?, hbelow, Option.bind_eq_bind, Option.bind_some, Array.findIdx?_eq_none_iff]
    intro t ht
    obtain ⟨other, ht⟩ := Array.mem_iff_getElem?.mp ht
    rw [beq_eq_false_iff_ne, hroot]
    rintro heq
    exact h.withText_not_mem_roots text (heq ▸ root_mem_roots ht)
  rw [sheetOf?_push, hunowned, if_pos hbelow, Option.none_or]

end push

/-- A sheet is made and registered. -/
theorem Issued.admitted (hfiles : w.FilesApart)
    (hfree : w.taken? (file.map FilePath.normalize) = none) {trees : Grove Node}
    (hparse : Css.parse text = .ok trees) {s : Sheet}
    (hs : s = { Sheet.new (file.map FilePath.normalize) text (w.doc.withText text).1 with
      loadedPrint := Document.css (w.doc.withText text).2 (w.doc.withText text).1 }) :
    Admitted w file text w.sheets.size s
      (Workspace.push { w with doc := (w.doc.withText text).2 } s).2 := by
  have hgrown := (grown_withText h.wellFormed text).2.1
  have hgrove := grove_withText h.wellFormed text
  have hroot : s.root = (w.doc.withText text).1 := hs ▸ rfl
  have hothers : ∀ other, other ≠ w.sheets.size →
      (Workspace.push { w with doc := (w.doc.withText text).2 } s).2.get? other = w.get? other :=
    fun other hne => (get?_push s other).trans (if_neg hne)
  have hnew : (Workspace.push { w with doc := (w.doc.withText text).2 } s).2.get? w.sheets.size = some s :=
    (get?_push s _).trans (if_pos rfl)
  have hprint : (Workspace.push { w with doc := (w.doc.withText text).2 } s).2.css w.sheets.size =
      Document.css (w.doc.withText text).2 s.root := by
    rw [Workspace.css, hnew]
    rfl
  have hknown : ∀ {other t}, w.get? other = some t →
      w.doc.contains t.root = true ∨ w.doc.Spent t.root := fun ht =>
    h.roots _ (root_mem_roots ht)
  exact {
    size := Array.size_push _
    next := rfl
    others := hothers
    trees := fun other t ht => (grove_withText_of_known h.wellFormed text (hknown ht)).2
    prints := fun other hne => by
      rw [Workspace.css, Workspace.css, hothers other hne]
      cases ht : w.get? other with
      | none => rfl
      | some t => exact css_withText_of_known h.wellFormed text (hknown ht)
    known := fun x hx =>
      have hkept := withText_keeps h.wellFormed text hx
      ⟨hkept.1, hkept.2.1, hgrown.parent x hx, hkept.2.2⟩
    owners := fun x hx => h.sheetOf?_of_known hroot hx
    sheet := hnew
    record := by
      rw [hprint, hroot]
      exact hs
    top := hroot ▸ get?_withText_root h.wellFormed text
    tree := by
      rw [hparse, hroot]
      exact congrArg _ (hgrove.trans (by rw [Css.parse_eq_ok.mp hparse])).symm
    alone := by
      rw [hroot]
      exact hgrove.trans (grove_withText wellFormed_empty text).symm
    holders := holderOf?_push (w := { w with doc := (w.doc.withText text).2 }) hfiles.oneHolder hfree
      (hs ▸ rfl) (hs ▸ rfl)
    new := fun x hx hold => h.sheetOf?_of_new hroot hx hold }

end Issued

/-- **Whatever was done before, a text is registered whole or not at all**: an error leaves nothing
behind, and a text that can be read changes nothing but what is new. -/
theorem load_whole_or_not (h : w.Reachable) (file : Option FilePath) (text : String) :
    (∀ e v, w.load file text = (.error e, v) → Undisturbed w v ∧
      ((∃ path other, file = some path ∧ w.holderOf? path = some other ∧
          e = .duplicateFile path.normalize) ∨
        ∃ source, Css.parse text = .error source ∧
          e = .parse (file.map FilePath.normalize) source)) ∧
    ∀ id v, w.load file text = (.ok id, v) → ∃ s, Admitted w file text id s v := by
  rcases load_steps w file text with
    ⟨e, he, heq⟩ | ⟨hfree, ⟨source, hsource, heq⟩ | ⟨trees, hparse, heq⟩⟩ <;> rw [heq]
  · refine ⟨?_, fun id v hok => by cases hok⟩
    rintro _ _ ⟨⟩
    obtain ⟨_, other, hpath, hholder, rfl⟩ := taken?_eq_some.mp he
    obtain ⟨path, rfl, rfl⟩ := Option.map_eq_some_iff.mp hpath
    rw [holderOf?_normalize] at hholder
    exact ⟨⟨rfl, fun _ => rfl, fun _ => rfl, .refl _⟩, Or.inl ⟨path, other, rfl, hholder, rfl⟩⟩
  · refine ⟨?_, fun id v hok => by cases hok⟩
    rintro _ _ ⟨⟩
    exact ⟨h.issued.undisturbed text, Or.inr ⟨source, hsource, rfl⟩⟩
  · refine ⟨fun e v herror => (by cases herror), ?_⟩
    rintro _ _ ⟨⟩
    exact ⟨_, h.issued.admitted h.filesApart hfree hparse rfl⟩

/-- What texts fill can be reached. -/
theorem reachable_filled (sources : List (Option FilePath × String)) : (filled sources).Reachable :=
  filled_keeps ReflTransGen.refl (fun _ file text h => h.tail (.load file text)) sources

/-- A block stays open two levels down. The next text takes the slots that this one leaves. -/
theorem whole_after_refusal : ∃ w v u s, w.Reachable ∧
    w.load (some ⟨"b.css"⟩) "b \x7b c \x7b d: e; \x7d" =
      (.error (.parse (some ⟨"b.css"⟩) .unclosedBlock), v) ∧ Undisturbed w v ∧
    v.load (some ⟨"./b.css"⟩) "f \x7b g: h \x7d" = (.ok 1, u) ∧
      Admitted v (some ⟨"./b.css"⟩) "f \x7b g: h \x7d" 1 s u := by
  let first := [(some (⟨"a.css"⟩ : FilePath), "a \x7b\x7d")]
  let second := first ++ [(some (⟨"b.css"⟩ : FilePath), "b \x7b c \x7b d: e; \x7d")]
  have hrefused : (filled first).load (some ⟨"b.css"⟩) "b \x7b c \x7b d: e; \x7d" =
      (.error (.parse (some ⟨"b.css"⟩) .unclosedBlock), filled second) :=
    Prod.ext (by decide +kernel) rfl
  have hloaded : (filled second).load (some ⟨"./b.css"⟩) "f \x7b g: h \x7d" =
      (.ok 1, ((filled second).load (some ⟨"./b.css"⟩) "f \x7b g: h \x7d").2) :=
    Prod.ext (by decide +kernel) rfl
  have hfirst := load_whole_or_not (reachable_filled first) (some ⟨"b.css"⟩)
    "b \x7b c \x7b d: e; \x7d"
  have hsecond := load_whole_or_not (reachable_filled second) (some ⟨"./b.css"⟩)
    "f \x7b g: h \x7d"
  obtain ⟨s, hs⟩ := hsecond.2 _ _ hloaded
  exact ⟨_, _, _, s, reachable_filled first, hrefused, (hfirst.1 _ _ hrefused).1, hloaded, hs⟩

end Workspace

end Strata
