import Strata.Proofs.Connection
import Strata.Proofs.Workspace.Files

/-! Nodes are numbered as they are made.

As long as no slot is free each new node gets the next one. So the nodes of a text are numbered in
document order, behind all that were there (`rising_withText`), and the imports of all stylesheets in
a row have rising identifiers (`rising_filled`). A text that does not parse leaves free slots behind:
what is loaded next moves into them, the last one first, and its numbers are out of order. -/
namespace Strata

namespace Forest

variable {α : Type} {f g k : Forest α} {ids more : List NodeId}

/-- `f` has grown to `g`, which has no free slot, and `ids` are new nodes in the order of their
identifiers. -/
structure Rising (f g : Forest α) (ids : List NodeId) : Prop where
  free : g.free = []
  size : f.slots.size ≤ g.slots.size
  fresh : ∀ id ∈ ids, f.slots.size ≤ id.slot ∧ id.slot < g.slots.size
  rising : ids.Pairwise (NodeId.before · · = true)

namespace Rising

theorem refl (h : f.free = []) : Rising f f [] := ⟨h, le_rfl, by simp, .nil⟩

theorem append (h : Rising f g ids) (h' : Rising g k more) : Rising f k (ids ++ more) where
  free := h'.free
  size := h.size.trans h'.size
  fresh id hid := by
    rcases List.mem_append.mp hid with hid | hid
    · exact ⟨(h.fresh id hid).1, (h.fresh id hid).2.trans_le h'.size⟩
    · exact ⟨h.size.trans (h'.fresh id hid).1, (h'.fresh id hid).2⟩
  rising := List.pairwise_append.mpr ⟨h.rising, h'.rising, fun a ha b hb => by
    have hlt := (h.fresh a ha).2.trans_le (h'.fresh b hb).1
    simp [NodeId.before, hlt]⟩

theorem sublist (h : Rising f g ids) (hsub : more.Sublist ids) : Rising f g more :=
  ⟨h.free, h.size, fun id hid => h.fresh id (hsub.subset hid), h.rising.sublist hsub⟩

end Rising

theorem free_modify (f : Forest α) (id : NodeId) (change : Entry α → Entry α) :
    (f.modify id change).free = f.free := by
  unfold Forest.modify
  split <;> rfl

theorem size_modify (f : Forest α) (id : NodeId) (change : Entry α → Entry α) :
    (f.modify id change).slots.size = f.slots.size := by
  unfold Forest.modify
  split
  · exact Array.size_setIfInBounds ..
  · rfl

/-- Hanging a node up takes no slot. -/
theorem Rising.attach (h : Rising f g ids) (id parent : NodeId) (index : Nat) :
    Rising f (g.attach id parent index) ids := by
  unfold Forest.attach
  split
  · refine ⟨?_, ?_, fun x hx => ?_, h.rising⟩
    · simpa only [free_modify] using h.free
    · simpa only [size_modify] using h.size
    · simpa only [size_modify] using h.fresh x hx
  · exact h

section packed

variable (h : f.free = [])
include h

/-- A new node gets the next slot. -/
theorem rising_create (data : α) : Rising f (f.create data).2 [(f.create data).1] := by
  have hcreate : f.create data = (⟨f.slots.size, 0⟩,
      { f with slots := f.slots.push (some ⟨0, data, none, []⟩) }) := by
    unfold create
    simp only [h]
  rw [hcreate]
  exact ⟨h, by simp, by simp, List.pairwise_singleton _ _⟩

theorem rising_append (parent : NodeId) (data : α) :
    Rising f (f.append parent data).2 [(f.append parent data).1] :=
  (rising_create h data).attach _ _ _

/-- A grove is numbered in document order. -/
theorem rising_plant (parent : NodeId) (grove : Grove α) :
    Rising f (f.plant parent grove).2 (f.plant parent grove).1 := by
  induction grove generalizing f parent with
  | nil => exact .refl h
  | cons top below rest ihb ihr =>
    have htop := rising_append h parent top
    have hinner := ihb htop.free (f.append parent top).1
    exact htop.append (hinner.append (ihr hinner.free parent))

end packed

end Forest

namespace Document

open Forest

section withText

variable {doc : Document} (h : doc.WellFormed) (text : String)
include h

/-- What is below the root of a new sheet is what its text has been planted as. -/
theorem below_withText : Forest.below (doc.withText text).2 (doc.withText text).1 =
    ((doc.create .root).2.plant (doc.create .root).1 (Css.read text).1).1 :=
  ((grown_withText h text).1.visits_below _).unique (planted_below_root h text).2

/-- The nodes of a text are numbered in document order. -/
theorem rising_withText (hfree : doc.free = []) :
    Rising doc (doc.withText text).2 (Forest.below (doc.withText text).2 (doc.withText text).1) := by
  rw [below_withText h text]
  have hroot := rising_create hfree Node.root
  exact (hroot.append (rising_plant hroot.free _ _)).sublist (List.sublist_cons_self ..)

/-- A sheet that was there has its imports. -/
theorem imports_withText {root : NodeId} (hroot : doc.contains root = true) :
    (doc.withText text).2.imports root = doc.imports root := by
  have hkeep {id : NodeId} (hw : doc.Within root id) := withText_keeps h text (hw.live hroot)
  exact h.outermost_congr (grown_withText h text).1 (fun _ hw => (hkeep hw).2.2)
    fun _ hw => (hkeep hw).2.1

end withText

end Document

namespace Workspace

open Forest

variable {w : Workspace} {base : FilePath}

/-- The imports of one more stylesheet come last. -/
theorem outgoing_push {doc : Document}
    (hkeep : ∀ id s, w.get? id = some s → doc.imports s.root = w.doc.imports s.root) (t : Sheet) :
    ((Workspace.push { w with doc } t).2.outgoing base).map Outgoing.rule =
      (w.outgoing base).map Outgoing.rule ++ doc.imports t.root := by
  have hids : (Workspace.push { w with doc } t).2.ids = w.ids ++ [w.sheets.size] := by
    simp only [ids, push, Array.size_push, List.range_succ]
  unfold outgoing
  rw [hids, List.flatMap_append, List.map_append]
  congr 1
  · rw [List.map_flatMap, List.map_flatMap]
    refine List.flatMap_congr fun id hid => ?_
    obtain ⟨s, hs⟩ := get?_isSome.mpr (List.mem_range.mp hid)
    have hs' : (Workspace.push { w with doc } t).2.get? id = some s := get?_push_of_left hs t
    unfold outgoingOf
    rw [hs, hs']
    simp only [List.map_map]
    exact congrArg _ (hkeep id s hs)
  · have ht : (Workspace.push { w with doc } t).2.get? w.sheets.size = some t :=
      (get?_push t _).trans (if_pos rfl)
    rw [List.flatMap_singleton]
    unfold outgoingOf
    rw [ht]
    simp only [List.map_map]
    exact List.map_id' _

/-- No slot is free, and the imports of all stylesheets have rising identifiers. -/
def Numbered (w : Workspace) (base : FilePath) : Prop :=
  Rising Forest.empty w.doc ((w.outgoing base).map Outgoing.rule)

/-- A text that is not refused for its grammar keeps the numbers in order. -/
theorem Numbered.load (h : w.Numbered base) (hw : w.Fresh) {file : Option FilePath} {text : String}
    (hread : ∀ path e, (w.load file text).1 ≠ .error (.parse path e)) :
    (w.load file text).2.Numbered base := by
  rcases load_steps w file text with ⟨e, -, heq⟩ | ⟨-, ⟨source, -, heq⟩ | ⟨trees, -, heq⟩⟩
  · rw [heq]
    exact h
  · exact absurd (congrArg Prod.fst heq) (hread _ _)
  · have hwf := hw.tidy.wellFormed
    have hnew : Rising w.doc (w.doc.withText text).2
        ((w.doc.withText text).2.imports (w.doc.withText text).1) :=
      (Document.rising_withText hwf text h.free).sublist (List.filter_sublist.trans
        ((Document.grown_withText hwf text).1.walk_sublist_below _ _))
    rw [heq, Numbered, outgoing_push fun id s hs =>
      Document.imports_withText hwf text (Document.Tidy.live hw.tidy (root_mem_roots hs))]
    exact h.append hnew

/-- No text is refused for its grammar. -/
def AllRead (sources : List (Option FilePath × String)) : Prop :=
  ∀ first file text rest, sources = first ++ (file, text) :: rest →
    ∀ path e, ((filled first).load file text).1 ≠ .error (.parse path e)

theorem allRead_of_parse {sources : List (Option FilePath × String)}
    (h : ∀ source ∈ sources, ∃ trees, Css.parse source.2 = .ok trees) : AllRead sources := by
  rintro first file text rest rfl path e herror
  obtain ⟨trees, htrees⟩ := h (file, text) (by simp)
  rcases load_steps (filled first) file text with
    ⟨e', htaken, heq⟩ | ⟨-, ⟨source, hsource, -⟩ | ⟨trees', -, heq⟩⟩
  · -- A path that is held is refused before the text is read.
    rw [heq] at herror
    cases herror
    simp only [taken?, Option.bind_eq_bind, Option.bind_eq_some_iff] at htaken
    obtain ⟨_, -, _, -, hduplicate⟩ := htaken
    cases hduplicate
  · cases htrees.symm.trans hsource
  · rw [heq] at herror
    cases herror

theorem filled_append (first : List (Option FilePath × String)) (file : Option FilePath)
    (text : String) : filled (first ++ [(file, text)]) = ((filled first).load file text).2 := by
  simp [filled]

/-- **When no text is refused for its grammar, the imports of all stylesheets in a row have rising
identifiers.** -/
theorem rising_filled {sources : List (Option FilePath × String)} (h : AllRead sources)
    (base : FilePath) : (filled sources).Numbered base := by
  induction sources using List.reverseRecOn with
  | nil => exact .refl rfl
  | append_singleton first source ih =>
    obtain ⟨file, text⟩ := source
    rw [filled_append]
    refine (ih ?_).load (fresh_filled first) (h first file text [] rfl)
    intro first' file' text' rest heq
    exact h first' file' text' (rest ++ [(file, text)]) (by simp [heq])

end Workspace

end Strata
