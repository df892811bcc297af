import Strata.Proofs.Transform
import Strata.Proofs.Transform.Hoisting

/-! Transforms leave nothing to convert.

Behind a pass of the standard transforms no class rule of a split layer is left in any stylesheet
(`exhausted_transformAll`): hoisting the layers of one converts all that is there, and what it does
to the tree of one gives no other stylesheet anything to convert (`Rewritten.of_converts`). -/
namespace Strata

namespace Transform

open Forest

variable {settings : Settings} {context : SheetFacts} {doc g : Document} {root top x : NodeId}
  {utility : NodeId → Option NodeId} {gone : List NodeId}

namespace Rewritten

variable (hr : Rewritten settings root doc utility gone g) (h : doc.WellFormed)
include hr h

/-- What stands below a node that was there stood below it. -/
theorem mem_children_of_left (hx : doc.contains x = true) (hnone : utility x = none) (hgone : x ∉ gone)
    (htop : doc.contains top = true) (hin : x ∈ g.children top) : x ∈ doc.children top := by
  have hparent := (hr.wellFormed.listed x top).mp hin
  rw [hr.parent? h hx hnone hgone] at hparent
  obtain ⟨p, hp, heq⟩ := Option.map_eq_some_iff.mp hparent
  refine (h.listed x top).mpr ?_
  cases hv : utility p with
  | none =>
    rw [hv, Option.getD_none] at heq
    rw [hp, heq]
  | some v =>
    rw [hv, Option.getD_some] at heq
    exact absurd heq.symm (hr.ne_utility hv htop)

theorem layerBlock_of_left (hat : Text.sameCaseless settings.atRule "layer" = false)
    (htop : doc.contains top = true) {block : NodeId} (hm : block ∈ layerBlocksOf settings top g) :
    block ∈ layerBlocksOf settings top doc := by
  obtain ⟨hin, hlayer⟩ := List.mem_filter.mp hm
  rcases (hr.live block).mp (hr.wellFormed.contains_child hin) with ⟨r, hv⟩ | ⟨hlive, hnone, hgone⟩
  · obtain ⟨name, -, hget⟩ := hr.made r block hv
    rw [hget, Option.any_some, isLayerBlock, Node.blockAtRule] at hlayer
    simp only [hat, Bool.false_and] at hlayer
    cases hlayer
  · rw [hr.data block hlive hnone hgone] at hlayer
    exact List.mem_filter.mpr ⟨hr.mem_children_of_left h hlive hnone hgone htop hin, hlayer⟩

/-- In any stylesheet only what was to be converted is to be converted, and it has not been. -/
theorem of_converts (hsettings : context.settings = settings)
    (hat : Text.sameCaseless settings.atRule "layer" = false) (htop : doc.contains top = true)
    (hx : Converts context top g x) : Converts context top doc x ∧ utility x = none := by
  subst hsettings
  obtain ⟨hclass, hplace⟩ := hx
  obtain ⟨hbefore, hnone⟩ := hr.of_isClassRule hclass
  have hlive := contains_of_isClassRule hbefore
  have hgone := hr.not_gone_of_class hbefore
  refine ⟨⟨hbefore, hplace.imp ?_ ?_⟩, hnone⟩
  · rintro ⟨block, hblock, hin⟩
    have hold := hr.layerBlock_of_left h hat htop hblock
    exact ⟨block, hold, hr.mem_children_of_left h hlive hnone hgone
      (h.contains_child (List.mem_of_mem_filter hold)) hin⟩
  · exact fun hin => ⟨hin.1, hr.mem_children_of_left h hlive hnone hgone htop hin.2⟩

end Rewritten

/-- **Hoisting layers leaves nothing to convert.** -/
theorem not_converts_hoistLayers (h : doc.WellFormed)
    (hat : Text.sameCaseless context.settings.atRule "layer" = false)
    (hroot : doc.contains root = true) : ¬ Converts context root (hoistLayers context root doc) x := by
  obtain ⟨utility, hdomain, hr⟩ := rewritten_hoistLayers h context root
  intro hx
  obtain ⟨hold, hnone⟩ := hr.of_converts h rfl hat hroot hx
  have hsome := (hdomain x).mpr hold
  rw [hnone] at hsome
  cases hsome

/-- It gives no other stylesheet anything to convert. -/
theorem converts_of_hoistLayers (h : doc.WellFormed) (other : SheetFacts)
    (hsettings : context.settings = other.settings)
    (hat : Text.sameCaseless other.settings.atRule "layer" = false)
    (hroot : doc.contains root = true) (hx : Converts context root (hoistLayers other top doc) x) :
    Converts context root doc x := by
  obtain ⟨utility, -, hr⟩ := rewritten_hoistLayers h other top
  exact (hr.of_converts h hsettings hat hroot hx).1

end Transform

namespace Workspace

open Forest Document Transform

variable {w : Workspace} {settings : Settings}

/-- Nothing is to be converted in a stylesheet. -/
def Exhausted (w : Workspace) (settings : Settings) (id : SheetId) : Prop :=
  ∀ s, w.get? id = some s → ∀ x, ¬ Converts { file := s.file, layers := s.layers, settings } s.root w.doc x

theorem runTransforms_standard {id : SheetId} {s : Sheet} (hs : w.get? id = some s) :
    w.runTransforms settings standard id =
      ({ w with doc := hoistLayers { file := s.file, layers := s.layers, settings } s.root w.doc },
        none) := by
  unfold runTransforms
  rw [hs]
  rfl

/-- **The standard transforms leave nothing to convert in the stylesheets they run on.** -/
theorem exhausted_transformAll (hat : Text.sameCaseless settings.atRule "layer" = false)
    {ids : List SheetId} (hids : ∀ id ∈ ids, id < w.sheets.size) (h : w.Tidy) {id : SheetId}
    (hid : id ∈ ids ∨ w.Exhausted settings id) :
    (w.transformAll settings standard ids).1.Exhausted settings id := by
  induction ids generalizing w with
  | nil => exact hid.resolve_left List.not_mem_nil
  | cons first ids ih =>
    obtain ⟨hfirst, hids⟩ := List.forall_mem_cons.mp hids
    obtain ⟨s, hs⟩ := get?_isSome.mpr hfirst
    unfold transformAll
    rw [runTransforms_standard hs]
    refine ih hids (hoistLayers_keeps h).tidy ?_
    rcases hid with hid | hid
    · rcases List.mem_cons.mp hid with rfl | hid
      · refine Or.inr fun t ht x => ?_
        have hbefore : w.get? id = some t := ht
        cases hs.symm.trans hbefore
        exact not_converts_hoistLayers h.wellFormed hat (h.live hs)
      · exact Or.inl hid
    · refine Or.inr fun t ht x hx => ?_
      have hbefore : w.get? id = some t := ht
      exact hid t hbefore x
        (converts_of_hoistLayers h.wellFormed { file := s.file, layers := s.layers, settings } rfl hat
          (h.live hbefore) hx)

end Workspace

end Strata
