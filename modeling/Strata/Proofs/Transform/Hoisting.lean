import Strata.Proofs.Transform.LayerBlocks

/-! Hoisting the layers of a stylesheet, block by block and then rule by rule.

The rules that become utilities are known beforehand (`Converts`), and so are the blocks that go
(`emptiedBlocks`): a utility is nothing that either stage looks at, so the two stages do not get in each
other's way (`rewritten_hoistLayers`). For the same reason a second pass finds nothing to do. -/
namespace Strata.Transform

open Forest

variable {settings : Settings} {context : SheetFacts} {doc g : Document} {root block x : NodeId}
  {utility : NodeId → Option NodeId} {gone : List NodeId}

/-! ### Which rules become utilities -/

/-- The stylesheet is itself in a layer that is split. -/
def isMember (context : SheetFacts) : Bool := context.layers.any context.settings.layers.contains

/-- A rule for one simple class, in a block of a split layer or, in a stylesheet that is in such a layer,
directly below its root. -/
def Converts (context : SheetFacts) (root : NodeId) (doc : Document) (x : NodeId) : Prop :=
  isClassRule doc x = true ∧
    ((∃ block ∈ layerBlocksOf context.settings root doc, x ∈ doc.children block) ∨
      isMember context = true ∧ x ∈ doc.children root)

instance : DecidablePred (Converts context root doc) := fun _ => inferInstanceAs (Decidable (_ ∧ _))

/-- The blocks that nothing is left in. -/
def emptiedBlocks (settings : Settings) (root : NodeId) (doc : Document) : List NodeId :=
  (layerBlocksOf settings root doc).filter (holdsClassRules doc)

/-! ### The two stages -/

namespace Rewritten

variable (hr : Rewritten settings root doc utility gone g) (h : doc.WellFormed)
include hr h

/-- All blocks. -/
theorem hoistBlocks {blocks : List NodeId} (hnodup : blocks.Nodup)
    (hblocks : ∀ block ∈ blocks, block ∈ layerBlocksOf settings root doc) (hgone : ∀ block ∈ blocks, block ∉ gone)
    (hnone : ∀ block ∈ blocks, ∀ x ∈ doc.children block, utility x = none) :
    ∃ utility', Rewritten settings root doc utility' (gone ++ blocks.filter (holdsClassRules doc))
        (blocks.foldl (Transform.hoistBlock settings.atRule root) g) ∧
      (∀ x, (∀ block ∈ blocks, x ∉ doc.children block) → utility' x = utility x) ∧
      ∀ block ∈ blocks, ∀ x ∈ doc.children block, (utility' x).isSome = isClassRule doc x := by
  induction blocks generalizing g utility gone with
  | nil =>
    refine ⟨utility, ?_, fun _ _ => rfl, fun _ hm => absurd hm List.not_mem_nil⟩
    rw [List.filter_nil, List.append_nil]
    exact hr
  | cons block blocks ih =>
    obtain ⟨hnot, hnodup⟩ := List.nodup_cons.mp hnodup
    obtain ⟨utility₁, hr₁, hsame₁, hrules₁⟩ := hr.hoistBlock h (hblocks block (List.mem_cons_self ..))
      (hgone block (List.mem_cons_self ..)) (hnone block (List.mem_cons_self ..))
    have hapart : ∀ b ∈ blocks, ∀ x ∈ doc.children b, x ∉ doc.children block := fun b hb x hx hm =>
      hnot (parent_unique h hm hx ▸ hb)
    obtain ⟨utility₂, hr₂, hsame₂, hrules₂⟩ := ih hr₁ hnodup
      (fun b hb => hblocks b (List.mem_cons_of_mem _ hb))
      (fun b hb hm => by
        rcases List.mem_append.mp hm with hm | hm
        · exact hgone b (List.mem_cons_of_mem _ hb) hm
        · split at hm
          · exact hnot (List.mem_singleton.mp hm ▸ hb)
          · cases hm)
      (fun b hb x hx => by
        rw [hsame₁ x (hapart b hb x hx), hnone b (List.mem_cons_of_mem _ hb) x hx])
    refine ⟨utility₂, ?_, fun x hx => ?_, fun b hb x hx => ?_⟩
    · rw [List.append_assoc] at hr₂
      rw [List.filter_cons]
      split at hr₂ <;> simpa [*] using hr₂
    · rw [hsame₂ x fun b hb => hx b (List.mem_cons_of_mem _ hb), hsame₁ x (hx block (List.mem_cons_self ..))]
    · rcases List.mem_cons.mp hb with rfl | hb
      · rw [hsame₂ x fun b' hb' hm => hapart b' hb' x hm hx, hrules₁ x hx]
      · exact hrules₂ b hb x hx

omit h in
/-- Utilities are not rules. -/
theorem convertInPlace_utility {r : NodeId} (hv : utility r = some x) :
    Transform.convertInPlace settings.atRule g x = g := by
  obtain ⟨name, -, hget⟩ := hr.made r x hv
  unfold Transform.convertInPlace
  rw [toUtility?_eq_none (by rw [hget]; rfl)]

/-- Nodes below the root, some of which are utilities already. -/
theorem convertNodes {nodes : List NodeId} (hnodup : nodes.Nodup)
    (hnodes : ∀ x ∈ nodes, (∃ r, utility r = some x) ∨
      x ∈ doc.children root ∧ utility x = none ∧ x ∉ gone) :
    ∃ utility', Rewritten settings root doc utility' gone
        (nodes.foldl (Transform.convertInPlace settings.atRule) g) ∧
      (∀ x ∉ nodes, utility' x = utility x) ∧
      ∀ x ∈ nodes, x ∈ doc.children root → (utility' x).isSome = isClassRule doc x := by
  induction nodes generalizing g utility with
  | nil => exact ⟨utility, hr, fun _ _ => rfl, fun _ hx => absurd hx List.not_mem_nil⟩
  | cons node nodes ih =>
    obtain ⟨hnot, hnodup⟩ := List.nodup_cons.mp hnodup
    have hrest : ∀ x ∈ nodes, x ≠ node := fun x hx => ne_of_mem_of_not_mem hx hnot
    rw [List.foldl_cons]
    rcases hnodes node (List.mem_cons_self ..) with ⟨r, hv⟩ | ⟨htop, hnone, hgone⟩
    · rw [hr.convertInPlace_utility hv]
      obtain ⟨utility', hr', hsame, hrules⟩ := ih hr hnodup fun x hx =>
        hnodes x (List.mem_cons_of_mem _ hx)
      refine ⟨utility', hr', fun x hx => hsame x fun hm => hx (List.mem_cons_of_mem _ hm),
        fun x hx htop => ?_⟩
      rcases List.mem_cons.mp hx with rfl | hx
      · exact absurd rfl (hr.ne_utility hv (h.contains_child htop))
      · exact hrules x hx htop
    · obtain ⟨utility₁, hr₁, hsame₁, hrule⟩ := hr.convertInPlace h htop hnone hgone
      obtain ⟨utility₂, hr₂, hsame₂, hrules⟩ := ih hr₁ hnodup fun x hx => by
        rcases hnodes x (List.mem_cons_of_mem _ hx) with ⟨r, hv⟩ | ⟨hx', hn, hg⟩
        · refine Or.inl ⟨r, ?_⟩
          rw [hsame₁ r, hv]
          rintro rfl
          cases hnone.symm.trans hv
        · exact Or.inr ⟨hx', by rw [hsame₁ x (hrest x hx), hn], hg⟩
      refine ⟨utility₂, hr₂, fun x hx => ?_, fun x hx htop => ?_⟩
      · rw [List.mem_cons, not_or] at hx
        rw [hsame₂ x hx.2, hsame₁ x hx.1]
      · rcases List.mem_cons.mp hx with rfl | hx
        · rw [hsame₂ x hnot, hrule]
        · exact hrules x hx htop

/-! ### What stands where afterwards -/

omit h in
/-- What stands below the root are utilities and nodes that stood there. -/
theorem of_mem_top (hx : x ∈ g.children root) :
    (∃ r, utility r = some x) ∨ x ∈ doc.children root ∧ utility x = none ∧ x ∉ gone := by
  rw [hr.top] at hx
  obtain ⟨c, hc, hx⟩ := List.mem_flatMap.mp hx
  rcases List.mem_append.mp hx with hx | hx
  · obtain ⟨r, -, hv⟩ := List.mem_filterMap.mp hx
    exact Or.inl ⟨r, hv⟩
  · split at hx
    · cases hx
    · next hgone =>
      rw [List.mem_singleton] at hx
      cases hv : utility c with
      | some v => exact Or.inl ⟨c, by rw [hx, hv, Option.getD_some]⟩
      | none =>
        rw [hv, Option.getD_none] at hx
        exact Or.inr ⟨hx ▸ hc, hx ▸ hv, hx ▸ hgone⟩

/-- A node that is still there is below the parent that it had, or below the utility for it. -/
theorem parent? (hx : doc.contains x = true) (hnone : utility x = none) (hgone : x ∉ gone) :
    g.parent? x = (doc.parent? x).map fun p => (utility p).getD p := by
  cases hp : doc.parent? x with
  | some p =>
    have hin : x ∈ doc.children p := (h.listed x p).mpr hp
    refine (hr.wellFormed.listed x _).mp ?_
    change x ∈ g.children ((utility p).getD p)
    cases hv : utility p with
    | some v => rwa [Option.getD_some, hr.handed p v hv]
    | none =>
      rw [Option.getD_none]
      by_cases hroot : p = root
      · subst hroot
        exact hr.mem_top hin hnone hgone
      · have hkept : p ∉ gone := fun hm => by
          have hsome := (hr.emptied p hm).2 x hin
          rw [hnone] at hsome
          cases hsome
        rw [hr.below p hroot (h.contains_parent hp) hv hkept, List.mem_filter, hnone]
        exact ⟨hin, rfl⟩
  | none =>
    have hout : ∀ p, x ∉ doc.children p := fun p hm => by
      cases hp.symm.trans ((h.listed x p).mp hm)
    rw [Option.map_none]
    cases hq : g.parent? x with
    | none => rfl
    | some q =>
      have hin : x ∈ g.children q := (hr.wellFormed.listed x q).mpr hq
      rcases (hr.live q).mp (hr.wellFormed.contains_parent hq) with ⟨r, hv⟩ | ⟨hlive, hn, hg⟩
      · rw [hr.handed r q hv] at hin
        exact absurd hin (hout r)
      · by_cases hroot : q = root
        · subst hroot
          rcases hr.of_mem_top hin with ⟨r, hv⟩ | ⟨htop, -⟩
          · exact absurd rfl (hr.ne_utility hv hx)
          · exact absurd htop (hout q)
        · rw [hr.below q hroot hlive hn hg] at hin
          exact absurd (List.mem_of_mem_filter hin) (hout q)

end Rewritten

/-- **Hoisting the layers of a stylesheet makes utilities of the class rules it looks at.** -/
theorem rewritten_hoistLayers (h : doc.WellFormed) (context : SheetFacts) (root : NodeId) :
    ∃ utility, (∀ x, (utility x).isSome = true ↔ Converts context root doc x) ∧
      Rewritten context.settings root doc utility (emptiedBlocks context.settings root doc)
        (hoistLayers context root doc) := by
  have hnodup : (layerBlocksOf context.settings root doc).Nodup := (h.nodup root).filter _
  obtain ⟨utility, hr, hsame, hrules⟩ := (rewritten_self h).hoistBlocks h hnodup (fun _ => id)
    (fun _ _ => List.not_mem_nil) fun _ _ _ _ => rfl
  rw [List.nil_append] at hr
  have hhoisted : ∀ x, (utility x).isSome = true ↔ isClassRule doc x = true ∧
      ∃ b ∈ layerBlocksOf context.settings root doc, x ∈ doc.children b := by
    intro x
    by_cases hx : ∃ b ∈ layerBlocksOf context.settings root doc, x ∈ doc.children b
    · obtain ⟨b, hb, hin⟩ := hx
      rw [hrules b hb x hin]
      exact ⟨fun hc => ⟨hc, b, hb, hin⟩, And.left⟩
    · rw [hsame x fun b hb hin => hx ⟨b, hb, hin⟩]
      exact ⟨fun hs => (nomatch hs), fun hs => absurd hs.2 hx⟩
  unfold hoistLayers
  simp only
  split
  · next hmember =>
    obtain ⟨utility', hr', hkept, hconverted⟩ := hr.convertNodes h (hr.wellFormed.nodup root) fun x =>
      hr.of_mem_top
    refine ⟨utility', fun x => ?_, hr'⟩
    unfold Converts
    cases hclass : isClassRule doc x with
    | false =>
      rw [hr'.utility_eq_none hclass]
      exact ⟨fun hs => (nomatch hs), fun hs => (nomatch hs.1)⟩
    | true =>
      by_cases hx : x ∈ doc.children root
      · have hnone : utility x = none := hsame x fun b hb hin =>
          ne_of_mem_children h (List.mem_filter.mp hb).1 (parent_unique h hin hx)
        rw [hconverted x (hr.mem_top hx hnone (hr.not_gone_of_class hclass)) hx, hclass]
        exact iff_of_true rfl ⟨rfl, Or.inr ⟨hmember, hx⟩⟩
      · have hout : x ∉ (List.foldl (hoistBlock context.settings.atRule root) doc
            (layerBlocksOf context.settings root doc)).children root := fun hm => by
          rcases hr.of_mem_top hm with ⟨r, hv⟩ | ⟨htop, -⟩
          · exact hr.ne_utility hv (contains_of_isClassRule hclass) rfl
          · exact hx htop
        rw [hkept x hout, hhoisted, hclass]
        exact and_congr_right fun _ => ⟨Or.inl, fun hs => hs.resolve_right fun hm => hx hm.2⟩
  · next hmember =>
    refine ⟨utility, fun x => ?_, hr⟩
    rw [hhoisted, Converts]
    exact and_congr_right fun _ => ⟨Or.inl, fun hx => hx.resolve_right fun hm => hmember hm.1⟩

/-! ### A second pass -/

/-- Where no rule becomes a utility and no block goes, nothing changes. -/
theorem hoistLayers_eq_self (hrules : ∀ x, ¬ Converts context root doc x)
    (hblocks : emptiedBlocks context.settings root doc = []) : hoistLayers context root doc = doc := by
  have hstays : ∀ x, isClassRule doc x = false →
      toUtility? context.settings.atRule doc x = none := fun x hx =>
    toUtility?_eq_none (Option.isNone_iff_eq_none.mp (by rw [← Option.not_isSome, ← isClassRule, hx]; rfl))
  have hblock : ∀ block ∈ layerBlocksOf context.settings root doc,
      hoistBlock context.settings.atRule root doc block = doc := by
    intro block hm
    have hfold : (doc.children block).foldl (hoistRule context.settings.atRule root block) doc = doc := by
      refine List.foldlRecOn (motive := (· = doc)) _ _ rfl fun d hd rule hrule => ?_
      have hclass : isClassRule doc rule = false := Bool.eq_false_iff.mpr fun hc =>
        hrules rule ⟨hc, Or.inl ⟨block, hm, hrule⟩⟩
      rw [hd, hoistRule, hstays rule hclass]
    have hne : (doc.children block).isEmpty = false := by
      have hall := List.filter_eq_nil_iff.mp hblocks block hm
      rw [Bool.not_eq_true] at hall
      obtain ⟨c, hc, -⟩ := List.all_eq_false.mp hall
      rw [List.isEmpty_eq_false_iff]
      exact List.ne_nil_of_mem hc
    unfold hoistBlock
    simp only
    rw [hfold, hne, if_neg Bool.false_ne_true]
  have hfirst : (layerBlocksOf context.settings root doc).foldl
      (hoistBlock context.settings.atRule root) doc = doc :=
    List.foldlRecOn (motive := (· = doc)) _ _ rfl fun d hd block hm => by rw [hd, hblock block hm]
  unfold hoistLayers
  simp only
  rw [← layerBlocksOf, hfirst]
  split
  · next hmember =>
    refine List.foldlRecOn (motive := (· = doc)) _ _ rfl fun d hd rule hrule => ?_
    have hclass : isClassRule doc rule = false := Bool.eq_false_iff.mpr fun hc =>
      hrules rule ⟨hc, Or.inr ⟨hmember, hrule⟩⟩
    rw [hd, convertInPlace, hstays rule hclass]
  · rfl

namespace Rewritten

variable (hr : Rewritten settings root doc utility gone g) (h : doc.WellFormed)
include hr h

omit h in
/-- A rule for one simple class that is there afterwards was there before. -/
theorem of_isClassRule (hx : isClassRule g x = true) :
    isClassRule doc x = true ∧ utility x = none := by
  rcases (hr.live x).mp (contains_of_isClassRule hx) with ⟨r, hv⟩ | ⟨hlive, hnone, hgone⟩
  · obtain ⟨name, -, hget⟩ := hr.made r x hv
    rw [isClassRule, hget] at hx
    cases hx
  · rw [isClassRule, hr.data x hlive hnone hgone] at hx
    exact ⟨hx, hnone⟩

/-- Where utilities do not go by the name of layers, the blocks are those that have not gone. -/
theorem of_mem_layerBlocksOf (hat : Text.sameCaseless settings.atRule "layer" = false)
    (hm : block ∈ layerBlocksOf settings root g) :
    block ∈ layerBlocksOf settings root doc ∧ block ∉ gone := by
  obtain ⟨hin, hlayer⟩ := List.mem_filter.mp hm
  rcases hr.of_mem_top hin with ⟨r, hv⟩ | ⟨htop, hnone, hgone⟩
  · obtain ⟨name, -, hget⟩ := hr.made r block hv
    rw [hget, Option.any_some, isLayerBlock, Node.blockAtRule] at hlayer
    simp only [hat, Bool.false_and] at hlayer
    cases hlayer
  · rw [hr.data block (h.contains_child htop) hnone hgone] at hlayer
    exact ⟨List.mem_filter.mpr ⟨htop, hlayer⟩, hgone⟩

end Rewritten

/-- A second pass finds no rules and no blocks. -/
theorem Rewritten.hoistLayers_again (h : doc.WellFormed)
    (hr : Rewritten context.settings root doc utility (emptiedBlocks context.settings root doc) g)
    (hdomain : ∀ x, (utility x).isSome = true ↔ Converts context root doc x)
    (hat : Text.sameCaseless context.settings.atRule "layer" = false) : hoistLayers context root g = g := by
  have hleft : ∀ x, isClassRule g x = true → ¬ Converts context root doc x := fun x hx hc => by
    have hsome := (hdomain x).mpr hc
    rw [(hr.of_isClassRule hx).2] at hsome
    cases hsome
  refine hoistLayers_eq_self (fun x hx => hleft x hx.1 ⟨(hr.of_isClassRule hx.1).1, ?_⟩) ?_
  · rcases hx.2 with ⟨block, hblock, hin⟩ | ⟨hmember, htop⟩
    · obtain ⟨hblock, hgone⟩ := hr.of_mem_layerBlocksOf h hat hblock
      rw [hr.children_block h hblock hgone] at hin
      exact Or.inl ⟨block, hblock, List.mem_of_mem_filter hin⟩
    · rcases hr.of_mem_top htop with ⟨r, hv⟩ | ⟨htop, -⟩
      · exact absurd rfl (hr.ne_utility hv (contains_of_isClassRule (hr.of_isClassRule hx.1).1))
      · exact Or.inr ⟨hmember, htop⟩
  · -- Some node of each block that is left is no rule for one simple class, and it is still there.
    refine List.filter_eq_nil_iff.mpr fun block hm hall => ?_
    obtain ⟨hblock, hgone⟩ := hr.of_mem_layerBlocksOf h hat hm
    have hsome : holdsClassRules doc block = false := Bool.eq_false_iff.mpr fun hc =>
      hgone (List.mem_filter.mpr ⟨hblock, hc⟩)
    obtain ⟨c, hc, hplain⟩ := List.all_eq_false.mp hsome
    have hnone := hr.utility_eq_none (Bool.eq_false_iff.mpr hplain)
    have hin : c ∈ g.children block := by
      rw [hr.children_block h hblock hgone, List.mem_filter, hnone]
      exact ⟨hc, rfl⟩
    exact hplain (hr.of_isClassRule (List.all_eq_true.mp hall c hin)).1

/-- **Hoisting the layers of a stylesheet makes utilities of exactly the class rules of split layers, in
one pass.** -/
theorem hoistLayers_exact (h : doc.WellFormed) (context : SheetFacts) (root : NodeId)
    (hat : Text.sameCaseless context.settings.atRule "layer" = false) :
    ∃ utility, (∀ x, (utility x).isSome = true ↔ Converts context root doc x) ∧
      Rewritten context.settings root doc utility (emptiedBlocks context.settings root doc)
        (hoistLayers context root doc) ∧
      (∀ x, doc.contains x = true → utility x = none → x ∉ emptiedBlocks context.settings root doc →
        (hoistLayers context root doc).parent? x = (doc.parent? x).map fun p => (utility p).getD p) ∧
      hoistLayers context root (hoistLayers context root doc) = hoistLayers context root doc := by
  obtain ⟨utility, hdomain, hr⟩ := rewritten_hoistLayers h context root
  exact ⟨utility, hdomain, hr, fun x => hr.parent? h, hr.hoistLayers_again h hdomain hat⟩

/-- A rule, and blocks of the layers `utilities` and `components`. -/
def layered : Document :=
  ((Forest.empty.create Node.root).2.plant ⟨0, 0⟩
    (.cons (.rule ".a") .nil
      (.cons (.blockAtRule "layer" "utilities")
        (.cons (.rule ".b") (.cons (.declaration "margin" "0" false) .nil .nil) .nil)
        (.cons (.blockAtRule "layer" "components")
          (.cons (.rule ".c > p") .nil (.cons (.rule ".c") .nil .nil)) .nil)))).2

/-- In a stylesheet of the layer `components` three of the rules become utilities, and one of the blocks
goes. -/
theorem hoistLayers_layered : layered.WellFormed ∧
    Text.sameCaseless ({} : Settings).atRule "layer" = false ∧
    (hoistLayers { layers := ["components"] } ⟨0, 0⟩ layered).css ⟨0, 0⟩ =
      "@utility a \x7b\x7d\n@utility b \x7b\n  margin: 0;\n\x7d\n@utility c \x7b\x7d\n" ++
        "@layer components \x7b\n  .c > p \x7b\x7d\n\x7d" ∧
    ∃ utility, (∀ id ∈ [⟨1, 0⟩, ⟨3, 0⟩, ⟨7, 0⟩], (utility id).isSome = true) ∧ utility ⟨6, 0⟩ = none ∧
      Rewritten {} ⟨0, 0⟩ layered utility [⟨2, 0⟩]
        (hoistLayers { layers := ["components"] } ⟨0, 0⟩ layered) := by
  have hroot := (contains_create stocked_empty Node.root _).mpr (Or.inl rfl)
  have hwf : layered.WellFormed := (planted_plant (wellFormed_empty.create _) hroot _).wellFormed
  have hat : Text.sameCaseless ({} : Settings).atRule "layer" = false := by decide +kernel
  obtain ⟨utility, hdomain, hr, -, -⟩ := hoistLayers_exact hwf { layers := ["components"] } ⟨0, 0⟩ hat
  have hconverts : ∀ id ∈ [⟨1, 0⟩, ⟨3, 0⟩, ⟨7, 0⟩],
      Converts { layers := ["components"] } ⟨0, 0⟩ layered id := by decide +kernel
  have hgone : emptiedBlocks {} ⟨0, 0⟩ layered = [⟨2, 0⟩] := by decide +kernel
  exact ⟨hwf, hat, by decide +kernel, utility, fun id hid => (hdomain id).mpr (hconverts id hid),
    hr.utility_eq_none (by decide +kernel), hgone ▸ hr⟩

end Strata.Transform
