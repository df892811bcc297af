import Strata.Proofs.Analysis
import Strata.Proofs.Split.Answers

/-! Which stylesheets a split takes apart.

`Splits` says it without a search: a stylesheet is split when it holds utilities
and something else, or is imported in more than the plain way, or when an importer
is split. Without cycles the search with its kept answers decides just that
(`mem_donors`), as no stylesheet is asked about while its own answer is sought. -/
namespace Strata.Workspace

open Forest

variable {w : Workspace} {settings : Settings}

inductive Splits (w : Workspace) (settings : Settings) : SheetId → Prop where
  | mixed {id} : CanSplit w settings id → ¬ w.IsSelfContained settings id → Splits w settings id
  | handed {id importer} : CanSplit w settings id → w.Imports importer id →
      Splits w settings importer → Splits w settings id

theorem Splits.canSplit {id : SheetId} (h : w.Splits settings id) : w.CanSplit settings id := by
  cases h with
  | mixed h _ => exact h
  | handed h _ _ => exact h

/-! ### Importers -/

/-- Before a split no import is an added one. -/
theorem Recorded.authoredImports_eq (h : w.Recorded) {id : SheetId} {s : Sheet}
    (hs : w.get? id = some s) : w.authoredImports id = s.inbound := by
  unfold authoredImports
  rw [hs]
  refine List.filter_eq_self.mpr fun rule hr => ?_
  obtain ⟨⟨n, params, specifier, hn, -⟩, -⟩ := h.rule id s rule hs hr
  rw [hn, Option.any_some, Node.isAdded, h.origin rule n hn]
  rfl

namespace Analysed

variable (h : w.Analysed)
include h

theorem authoredImports_eq {id : SheetId} {s : Sheet} (hs : w.get? id = some s) :
    w.authoredImports id = s.inbound := h.recorded.authoredImports_eq hs

theorem importsAuthored_eq : w.ImportsAuthored = w.Imports := by
  funext x y
  refine propext ⟨fun ⟨s, rule, _, hs, hr, _, _, hx⟩ => ⟨s, rule, hs, hr, hx⟩, ?_⟩
  rintro ⟨s, rule, hs, hr, hx⟩
  have hrule : rule ∈ w.authoredImports y := by rwa [h.authoredImports_eq hs]
  obtain ⟨-, n, hn, hauthored⟩ := (mem_authoredImports hs).mp hrule
  exact ⟨s, rule, n, hs, hr, hn, hauthored, hx⟩

theorem mem_importingSheets {id importer : SheetId} :
    importer ∈ w.importingSheets id ↔ w.Imports importer id := by
  rw [mem_importingSheets_iff, h.importsAuthored_eq]

theorem decides_splits : w.Decides settings (w.Splits settings) := by
  refine decides_iff.mpr fun id => ⟨fun hs => ?_, fun ⟨hcan, hgo⟩ => ?_⟩
  · cases hs with
    | mixed hcan hself => exact ⟨hcan, fun hstay => hself hstay.1⟩
    | handed hcan hi hs => exact ⟨hcan, fun hstay => hstay.2 _ (h.mem_importingSheets.mpr hi) hs⟩
  · by_contra hno
    refine hgo ⟨by_contra fun hself => hno (.mixed hcan hself), fun importer hi hs => ?_⟩
    exact hno (.handed hcan (h.mem_importingSheets.mp hi) hs)

theorem not_importsAuthored_cycle (id : SheetId) : ¬ Relation.TransGen w.ImportsAuthored id id := by
  rw [h.importsAuthored_eq]
  exact h.acyclic id

end Analysed

theorem lt_size_of_imports {x y : SheetId} (h : w.Imports x y) (ht : w.Tidy) :
    x < w.sheets.size := by
  obtain ⟨s, rule, -, -, hx⟩ := h
  obtain ⟨-, t, hxt, -⟩ := ht.sheetOf?_eq_some.mp hx
  exact lt_size hxt

/-! ### Donors -/

/-- **The donors are the stylesheets that are to be split.** -/
theorem mem_donors (h : w.Analysed) (id : SheetId) :
    id ∈ w.donors settings ↔ w.Splits settings id := by
  classical
  rw [donors_eq h.not_importsAuthored_cycle h.decides_splits, List.mem_filter, decide_eq_true_iff]
  refine and_iff_right_of_imp fun hs => ?_
  obtain ⟨s, hs⟩ := hs.canSplit.get?
  exact List.mem_range.mpr (lt_size hs)

end Strata.Workspace
