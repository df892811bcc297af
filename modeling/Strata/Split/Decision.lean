import Strata.Css.ImportParams
import Strata.Workspace.Basic
import Strata.Settings

/-! Which stylesheets are split.

A stylesheet with a file, in a layer that is split, is split when it holds a utility. One that holds
nothing but utilities stays whole if all its imports are plain and no importer is split: a split
would only empty it and hand its file to the same content.

The question goes from a stylesheet to its importers. Answers are kept, and a stylesheet that is
asked about while its own answer is sought, which only a cycle of imports brings about, counts as
whole. -/
namespace Strata.Workspace

/-- The utilities of a stylesheet, the outermost ones in document order. -/
def utilities (w : Workspace) (settings : Settings) (id : SheetId) : List NodeId :=
  match w.get? id with
  | none => []
  | some s => w.doc.outermost s.root (Node.isAt settings.atRule)

/-- May be split at all. -/
def isEligible (w : Workspace) (settings : Settings) (id : SheetId) : Bool :=
  (w.get? id).any fun s =>
    s.file.isSome && !s.discarded && !s.derived && s.meetsLayers settings.layers

/-- The imports of a stylesheet that no migration added. -/
def authoredImports (w : Workspace) (id : SheetId) : List NodeId :=
  match w.get? id with
  | none => []
  | some s => s.inbound.filter fun rule => (w.doc.get? rule).any (!·.isAdded)

/-- The stylesheets that hold those imports, one for each. -/
def importingSheets (w : Workspace) (id : SheetId) : List SheetId :=
  (w.authoredImports id).filterMap w.sheetOf?

/-- The top level is not empty and holds nothing but some nodes. -/
def consistsOf (w : Workspace) (id : SheetId) (nodes : List NodeId) : Bool :=
  match w.get? id with
  | none => false
  | some s =>
    let children := w.doc.children s.root
    !children.isEmpty && children.all nodes.contains

/-- The parameters of an import are a quoted specifier and nothing else. -/
def isPlainImport (params : String) : Bool :=
  match Css.specifier? params with
  | none => false
  | some specifier =>
    Text.trimmed params == Css.plainImport specifier (Css.importQuote params)

/-- Every import that no migration added is plain. -/
def isPlainlyImported (w : Workspace) (id : SheetId) : Bool :=
  (w.authoredImports id).all fun rule =>
    ((w.doc.get? rule).bind Node.params?).any isPlainImport

/-- The answers so far, the latest first. None stands for an answer that is being sought. -/
abbrev Answers := List (SheetId × Option Bool)

/-- One of some stylesheets is split; none behind it is asked about. -/
def anyNeedsSplit (ask : SheetId → Answers → Bool × Answers) :
    List SheetId → Answers → Bool × Answers
  | [], answers => (false, answers)
  | id :: ids, answers =>
    match ask id answers with
    | (true, answers) => (true, answers)
    | (false, answers) => anyNeedsSplit ask ids answers

/-- Whether a stylesheet is split. Each step to an importer starts one more search for an answer, so
the number of stylesheets bounds them. -/
def needsSplit (w : Workspace) (settings : Settings) : Nat → SheetId → Answers → Bool × Answers
  | 0, _, answers => (false, answers)
  | fuel + 1, id, answers =>
    match answers.lookup id with
    | some (some known) => (known, answers)
    | some none => (false, answers)
    | none =>
      let answers := (id, none) :: answers
      let utilities := w.utilities settings id
      let (result, answers) : Bool × Answers :=
        if !w.isEligible settings id || utilities.isEmpty then (false, answers)
        else if w.consistsOf id utilities && w.isPlainlyImported id then
          anyNeedsSplit (needsSplit w settings fuel) (w.importingSheets id) answers
        else (true, answers)
      (result, (id, some result) :: answers)

/-- The donors: the stylesheets to be split, in the order of registration. -/
def donors (w : Workspace) (settings : Settings) : List SheetId :=
  go w.ids []
where
  go : List SheetId → Answers → List SheetId
    | [], _ => []
    | id :: ids, answers =>
      match w.needsSplit settings (w.sheets.size + 1) id answers with
      | (true, answers) => id :: go ids answers
      | (false, answers) => go ids answers

end Strata.Workspace
