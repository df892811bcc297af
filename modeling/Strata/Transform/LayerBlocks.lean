import Strata.Text.Letter
import Strata.Transform.Basic

/-! Class rules of utility layers become utilities.

Below a top-level block `@layer utilities { … }`, every rule for one simple class becomes a utility
in front of the block, and a block that nothing is left in goes. In a stylesheet that is itself in
such a layer, the top-level rules for one simple class become utilities where they stand. Rules with
any other selector stay. -/
namespace Strata.Transform

/-- The class of a selector that is one class and nothing else, written without escapes. -/
def loneClass? (selector : String) : Option String :=
  match Text.trim selector.toList with
  | '.' :: c :: cs =>
    if !c.isDigit && (c :: cs).all (fun c => Text.isLetterOrDigit c || c == '-' || c == '_')
    then some (.ofList (c :: cs))
    else none
  | _ => none

/-- The class of a rule for one simple class. -/
def ruleClass? (n : Node) : Option String :=
  match n.form with
  | .rule selector => loneClass? selector
  | _ => none

/-- A rule for one simple class gives way to a block at-rule, which gets its children. -/
def toUtility? (atRule : String) (doc : Document) (rule : NodeId) : Option (NodeId × Document) := do
  let name ← (doc.get? rule).bind ruleClass?
  let (utility, doc) ← doc.addBefore? rule (.blockAtRule atRule name)
  let doc := (doc.children rule).foldl (fun doc child => doc.moveLast child utility) doc
  return (utility, doc.remove rule)

/-- A block of a layer that is split. -/
def isLayerBlock (settings : Settings) (n : Node) : Bool :=
  match n.form with
  | .atRule name params true =>
    Text.sameCaseless name "layer" && settings.layers.contains (Text.trimmed params)
  | _ => false

/-- A rule in a block becomes a utility directly in front of the block. -/
def hoistRule (atRule : String) (root block : NodeId) (doc : Document) (rule : NodeId) : Document :=
  match toUtility? atRule doc rule with
  | none => doc
  | some (utility, doc) => doc.move utility root ((doc.index? block).getD 0)

/-- The rules of a block become utilities in front of it. -/
def hoistBlock (atRule : String) (root : NodeId) (doc : Document) (block : NodeId) : Document :=
  let doc := (doc.children block).foldl (hoistRule atRule root block) doc
  if (doc.children block).isEmpty then doc.remove block else doc

/-- A rule becomes a utility where it stands. -/
def convertInPlace (atRule : String) (doc : Document) (rule : NodeId) : Document :=
  match toUtility? atRule doc rule with
  | none => doc
  | some (_, doc) => doc

def hoistLayers (context : SheetFacts) (root : NodeId) (doc : Document) : Document :=
  let settings := context.settings
  let blocks := (doc.children root).filter fun id => (doc.get? id).any (isLayerBlock settings)
  let doc := blocks.foldl (hoistBlock settings.atRule root) doc
  if context.layers.any settings.layers.contains then
    (doc.children root).foldl (convertInPlace settings.atRule) doc
  else doc

/-- Class rules of utility layers become utilities. -/
def layerBlocks : Transform where
  name := "layer-utilities"
  apply context root doc := .ok (hoistLayers context root doc)

/-- The transforms of a migration that asks for no others. -/
def standard : List Transform := [layerBlocks]

end Strata.Transform
