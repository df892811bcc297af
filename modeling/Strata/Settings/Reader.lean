import Strata.Settings
import Strata.Toml.Reader

/-! Settings in a TOML document.

Settings come from the table `split` of a document, or from an array of its values in their order.
What is left out has its default, and what is unknown does not count. -/
namespace Strata

namespace Settings

def stringItem? : Toml.Item → Option String
  | .string s => some s
  | _ => none

def stringsItem? : Toml.Item → Option (List String)
  | .array items => items.mapM stringItem?
  | _ => none

/-- The value of an item, or the default where there is no item. -/
def orDefault {α : Type} (read : Toml.Item → Option α) (default : α) : Option Toml.Item → Option α
  | none => some default
  | some item => read item

/-- The settings from the items of the three values, where there are any. -/
def ofItems? (layers atRule suffix : Option Toml.Item) : Option Settings := do
  let d : Settings := {}
  return { layers := ← orDefault stringsItem? d.layers layers
           atRule := ← orDefault stringItem? d.atRule atRule
           suffix := ← orDefault stringItem? d.suffix suffix }

/-- The settings that an item describes. A date counts as a table of unknown values. -/
def ofItem? : Toml.Item → Option Settings
  | .table _ es =>
    ofItems? (es.lookup "layers") (es.lookup "at_rule") (es.lookup "suffix")
  | .array items => ofItems? items[0]? items[1]? items[2]?
  | .tables elements =>
    let items := elements.map (Toml.Item.table .header)
    ofItems? items[0]? items[1]? items[2]?
  | .date => some {}
  | _ => none

/-- The settings in a TOML document. -/
def ofToml? (text : String) : Option Settings := do
  let es ← Toml.read? text
  match es.lookup "split" with
  | none => some {}
  | some item => ofItem? item

end Settings

end Strata
