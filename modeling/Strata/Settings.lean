/-! What to split and how to name it. -/
namespace Strata

structure Settings where
  /-- The layers whose stylesheets are split. -/
  layers : List String := ["utilities", "components"]
  /-- The at-rule that defines a utility. -/
  atRule : String := "utility"
  /-- Goes into the names of derived files. -/
  suffix : String := "utilities"
deriving DecidableEq, Repr

end Strata
