import Strata.Path.Basic

/-! Absolute paths.

The absolute form of a path drops single dots and repeated slashes, and keeps double dots, a slash at
the end, and two slashes, not more, at the start. -/
namespace Strata.FilePath

/-- The absolute form of a path as seen from the directory `cwd`. -/
def absolute (cwd p : FilePath) : FilePath :=
  let slashes := (p.text.toList.takeWhile (· == '/')).length
  let base : FilePath :=
    if slashes = 2 then ⟨"//"⟩
    else if slashes > 0 then ⟨"/"⟩
    else cwd
  let inner := p.components.filter fun c => c != .root && c != .current
  let path := inner.foldl (fun path c => path.join ⟨c.text⟩) base
  if p.text.toList.getLast? == some '/' then path.join ⟨""⟩ else path

end Strata.FilePath
