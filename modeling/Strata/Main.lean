import Strata.Cli.Run

/-! The command line program: one run on the real disk. -/
namespace Strata

/-- The errors of the real disk. -/
def DiskError.ofSystem : IO.Error → DiskError
  | .noFileOrDirectory .. => .notFound
  | .inappropriateType .. => .isDirectory
  | e => .other (toString e)

/-- The answer of an action, or its error. -/
def answered {α : Type} (act : IO α) : IO (Except DiskError α) := do
  try return .ok (← act)
  catch e => return .error (.ofSystem e)

/-- Access to the real disk. -/
def systemDisk : DiskAccess IO where
  isFile p := do
    let place := (← IO.currentDir) / p.text
    return (← place.pathExists) && !(← place.isDir)
  isDirectory p := do ((← IO.currentDir) / p.text).isDir
  read p := answered (IO.FS.readBinFile p.text)
  names p := do return (← ((← IO.currentDir) / p.text).readDir).toList.map (·.fileName)
  write p text := answered (IO.FS.writeFile p.text text)
  delete p := answered (IO.FS.removeFile p.text)

end Strata

def main (arguments : List String) : IO UInt32 := do
  let cwd ← IO.currentDir
  let outcome ← Strata.Cli.run Strata.systemDisk ⟨cwd.toString⟩ arguments
  (← IO.getStdout).putStr outcome.output
  (← IO.getStderr).putStr outcome.errors
  return .ofNat outcome.exitCode
