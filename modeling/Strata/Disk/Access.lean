import Strata.Path.Basic

/-! Access to files on disk.

What a program asks of a disk, as a record of actions of some monad: a disk in memory answers in a
state monad, the real one in `IO`. -/
namespace Strata

inductive DiskError where
  | notFound
  /-- A file where a directory has to be. -/
  | notDirectory
  /-- A directory where a file has to be. -/
  | isDirectory
  | nameTooLong
  /-- A null character in a path. -/
  | nullCharacter
  /-- Contents that are not UTF-8. -/
  | notText
  | other (message : String)
deriving DecidableEq, Repr

namespace DiskError

def message : DiskError → String
  | notFound => "No such file or directory (os error 2)"
  | notDirectory => "Not a directory (os error 20)"
  | isDirectory => "Is a directory (os error 21)"
  | nameTooLong => "File name too long (os error 36)"
  | nullCharacter => "file name contained an unexpected NUL byte"
  | notText => "stream did not contain valid UTF-8"
  | other message => message

end DiskError

structure DiskAccess (m : Type → Type) where
  isFile : FilePath → m Bool
  isDirectory : FilePath → m Bool
  read : FilePath → m (Except DiskError ByteArray)
  /-- The names in a directory, in any order. -/
  names : FilePath → m (List String)
  write : FilePath → String → m (Except DiskError Unit)
  delete : FilePath → m (Except DiskError Unit)

namespace DiskAccess

variable {m : Type → Type} [Monad m]

/-- The contents of a file as text. -/
def readText (d : DiskAccess m) (p : FilePath) : m (Except DiskError String) := do
  match ← d.read p with
  | .error e => return .error e
  | .ok bytes =>
    match String.fromUTF8? bytes with
    | some text => return .ok text
    | none => return .error .notText

end DiskAccess

end Strata
