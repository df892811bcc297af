import Strata.Disk.Access

/-! A disk in memory.

Files and directories by their names from the root on, without links. A path is followed name by
name: what comes before a slash has to be a directory, also where two dots lead out of it again. -/
namespace Strata

/-- What is at a place of a disk: a file with its contents, or a directory. -/
inductive DiskEntry where
  | file (contents : ByteArray)
  | directory

structure Disk where
  entries : List (List String × DiskEntry) := []

namespace Disk

/-- What is at a place. The root is a directory. -/
def get? (d : Disk) (names : List String) : Option DiskEntry :=
  if names.isEmpty then some .directory else d.entries.lookup names

def erase (d : Disk) (names : List String) : Disk :=
  { d with entries := d.entries.filter fun (other, _) => other != names }

def put (d : Disk) (names : List String) (e : DiskEntry) : Disk :=
  { d with entries := (d.erase names).entries ++ [(names, e)] }

/-- The disk with a directory and those above it. -/
def makeDirectory (d : Disk) (names : List String) : Disk :=
  (List.range names.length).foldl (fun d n =>
    let names := names.take (n + 1)
    if (d.get? names).isSome then d else d.put names .directory) d

/-- The disk with a file and the directories above it. -/
def putFile (d : Disk) (names : List String) (contents : ByteArray) : Disk :=
  (d.makeDirectory names.dropLast).put names (.file contents)

/-! ### Places -/

/-- The bytes a name may have. -/
def nameLimit : Nat := 255

/-- The bytes a path may have. -/
def pathLimit : Nat := 4095

/-- Follows the pieces of a path from a place. The last name may be missing, and is then the place of
nothing. -/
def follow (d : Disk) : (place : List String) → (pieces : List String) →
    Except DiskError (List String × Option DiskEntry)
  | place, [] =>
    match d.get? place with
    | some e => .ok (place, some e)
    | none => .ok (place, none)
  | place, piece :: pieces =>
    match d.get? place with
    | none => .error .notFound
    | some (.file _) => .error .notDirectory
    | some .directory =>
      if piece = "" ∨ piece = "." then follow d place pieces
      else if piece = ".." then follow d place.dropLast pieces
      else if piece.utf8ByteSize > nameLimit then .error .nameTooLong
      else follow d (place ++ [piece]) pieces

/-- The place that a path leads to from the directory `cwd`, and what is there. -/
def locate (d : Disk) (cwd : List String) (p : FilePath) :
    Except DiskError (List String × Option DiskEntry) :=
  if p.text.toList.contains '\x00' then .error .nullCharacter
  else if p.text.isEmpty then .error .notFound
  else if p.text.utf8ByteSize > pathLimit then .error .nameTooLong
  else
    let pieces := (Text.splitAll '/' p.text.toList).map String.ofList
    d.follow (if p.isAbsolute then [] else cwd) pieces

/-- What is at the end of a path. -/
def find (d : Disk) (cwd : List String) (p : FilePath) :
    Except DiskError (List String × DiskEntry) :=
  match d.locate cwd p with
  | .error e => .error e
  | .ok (_, none) => .error .notFound
  | .ok (place, some e) => .ok (place, e)

/-! ### Access -/

def isFile (d : Disk) (cwd : List String) (p : FilePath) : Bool :=
  match d.find cwd p with
  | .ok (_, .file _) => true
  | _ => false

def isDirectory (d : Disk) (cwd : List String) (p : FilePath) : Bool :=
  match d.find cwd p with
  | .ok (_, .directory) => true
  | _ => false

def read (d : Disk) (cwd : List String) (p : FilePath) : Except DiskError ByteArray :=
  match d.find cwd p with
  | .error e => .error e
  | .ok (_, .directory) => .error .isDirectory
  | .ok (_, .file contents) => .ok contents

def names (d : Disk) (cwd : List String) (p : FilePath) : List String :=
  match d.find cwd p with
  | .ok (place, .directory) =>
    d.entries.filterMap fun (names, _) =>
      if names.dropLast = place ∧ names ≠ [] then names.getLast? else none
  | _ => []

def write (d : Disk) (cwd : List String) (p : FilePath) (text : String) : Except DiskError Disk :=
  match d.locate cwd p with
  | .error e => .error e
  | .ok (_, some .directory) => .error .isDirectory
  | .ok (place, _) => .ok (d.put place (.file text.toUTF8))

def delete (d : Disk) (cwd : List String) (p : FilePath) : Except DiskError Disk :=
  match d.find cwd p with
  | .error e => .error e
  | .ok (_, .directory) => .error .isDirectory
  | .ok (place, .file _) => .ok (d.erase place)

/-- A change to the disk, which stays as it is on an error. -/
def attempt (change : Disk → Except DiskError Disk) :
    StateM Disk (Except DiskError Unit) := fun d =>
  match change d with
  | .error e => (.error e, d)
  | .ok d => (.ok (), d)

/-- Access from the directory `cwd`. -/
def access (cwd : List String) : DiskAccess (StateM Disk) where
  isFile p := do return (← get).isFile cwd p
  isDirectory p := do return (← get).isDirectory cwd p
  read p := do return (← get).read cwd p
  names p := do return (← get).names cwd p
  write p text := attempt fun d => d.write cwd p text
  delete p := attempt fun d => d.delete cwd p

end Disk

end Strata
