import CycleCount.Instant.Basic
import CycleCount.Path
import CycleCount.Text.Basic

/-! A file tree as a value. Commands are functions of a disk: they look paths up in
it, and those that write return the disk that results. Absolute paths start at the
root, all others in the working directory. What is there need not be open to
reading; every directory can be passed through and every file can be replaced. -/

namespace CycleCount

namespace Disk

inductive Fault where
  | notFound
  | denied
  | notADirectory
  | isADirectory
deriving DecidableEq, Repr

def Fault.message : Fault → String
  | .notFound => "No such file or directory (os error 2)"
  | .denied => "Permission denied (os error 13)"
  | .notADirectory => "Not a directory (os error 20)"
  | .isADirectory => "Is a directory (os error 21)"

structure Directory where
  size : Nat := 0
  modified : Instant := ⟨0, 0⟩
  readable : Bool := true
deriving DecidableEq, Repr

inductive Entry where
  | file (content : Bytes) (modified : Instant) (readable : Bool := true)
  | directory (about : Directory)
deriving DecidableEq, Repr

abbrev Location := List String

end Disk

structure Disk where
  entries : List (Disk.Location × Disk.Entry) := []
  root : Disk.Directory := {}
  here : Disk.Location := []
  /-- The time of the next write. -/
  now : Instant := ⟨0, 0⟩
deriving DecidableEq, Repr

namespace Disk

namespace Entry

def isFile : Entry → Bool
  | file .. => true
  | directory _ => false

def isReadable : Entry → Bool
  | file _ _ readable => readable
  | directory about => about.readable

def stamp : Entry → Nat × Instant
  | file content modified _ => (content.length, modified)
  | directory about => (about.size, about.modified)

/-- Reading a directory fails, although it can be opened. -/
def content : Entry → Except Fault Bytes
  | file content _ _ => .ok content
  | directory _ => .error .isADirectory

end Entry

def entry? (disk : Disk) (location : Location) : Option Entry :=
  if location.isEmpty then some (.directory disk.root) else disk.entries.lookup location

/-- Follows one piece of a path. Only directories can be passed through, and a piece
that names nothing still needs a directory to stand in. The root is its own parent. -/
def step (disk : Disk) (location : Location) (piece : List Char) : Except Fault Location :=
  match disk.entry? location with
  | some (.directory _) =>
    match Path.component? piece with
    | some .up =>
      if (disk.entry? location.dropLast).any (!·.isFile) then .ok location.dropLast
      else .error .notFound
    | some (.name name) =>
      if (disk.entry? (location ++ [name])).isSome then .ok (location ++ [name])
      else .error .notFound
    | _ => .ok location
  | some (.file ..) => .error .notADirectory
  | none => .error .notFound

def walk (disk : Disk) (location : Location) (pieces : List (List Char)) :
    Except Fault Location :=
  pieces.foldlM disk.step location

def start (disk : Disk) (path : Path) : Location := if path.isAbsolute then [] else disk.here

def locate (disk : Disk) (path : Path) : Except Fault Location :=
  if path.text.isEmpty then .error .notFound else disk.walk (disk.start path) path.pieces

def find (disk : Disk) (path : Path) : Except Fault Entry := do
  match disk.entry? (← disk.locate path) with
  | some entry => .ok entry
  | none => .error .notFound

def contains (disk : Disk) (path : Path) : Bool := (disk.find path).toOption.isSome

def opened (disk : Disk) (path : Path) : Except Fault Entry := do
  let entry ← disk.find path
  if entry.isReadable then .ok entry else .error .denied

def read (disk : Disk) (path : Path) : Except Fault Bytes := do (← disk.opened path).content

def nameIn? (directory location : Location) : Option String :=
  match location.getLast? with
  | some name => if location = directory ++ [name] then some name else none
  | none => none

def list (disk : Disk) (path : Path) : Except Fault (List String) := do
  let location ← disk.locate path
  match disk.entry? location with
  | some (.directory about) =>
    if about.readable then .ok (disk.entries.filterMap fun (other, _) => nameIn? location other)
    else .error .denied
  | some (.file ..) => .error .notADirectory
  | none => .error .notFound

def put (disk : Disk) (location : Location) (entry : Entry) : Disk :=
  if (disk.entries.lookup location).isSome then
    { disk with entries := disk.entries.map fun other =>
        if other.1 = location then (location, entry) else other }
  else { disk with entries := disk.entries ++ [(location, entry)] }

/-- Where a file of the given path would be written. The directory around it has
to exist, and a path that ends in a slash or in a dot names no file. -/
def target (disk : Disk) (path : Path) : Except Fault Location :=
  if path.text.isEmpty then .error .notFound
  else
    match (path.pieces.reverse.dropWhile List.isEmpty) with
    | [] => .error .isADirectory
    | name :: around => do
      let directory ← disk.walk (disk.start path) (around.reverse ++ [[]])
      if path.chars.getLast? = some '/' ∨ name = ['.'] ∨ name = ['.', '.'] then
        .error .isADirectory
      else
        let location := directory ++ [String.ofList name]
        match disk.entry? location with
        | some (.directory _) => .error .isADirectory
        | _ => .ok location

/-- Whether a file that is written at a location can then be read: one that is
replaced stays as readable as it was, and a new one is readable. -/
def access (disk : Disk) (location : Location) : Bool :=
  match disk.entry? location with
  | some (.file _ _ readable) => readable
  | _ => true

def tick (t : Instant) : Instant :=
  if t.nanoseconds + 1 < 1000000000 then ⟨t.seconds, t.nanoseconds + 1⟩ else ⟨t.seconds + 1, 0⟩

/-- Creates or replaces a file. No two writes happen at the same time. -/
def write (disk : Disk) (path : Path) (content : Bytes) : Except Fault Disk := do
  let location ← disk.target path
  return { disk.put location (.file content disk.now (disk.access location)) with
    now := tick disk.now }

def spelled (path : Path) : Location :=
  path.components.filterMap fun
    | .name text => some text
    | _ => none

def makeDirectory (disk : Disk) (path : Path) (about : Directory) : Disk :=
  let names := spelled path
  (List.range names.length).foldl (fun disk n =>
    let location := names.take (n + 1)
    if (disk.entry? location).isSome then disk else disk.put location (.directory about)) disk

def install (disk : Disk) (path : Path) (content : Bytes) (modified : Instant) : Disk :=
  let around := match path.parent? with
    | some parent => disk.makeDirectory parent { size := disk.root.size, modified := disk.now }
    | none => disk
  around.put (spelled path) (.file content modified (disk.access (spelled path)))

def remove (disk : Disk) (path : Path) : Disk :=
  { disk with entries := disk.entries.filter fun (location, _) =>
      !(spelled path).isPrefixOf location }

def touch (disk : Disk) (path : Path) (modified : Instant) : Disk :=
  match disk.entry? (spelled path) with
  | some (.file content _ readable) => disk.put (spelled path) (.file content modified readable)
  | _ => disk

end Disk
end CycleCount
