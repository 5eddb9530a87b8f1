import CycleCount.Disk.Basic
import CycleCount.Records.Line

/-! The lines of a file on a disk, and steps that change a disk in place. A directory
can be opened as a file, but its first record cannot be read. -/

namespace CycleCount

namespace Disk

def openEntry (disk : Disk) (path : Path) : Except Error Entry :=
  match disk.opened path with
  | .ok entry => .ok entry
  | .error fault => .error (.io path fault)

def Entry.lines (path : Path) (entry : Entry) : List (Except Error Records.Line) :=
  match entry.content with
  | .ok content => Records.lines path content
  | .error fault => [.error (.records path (.access fault))]

def lines (disk : Disk) (path : Path) : Except Error (List (Except Error Records.Line)) := do
  return (← disk.openEntry path).lines path

def save (disk : Disk) (path : Path) (content : Bytes) : Except Error Disk :=
  match disk.write path content with
  | .ok disk => .ok disk
  | .error fault => .error (.io path fault)

end Disk

/-- Steps on a disk. What a step has changed stays changed if a later one fails. -/
abbrev OnDisk := ExceptT Error (StateM Disk)

def OnDisk.runOn {α : Type} (steps : OnDisk α) (disk : Disk) : Except Error α × Disk :=
  (steps.run.run disk).run

namespace Disk

/-- Opens a file for writing. From then on it is empty, whatever it held before. -/
def create (path : Path) : OnDisk Location := do
  let disk ← get
  match disk.target path with
  | .error fault => throw (.io path fault)
  | .ok location =>
    set (disk.put location (.file [] disk.now (disk.access location)))
    return location

def append (location : Location) (content : Bytes) : OnDisk Unit :=
  modify fun disk =>
    match disk.entry? location with
    | some (.file before _ readable) =>
      { disk.put location (.file (before ++ content) disk.now readable) with now := tick disk.now }
    | _ => disk

end Disk
end CycleCount
