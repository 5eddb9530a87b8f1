import CycleCount.Decimal.Word
import CycleCount.Disk.Basic
import CycleCount.Text.Basic

/-! The files of a working directory as a listing: one file a line, with the
seconds of its modification time, a blank and its path. -/

namespace CycleCount.Disk

def fraction? (digits : List Char) : Option Nat :=
  Decimal.natural? ((digits ++ List.replicate 9 '0').take 9)

def time? (cs : List Char) : Option Instant :=
  match cs.span (· != '.') with
  | (whole, []) => do return ⟨← Decimal.natural? whole, 0⟩
  | (whole, _ :: digits) => do return ⟨← Decimal.natural? whole, ← fraction? digits⟩

def listed? (line : String) : Option (Instant × Path) :=
  match line.toList.span (· != ' ') with
  | (_, []) => none
  | (time, _ :: path) => do return (← time? time, ⟨String.ofList path⟩)

def after (disk : Disk) (t : Instant) : Disk :=
  if disk.now.seconds < t.seconds ∨
      disk.now.seconds = t.seconds ∧ disk.now.nanoseconds ≤ t.nanoseconds then
    { disk with now := tick t }
  else disk

def vacant (about : Directory) (now : Instant) : Disk :=
  { entries := [(["work"], .directory about)], root := about, here := ["work"], now }

def fromRoot (disk : Disk) (path : Path) : Path := (⟨"/".intercalate disk.here⟩ : Path).join path

def fromHere (disk : Disk) (location : Location) : Path :=
  if disk.here.isPrefixOf location then ⟨"/".intercalate (location.drop disk.here.length)⟩
  else ⟨"/" ++ "/".intercalate location⟩

def addListed (disk : Disk) (modified : Instant) (path : Path) (content : Bytes) : Disk :=
  (disk.install (disk.fromRoot path) content modified).after modified

def changes (before now : Disk) : List (Path × Bytes) :=
  now.entries.filterMap fun
    | (location, .file content modified readable) =>
      if before.entry? location = some (.file content modified readable) then none
      else some (now.fromHere location, content)
    | (_, .directory _) => none

end CycleCount.Disk
