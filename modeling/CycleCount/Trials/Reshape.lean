import CycleCount.Disk.Records
import CycleCount.Trials.Row

/-! Turning measurements that come trial by trial into one row per function. The
functions of the first trial set the order, and every later trial has to name
them in the same order. A file is written only when the whole input was sound. -/

namespace CycleCount

structure TrialShape where
  functions : Nat
  trials : Option Nat := none
  functions_pos : 0 < functions
deriving Repr

structure TrialAccumulator where
  shape : TrialShape
  origin : Path
  rows : List FunctionRow := []
  seen : Nat := 0
deriving Repr

namespace TrialAccumulator

def allows (shape : TrialShape) (trial : Nat) : Bool :=
  shape.trials.all (trial < ·)

/-- Calls that change an accumulator in place. What such a call has changed stays
changed if it fails, and one that looks for a row that is not there ends without any
reply. Room for the rows and their counts is taken for granted, however many are
promised. -/
abbrev InPlace := ExceptT Error (StateT TrialAccumulator Option)

def feed (line : Nat) (function : String) (cycles : UInt64) : InPlace Unit := do
  let acc ← get
  let trial := acc.seen / acc.shape.functions
  let slot := acc.seen % acc.shape.functions
  if !allows acc.shape trial then
    throw (.malformedLine acc.origin line (.beyondTrials (acc.shape.trials.getD 0)))
  if trial = 0 then
    modify fun acc => { acc with rows := acc.rows ++ [⟨function, [cycles]⟩] }
  else
    let row ← acc.rows[slot]?
    if row.function ≠ function then
      throw (.identifierMismatch acc.origin.text line row.function function)
    modify fun acc =>
      { acc with rows := acc.rows.set slot { row with cycles := row.cycles ++ [cycles] } }
  modify fun acc => { acc with seen := acc.seen + 1 }

/-- The accumulator that `feed` leaves, for a caller that stops at the first refusal. -/
def push (acc : TrialAccumulator) (line : Nat) (function : String) (cycles : UInt64) :
    Except Error TrialAccumulator :=
  match (feed line function cycles).run.run acc with
  | some (.ok (), next) => .ok next
  | some (.error error, _) => .error error
  | none => .ok acc

def isComplete (acc : TrialAccumulator) : Bool :=
  0 < acc.seen && acc.seen % acc.shape.functions == 0 &&
    acc.shape.trials.all (· == acc.seen / acc.shape.functions)

def finish (acc : TrialAccumulator) : Except Error (List FunctionRow) :=
  if acc.isComplete then .ok acc.rows
  else .error (.truncatedTrial acc.origin acc.seen acc.shape.functions acc.shape.trials)

end TrialAccumulator

namespace TrialShape

def measurement (origin : Path) (line : Records.Line) : Except Error (String × UInt64) :=
  match line.fields with
  | [function, cycles] => do return (function, ← Records.cycles origin line.number cycles)
  | fields => .error (.malformedLine origin line.number (.fieldCount fields.length))

def reshape (shape : TrialShape) (origin : Path) (input : List (Except Error Records.Line)) :
    Except Error (List FunctionRow) := do
  let acc ← input.foldlM (fun (acc : TrialAccumulator) line => do
    let line ← line
    let (function, cycles) ← measurement origin line
    acc.push line.number function cycles) { shape, origin }
  acc.finish

structure Extent where
  functions : Nat
  trials : Nat
deriving DecidableEq, Repr

def extent (rows : List FunctionRow) : Extent :=
  { functions := rows.length, trials := (rows.head?.map (·.cycles.length)).getD 0 }

def reshapeFile (shape : TrialShape) (input output : Path) : OnDisk Extent := do
  let rows ← shape.reshape input (← (← get).lines input)
  let file ← Disk.create output
  Disk.append file (Text.encode (FunctionRow.write rows))
  return extent rows

end TrialShape
end CycleCount
