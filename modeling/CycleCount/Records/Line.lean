import CycleCount.Error
import CycleCount.Records.Scan
import CycleCount.Text.Basic

/-! Records with strict line accounting: every record stands on a line of its
own, and an empty line anywhere is an error at that line. The newline that ends
the last record is no empty line. -/

namespace CycleCount.Records

structure Line where
  number : Nat
  fields : List String
deriving DecidableEq, Repr

def fieldText? (field : Bytes) : Option String :=
  (Text.decode? field).map fun s => String.ofList (Text.trim s.toList)

/-- The lines of an input, as far as they are sound. `start` is the line at which
the next record begins, `previous` the first and the following line of the record
before it, and `terminated` tells whether the input ends with a newline. -/
def account (origin : Path) (terminated : Bool) (trailing : Nat) :
    (start : Nat) → (previous : Option (Nat × Nat)) → List Chunk → List (Except Error Line)
  | _, none, [] => []
  | _, some (first, next), [] =>
    if trailing > 0 then [.error (.malformedLine origin next .emptyLine)]
    else if next = first + 1 ∧ terminated = false then
      [.error (.malformedLine origin first .emptyLine)]
    else []
  | start, _, chunk :: chunks =>
    match chunk.fields.mapM fieldText? with
    | none => [.error (.records origin .encoding)]
    | some fields =>
      if chunk.newlines > 1 then [.error (.malformedLine origin start .emptyLine)]
      else
        let next := start + chunk.newlines
        .ok ⟨start, fields⟩ :: account origin terminated trailing next (some (start, next)) chunks

def lines (origin : Path) (input : Bytes) : List (Except Error Line) :=
  let s := scan input
  account origin (input.getLast? == some newline) s.trailing 1 none s.chunks

end CycleCount.Records
