import CycleCount.Decimal.Word
import CycleCount.Records.Line

/-! Files of cycle counts: every line has the same number of fields, each an
unsigned integer. Their columns are the sample series. -/

namespace CycleCount.Records

def cycles (origin : Path) (line : Nat) (field : String) : Except Error UInt64 :=
  match Decimal.word? field.toList with
  | some n => .ok n
  | none => .error (.malformedLine origin line (.notCycles field))

def sampleRow (origin : Path) (columns : Nat) (line : Line) : Except Error (List UInt64) :=
  if line.fields.length ≠ columns then
    .error (.malformedLine origin line.number (.columnCount columns line.fields.length))
  else line.fields.mapM (cycles origin line.number)

def column (rows : List (List UInt64)) (j : Nat) : List UInt64 := rows.filterMap (·[j]?)

def sampleColumns (origin : Path) (columns : Nat) (input : List (Except Error Line)) :
    Except Error (List (List UInt64)) := do
  let rows ← input.mapM fun line => do sampleRow origin columns (← line)
  if rows.isEmpty || columns == 0 then .error (.malformedLine origin 0 .noSamples)
  else return (List.range columns).map (column rows)

end CycleCount.Records
