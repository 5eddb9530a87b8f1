import CycleCount.Records.Columns
import CycleCount.Records.Writer

/-! One row per function: its name and its cycle count in every trial. Rows are
written as records and read back from them. -/

namespace CycleCount

structure FunctionRow where
  function : String
  cycles : List UInt64
deriving DecidableEq, Repr

namespace FunctionRow

def fields (row : FunctionRow) : List (List Char) :=
  row.function.toList :: row.cycles.map fun n => n.toNat.repr.toList

def write (rows : List FunctionRow) : String :=
  String.ofList (Records.written (rows.map fields))

def ofLine (origin : Path) (line : Records.Line) : Except Error FunctionRow :=
  match line.fields with
  | [] => .error (.malformedLine origin line.number .missingFunction)
  | function :: counts =>
    if function.isEmpty then .error (.malformedLine origin line.number .missingFunction)
    else do
      let cycles ← counts.mapM (Records.cycles origin line.number)
      if cycles.isEmpty then
        .error (.malformedLine origin line.number (.functionWithoutSamples function))
      else return { function, cycles }

def read (origin : Path) (input : List (Except Error Records.Line)) :
    List (Except Error FunctionRow) :=
  input.map fun line => do ofLine origin (← line)

end FunctionRow
end CycleCount
