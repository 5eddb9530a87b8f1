import CycleCount.Functions.Collection

/-! A view of a function collection, whole or restricted to one name, with its
overheads in ascending order. -/

namespace CycleCount

/-- A number that grows along the total order of floating-point values: negative
before positive, negative zero before zero, infinities and then NaN
outermost. -/
def totalOrderKey (x : Float) : Int :=
  let bits := x.toBits.toNat
  let half : Nat := UInt64.size / 2
  if bits < half then bits else (half : Int) - 1 - bits

def sortedTotally (xs : List Float) : List Float :=
  xs.mergeSort fun a b => totalOrderKey a ≤ totalOrderKey b

structure FunctionReport where
  only : Option String
  functions : List FunctionRecord
  trend : Trend
  overheads : List Float
  filteredOverheads : List Float
deriving BEq, Repr

namespace FunctionCollection

def select (c : FunctionCollection) (only : Option String) : List FunctionRecord :=
  c.records.filter fun record => only.all (record.name == ·)

def report (c : FunctionCollection) (only : Option String) : Except Error FunctionReport := do
  let functions := c.select only
  let trend ← Trend.ofMeans (functions.map (·.baseline.rawSummary.mean))
    (functions.map (·.treatment.rawSummary.mean))
  return {
    only, functions, trend
    overheads := sortedTotally (functions.map (·.rawOverhead))
    filteredOverheads := sortedTotally (functions.map (·.filteredOverhead)) }

end FunctionCollection
end CycleCount
