/-! The measurements of one configuration: for every repetition count, one series
of cycle counts per condition. -/

namespace CycleCount

abbrev Series := List UInt64

/-- Series by condition label. Of two series with one label the later counts. -/
abbrev Conditions := List (String × Series)

structure RunRecord where
  runs : List (UInt64 × Conditions) := []
deriving DecidableEq, Repr

namespace RunRecord

def insertRun (repetitions : UInt64) (conditions : Conditions) :
    List (UInt64 × Conditions) → List (UInt64 × Conditions)
  | [] => [(repetitions, conditions)]
  | run :: runs =>
    if repetitions < run.1 then (repetitions, conditions) :: run :: runs
    else run :: insertRun repetitions conditions runs

def contains (record : RunRecord) (repetitions : UInt64) : Bool :=
  record.runs.any (·.1 == repetitions)

/-- Adds the series for a repetition count in place. The answer is whether they were
added: a count that is present already is refused. -/
def insert (repetitions : UInt64) (conditions : Conditions) : StateM RunRecord Bool := do
  if (← get).contains repetitions then
    return false
  modify fun record => ⟨insertRun repetitions conditions record.runs⟩
  return true

def insert? (record : RunRecord) (repetitions : UInt64) (conditions : Conditions) :
    Option RunRecord :=
  match Id.run ((insert repetitions conditions).run record) with
  | (true, next) => some next
  | (false, _) => none

def labelled? (conditions : Conditions) (label : String) : Option Series :=
  conditions.reverse.lookup label

def series? (record : RunRecord) (repetitions : UInt64) (label : String) : Option Series := do
  labelled? (← record.runs.lookup repetitions) label

def repetitions (record : RunRecord) : List UInt64 := record.runs.map (·.1)

def labelSeries (record : RunRecord) (label : String) : List (UInt64 × Series) :=
  record.runs.filterMap fun (repetitions, conditions) =>
    (labelled? conditions label).map (repetitions, ·)

def length (record : RunRecord) : Nat := record.runs.length

end RunRecord
end CycleCount
