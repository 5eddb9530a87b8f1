import CycleCount.Analysis.Series
import CycleCount.Dataset.Sequential
import CycleCount.Disk.Records
import CycleCount.Trials.Row

/-! Functions measured twice, without and with a treatment, and the overhead of
each. Both files list the same functions in the same order. -/

namespace CycleCount

structure FunctionRecord where
  index : Nat
  name : String
  baseline : SeriesAnalysis
  treatment : SeriesAnalysis
  rawOverhead : Float
  filteredOverhead : Float
deriving BEq, Repr

namespace FunctionRecord

def ofSeries (index : Nat) (name : String) (baseline treatment : Series) :
    Except Error FunctionRecord := do
  let baseline ← SeriesAnalysis.ofSeries baseline s!"{name} (row {index}, without)"
  let treatment ← SeriesAnalysis.ofSeries treatment s!"{name} (row {index}, with)"
  let rawOverhead ← ratioOfMeans baseline.rawSummary.mean treatment.rawSummary.mean
  let filteredOverhead ←
    ratioOfMeans baseline.filteredSummary.mean treatment.filteredSummary.mean
  return { index, name, baseline, treatment, rawOverhead, filteredOverhead }

end FunctionRecord

structure FunctionCollection where
  records : List FunctionRecord
deriving BEq, Repr

namespace FunctionCollection

def ofRecords (records : List FunctionRecord) : Except Error FunctionCollection := do
  let sequence ← records.foldlM (fun (s : Sequential FunctionRecord) record =>
    s.pushAt record.index record) {}
  return ⟨sequence.items⟩

def pairRows (baseline treatment : Path) (done : Sequential FunctionRecord) :
    List (Except Error FunctionRow) → List (Except Error FunctionRow) →
      Except Error (Sequential FunctionRecord)
  | [], [] => .ok done
  | .error e :: _, _ => .error e
  | [], .error e :: _ => .error e
  | .ok _ :: _, .error e :: _ => .error e
  | .ok a :: as, .ok b :: bs =>
    let index := done.nextIndex
    if a.function ≠ b.function then
      .error (.identifierMismatch s!"{baseline.text} vs {treatment.text}" (index + 1)
        a.function b.function)
    else do
      let record ← FunctionRecord.ofSeries index a.function a.cycles b.cycles
      pairRows baseline treatment (← done.pushAt index record) as bs
  | .ok _ :: _, [] => .error (.rowCountMismatch baseline treatment (done.nextIndex + 1))
  | [], .ok _ :: _ => .error (.rowCountMismatch baseline treatment (done.nextIndex + 1))

/-- Both files are opened before either is read. -/
def load (disk : Disk) (baseline treatment : Path) : Except Error FunctionCollection := do
  let first ← disk.lines baseline
  let second ← disk.lines treatment
  let sequence ← pairRows baseline treatment {} (FunctionRow.read baseline first)
    (FunctionRow.read treatment second)
  return ⟨sequence.items⟩

end FunctionCollection
end CycleCount
