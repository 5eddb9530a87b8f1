import CycleCount.Analysis.Report
import CycleCount.Dataset.Basic

/-! Analysing a data set: every series on its own, then the pairs of conditions
that the comparison names. Two conditions are compared only where both were run
with the same repetition counts. -/

namespace CycleCount

def analyseLabel (key : Key) (record : RunRecord) (label : String) : Except Error LabelAnalysis := do
  let runs ← (record.labelSeries label).mapM fun (repetitions, series) => do
    let series ← SeriesAnalysis.ofSeries series s!"{key.text}:{label} x{repetitions}"
    return ({ repetitions, series } : RunAnalysis)
  return { label, runs }

def analyseConfiguration (labels : List String) (key : Key) (record : RunRecord) :
    Except Error ConfigurationAnalysis := do
  return { key, labels := ← labels.mapM (analyseLabel key record) }

def axisPairs (dataset : Dataset) (index : Nat) (treatment : String) (key : Key) :
    Except Error (List (Condition × Condition)) :=
  let other := key.withValue index treatment
  match dataset.get? other with
  | none => .error (.unknownConfiguration other.text)
  | some _ => .ok (dataset.labels.map fun label => (⟨key, label⟩, ⟨other, label⟩))

def comparisonPairs (comparison : Option Comparison) (dataset : Dataset) :
    Except Error (List (Condition × Condition)) :=
  match comparison with
  | none => .ok []
  | some (.columns baseline treatment) =>
    .ok (dataset.entries.map fun (key, _) => (⟨key, baseline⟩, ⟨key, treatment⟩))
  | some (.axis axis baseline treatment) =>
    match dataset.axisIndex? axis with
    | none => .error (.unknownAxis axis)
    | some index => do
      let bases := dataset.entries.filter fun (key, _) => key.get? index == some baseline
      return (← bases.mapM fun (key, _) => axisPairs dataset index treatment key).flatten

def lookUp (configurations : Condition → Option LabelAnalysis) (c : Condition) :
    Except Error LabelAnalysis :=
  match configurations c with
  | some a => .ok a
  | none => .error (.unknownConfiguration c.text)

def overheadEntry (base treated : RunAnalysis) : Except Error OverheadEntry := do
  let raw ← ratioOfMeans base.series.rawSummary.mean treated.series.rawSummary.mean
  let filtered ←
    ratioOfMeans base.series.filteredSummary.mean treated.series.filteredSummary.mean
  return { repetitions := base.repetitions, raw, filtered }

def compareConditions (report : Report) (baseline treatment : Condition) :
    Except Error ComparisonAnalysis := do
  let base ← lookUp report.condition? baseline
  let treated ← lookUp report.condition? treatment
  match treated.runs.find? fun run => (base.run? run.repetitions).isNone with
  | some extra =>
    .error (.unpairedRepetition treatment.text baseline.text extra.repetitions)
  | none =>
    let overheads ← base.runs.mapM fun run =>
      match treated.run? run.repetitions with
      | some partner => overheadEntry run partner
      | none => .error (.unpairedRepetition baseline.text treatment.text run.repetitions)
    let trend ← Trend.ofMeans base.means treated.means
    return { baseline, treatment, overheads, trend }

def analyse (comparison : Option Comparison) (dataset : Dataset) : Except Error Report := do
  let configurations ←
    dataset.entries.mapM fun (key, record) => analyseConfiguration dataset.labels key record
  let report : Report :=
    { name := dataset.name, axes := dataset.axes, labels := dataset.labels, configurations,
      comparison, comparisons := [] }
  let pairs ← comparisonPairs comparison dataset
  let comparisons ← pairs.mapM fun (baseline, treatment) =>
    compareConditions report baseline treatment
  return { report with comparisons }

end CycleCount
