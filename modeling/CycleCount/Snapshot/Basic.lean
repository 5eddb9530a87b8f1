import CycleCount.Analysis.Report
import CycleCount.Functions.Collection
import CycleCount.Instant.Basic

/-! Snapshots: results in flat records, together with the state of the files they
were computed from. -/

namespace CycleCount

structure InputStamp where
  path : Path
  length : Nat
  modified : Option Instant
deriving DecidableEq, Repr

def InputStamp.agrees (a b : InputStamp) : Bool :=
  a.path.sameAs b.path && a.length == b.length && a.modified == b.modified

structure SummaryRecord where
  count : Nat
  mean : Float
  deviation : Float
  values : List Float
  probabilities : List Float
deriving BEq, Repr

structure SeriesValues where
  raw : Series
  filtered : Series
  rawSummary : SummaryRecord
  filteredSummary : SummaryRecord
  quartiles : Quartiles Float
deriving BEq, Repr

structure SeriesRecord where
  configuration : List String
  label : String
  repetitions : UInt64
  values : SeriesValues
deriving BEq, Repr

structure ComparisonRecord where
  baselineConfiguration : List String
  baselineLabel : String
  treatmentConfiguration : List String
  treatmentLabel : String
  repetitions : List UInt64
  rawOverheads : List Float
  filteredOverheads : List Float
  trendBaseline : List Float
  trendTreatment : List Float
deriving BEq, Repr

structure DatasetSnapshot where
  inputs : List InputStamp
  name : String
  axes : List String
  labels : List String
  series : List SeriesRecord
  comparison : Option Comparison
  comparisons : List ComparisonRecord
deriving BEq, Repr

structure FunctionEntry where
  index : Nat
  name : String
  baseline : SeriesValues
  treatment : SeriesValues
  rawOverhead : Float
  filteredOverhead : Float
deriving BEq, Repr

structure FunctionSnapshot where
  inputs : List InputStamp
  functions : List FunctionEntry
deriving BEq, Repr

inductive Payload where
  | dataset (snapshot : DatasetSnapshot)
  | functions (snapshot : FunctionSnapshot)
deriving BEq, Repr

def Payload.kind : Payload → String
  | .dataset _ => "dataset"
  | .functions _ => "functions"

namespace SummaryRecord

def ofSummary (s : Summary) : SummaryRecord :=
  { count := s.count, mean := s.mean, deviation := s.deviation, values := s.ecdf.values,
    probabilities := s.ecdf.probabilities }

def toSummary (r : SummaryRecord) : Except SnapshotFault Summary :=
  match Ecdf.ofColumns r.values r.probabilities with
  | .ok ecdf => .ok { count := r.count, mean := r.mean, deviation := r.deviation, ecdf }
  | .error .emptySeries => .error .summaryEmpty
  | .error _ => .error (.summaryLengths r.values.length r.probabilities.length)

end SummaryRecord

namespace SeriesValues

def ofAnalysis (a : SeriesAnalysis) : SeriesValues :=
  { raw := a.raw, filtered := a.filtered, rawSummary := .ofSummary a.rawSummary,
    filteredSummary := .ofSummary a.filteredSummary, quartiles := a.quartiles }

def toAnalysis (v : SeriesValues) : Except SnapshotFault SeriesAnalysis := do
  let rawSummary ← v.rawSummary.toSummary
  let filteredSummary ← v.filteredSummary.toSummary
  return { raw := v.raw, rawSummary, filtered := v.filtered, filteredSummary,
           quartiles := v.quartiles }

end SeriesValues

namespace ComparisonRecord

def ofAnalysis (c : ComparisonAnalysis) : ComparisonRecord :=
  { baselineConfiguration := c.baseline.key.values, baselineLabel := c.baseline.label
    treatmentConfiguration := c.treatment.key.values, treatmentLabel := c.treatment.label
    repetitions := c.overheads.map (·.repetitions), rawOverheads := c.overheads.map (·.raw)
    filteredOverheads := c.overheads.map (·.filtered), trendBaseline := c.trend.baseline
    trendTreatment := c.trend.treatment }

def baseline (r : ComparisonRecord) : Condition := ⟨⟨r.baselineConfiguration⟩, r.baselineLabel⟩

def treatment (r : ComparisonRecord) : Condition := ⟨⟨r.treatmentConfiguration⟩, r.treatmentLabel⟩

def overheads : List UInt64 → List Float → List Float → List OverheadEntry
  | n :: ns, raw :: raws, filtered :: filtereds => ⟨n, raw, filtered⟩ :: overheads ns raws filtereds
  | _, _, _ => []

def toAnalysis (r : ComparisonRecord) : Except SnapshotFault ComparisonAnalysis :=
  let n := r.repetitions.length
  if r.rawOverheads.length ≠ n ∨ r.filteredOverheads.length ≠ n ∨
      r.trendBaseline.length ≠ r.trendTreatment.length then
    .error (.comparisonLengths r.baseline.text r.treatment.text)
  else
    .ok { baseline := r.baseline, treatment := r.treatment
          overheads := overheads r.repetitions r.rawOverheads r.filteredOverheads
          trend := ⟨r.trendBaseline, r.trendTreatment⟩ }

end ComparisonRecord

namespace DatasetSnapshot

def seriesOf (r : Report) : List SeriesRecord :=
  r.configurations.flatMap fun c => c.labels.flatMap fun a => a.runs.map fun run =>
    { configuration := c.key.values, label := a.label, repetitions := run.repetitions
      values := .ofAnalysis run.series }

def ofReport (r : Report) (inputs : List InputStamp) : DatasetSnapshot :=
  { inputs, name := r.name, axes := r.axes, labels := r.labels, series := seriesOf r
    comparison := r.comparison, comparisons := r.comparisons.map .ofAnalysis }

def addToLabels (label : String) (run : RunAnalysis) : List LabelAnalysis → List LabelAnalysis
  | [] => [⟨label, [run]⟩]
  | a :: labels =>
    if a.label = label then { a with runs := a.runs ++ [run] } :: labels
    else a :: addToLabels label run labels

def addRun (key : Key) (label : String) (run : RunAnalysis) :
    List ConfigurationAnalysis → List ConfigurationAnalysis
  | [] => [⟨key, [⟨label, [run]⟩]⟩]
  | c :: configurations =>
    if c.key = key then { c with labels := addToLabels label run c.labels } :: configurations
    else c :: addRun key label run configurations

def addRecord (configurations : List ConfigurationAnalysis) (r : SeriesRecord) :
    Except SnapshotFault (List ConfigurationAnalysis) := do
  let series ← r.values.toAnalysis
  return addRun ⟨r.configuration⟩ r.label ⟨r.repetitions, series⟩ configurations

/-- The report of which the records were made. Configurations and labels come in
the order in which they first appear. -/
def toReport (s : DatasetSnapshot) : Except SnapshotFault Report := do
  let configurations ← s.series.foldlM addRecord []
  let comparisons ← s.comparisons.mapM ComparisonRecord.toAnalysis
  return { name := s.name, axes := s.axes, labels := s.labels, configurations
           comparison := s.comparison, comparisons }

end DatasetSnapshot

namespace FunctionSnapshot

def entryOf (r : FunctionRecord) : FunctionEntry :=
  { index := r.index, name := r.name, baseline := .ofAnalysis r.baseline
    treatment := .ofAnalysis r.treatment, rawOverhead := r.rawOverhead
    filteredOverhead := r.filteredOverhead }

def ofCollection (c : FunctionCollection) (inputs : List InputStamp) : FunctionSnapshot :=
  { inputs, functions := c.records.map entryOf }

def toRecord (e : FunctionEntry) : Except SnapshotFault FunctionRecord := do
  let baseline ← e.baseline.toAnalysis
  let treatment ← e.treatment.toAnalysis
  return { index := e.index, name := e.name, baseline, treatment, rawOverhead := e.rawOverhead
           filteredOverhead := e.filteredOverhead }

end FunctionSnapshot
end CycleCount
