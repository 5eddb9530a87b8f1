import CycleCount.Analysis.Series
import CycleCount.Experiment.Basic

/-! The results of an analysis: every run of every condition, and the overheads
of the compared conditions. -/

namespace CycleCount

structure RunAnalysis where
  repetitions : UInt64
  series : SeriesAnalysis
deriving BEq, Repr

structure LabelAnalysis where
  label : String
  /-- By ascending repetition count. -/
  runs : List RunAnalysis
deriving BEq, Repr

structure ConfigurationAnalysis where
  key : Key
  labels : List LabelAnalysis
deriving BEq, Repr

structure Condition where
  key : Key
  label : String
deriving DecidableEq, Repr

def Condition.text (c : Condition) : String := s!"{c.key.text}:{c.label}"

structure OverheadEntry where
  repetitions : UInt64
  raw : Float
  filtered : Float
deriving BEq, Repr

structure ComparisonAnalysis where
  baseline : Condition
  treatment : Condition
  overheads : List OverheadEntry
  trend : Trend
deriving BEq, Repr

structure Report where
  name : String
  axes : List String
  labels : List String
  configurations : List ConfigurationAnalysis
  comparison : Option Comparison
  comparisons : List ComparisonAnalysis
deriving BEq, Repr

namespace LabelAnalysis

def run? (a : LabelAnalysis) (repetitions : UInt64) : Option RunAnalysis :=
  a.runs.find? (·.repetitions == repetitions)

def means (a : LabelAnalysis) : List Float := a.runs.map (·.series.rawSummary.mean)

def deviations (a : LabelAnalysis) : List Float := a.runs.map (·.series.rawSummary.deviation)

end LabelAnalysis

def ConfigurationAnalysis.label? (a : ConfigurationAnalysis) (label : String) :
    Option LabelAnalysis :=
  a.labels.find? (·.label == label)

namespace Report

def configuration? (r : Report) (key : Key) : Option ConfigurationAnalysis :=
  r.configurations.find? (·.key == key)

def condition? (r : Report) (c : Condition) : Option LabelAnalysis := do
  (← r.configuration? c.key).label? c.label

def belongsTo (r : Report) (e : Experiment) : Bool :=
  r.name == e.name && r.axes == e.axisNames && r.labels == e.columns &&
    r.comparison == e.comparison && r.configurations.map (·.key) == e.keys

end Report
end CycleCount
