import CycleCount.Dataset.RunRecord
import CycleCount.Statistics.Overhead
import CycleCount.Statistics.Window

/-! One series of cycle counts, summarised as measured and again without its
outliers. -/

namespace CycleCount

structure SeriesAnalysis where
  raw : Series
  rawSummary : Summary
  filtered : Series
  filteredSummary : Summary
  /-- Of the filtered series. -/
  quartiles : Quartiles Float
deriving BEq, Repr

namespace SeriesAnalysis

def ofFiltered (raw filtered : Series) (context : String) : Except Error SeriesAnalysis :=
  if filtered.isEmpty && !raw.isEmpty then .error (.emptyFilteredSeries context)
  else do
    let rawSummary ← Summary.ofSamples raw
    let filteredSummary ← Summary.ofSamples filtered
    match Quartiles.ofSamples? filtered with
    | some quartiles => return { raw, rawSummary, filtered, filteredSummary, quartiles }
    | none => .error .emptySeries

def ofSeries (raw : Series) (context : String) : Except Error SeriesAnalysis :=
  ofFiltered raw (retained Float raw) context

def outliersRemoved (a : SeriesAnalysis) : Nat := a.raw.length - a.filtered.length

end SeriesAnalysis
end CycleCount
