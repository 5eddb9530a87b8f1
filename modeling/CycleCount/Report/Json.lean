import CycleCount.Analysis.Report
import CycleCount.Functions.Report
import CycleCount.Json.Encode

/-! Reports as JSON. -/

namespace CycleCount

def Summary.toJson (s : Summary) : Json :=
  let point := fun (p : Float × Float) =>
    Json.object [("value", .real p.1), ("probability", .real p.2)]
  .object [("count", Json.natural s.count), ("mean", .real s.mean), ("std_dev", .real s.deviation),
    ("ecdf", .object [("points", Json.list point s.ecdf.points)])]

def SeriesAnalysis.toJson (a : SeriesAnalysis) : Json :=
  .object [("raw", Json.words a.raw), ("raw_summary", a.rawSummary.toJson),
    ("filtered", Json.words a.filtered), ("filtered_summary", a.filteredSummary.toJson),
    ("quartiles", Json.quartiles a.quartiles)]

def Trend.toJson (t : Trend) : Json :=
  .object [("baseline", Json.reals t.baseline), ("treatment", Json.reals t.treatment)]

def Condition.toJson (c : Condition) : Json :=
  .object [("key", Json.strings c.key.values), ("label", .string c.label)]

def LabelAnalysis.toJson (a : LabelAnalysis) : Json :=
  let run := fun (r : RunAnalysis) =>
    Json.object [("repetitions", Json.word r.repetitions), ("series", r.series.toJson)]
  .object [("label", .string a.label), ("runs", Json.list run a.runs)]

def ComparisonAnalysis.toJson (c : ComparisonAnalysis) : Json :=
  let entry := fun (e : OverheadEntry) =>
    Json.object [("repetitions", Json.word e.repetitions), ("raw", .real e.raw),
      ("filtered", .real e.filtered)]
  .object [("baseline", c.baseline.toJson), ("treatment", c.treatment.toJson),
    ("overheads", Json.list entry c.overheads), ("trend", c.trend.toJson)]

def Report.toJson (r : Report) : Json :=
  let configuration := fun (c : ConfigurationAnalysis) =>
    Json.object [("key", Json.strings c.key.values),
      ("labels", Json.list LabelAnalysis.toJson c.labels)]
  .object [("name", .string r.name), ("axes", Json.strings r.axes),
    ("labels", Json.strings r.labels), ("configurations", Json.list configuration r.configurations),
    ("comparison", Json.optional Json.comparison r.comparison),
    ("comparisons", Json.list ComparisonAnalysis.toJson r.comparisons)]

def FunctionRecord.toJson (r : FunctionRecord) : Json :=
  .object [("index", Json.natural r.index), ("name", .string r.name),
    ("without", r.baseline.toJson), ("with", r.treatment.toJson),
    ("raw_overhead", .real r.rawOverhead), ("filtered_overhead", .real r.filteredOverhead)]

def FunctionReport.toJson (r : FunctionReport) : Json :=
  .object [("filter", Json.optional .string r.only),
    ("functions", Json.list FunctionRecord.toJson r.functions), ("trend", r.trend.toJson),
    ("sorted_overheads", Json.reals r.overheads),
    ("sorted_filtered_overheads", Json.reals r.filteredOverheads)]

end CycleCount
