import CycleCount.Json.Encode
import CycleCount.Snapshot.Basic

/-! The text of a snapshot: a payload in an envelope that names format, version
and time. -/

namespace CycleCount

def InputStamp.toJson (s : InputStamp) : Json :=
  .object [("path", .string s.path.text), ("len", Json.natural s.length),
    ("modified", Json.optional (fun t => .string (Instant.text t)) s.modified)]

def SummaryRecord.toJson (r : SummaryRecord) : Json :=
  .object [("count", Json.natural r.count), ("mean", .real r.mean), ("std_dev", .real r.deviation),
    ("ecdf_values", Json.reals r.values), ("ecdf_probabilities", Json.reals r.probabilities)]

def SeriesValues.toJson (v : SeriesValues) : Json :=
  .object [("raw", Json.words v.raw), ("filtered", Json.words v.filtered),
    ("raw_summary", v.rawSummary.toJson), ("filtered_summary", v.filteredSummary.toJson),
    ("quartiles", Json.quartiles v.quartiles)]

def SeriesRecord.toJson (r : SeriesRecord) : Json :=
  .object [("configuration", Json.strings r.configuration), ("label", .string r.label),
    ("repetitions", Json.word r.repetitions), ("values", r.values.toJson)]

def ComparisonRecord.toJson (r : ComparisonRecord) : Json :=
  .object [("baseline_configuration", Json.strings r.baselineConfiguration),
    ("baseline_label", .string r.baselineLabel),
    ("treatment_configuration", Json.strings r.treatmentConfiguration),
    ("treatment_label", .string r.treatmentLabel), ("repetitions", Json.words r.repetitions),
    ("raw_overheads", Json.reals r.rawOverheads),
    ("filtered_overheads", Json.reals r.filteredOverheads),
    ("trend_baseline", Json.reals r.trendBaseline),
    ("trend_treatment", Json.reals r.trendTreatment)]

def FunctionEntry.toJson (e : FunctionEntry) : Json :=
  .object [("index", Json.natural e.index), ("name", .string e.name),
    ("without", e.baseline.toJson), ("with", e.treatment.toJson),
    ("raw_overhead", .real e.rawOverhead), ("filtered_overhead", .real e.filteredOverhead)]

def Payload.toJson : Payload → Json
  | .dataset s =>
    .object [("kind", .string "dataset"), ("inputs", Json.list InputStamp.toJson s.inputs),
      ("name", .string s.name), ("axes", Json.strings s.axes), ("labels", Json.strings s.labels),
      ("series", Json.list SeriesRecord.toJson s.series),
      ("comparison", Json.optional Json.comparison s.comparison),
      ("comparisons", Json.list ComparisonRecord.toJson s.comparisons)]
  | .functions s =>
    .object [("kind", .string "functions"), ("inputs", Json.list InputStamp.toJson s.inputs),
      ("functions", Json.list FunctionEntry.toJson s.functions)]

def Payload.envelope (created : Instant) (p : Payload) : String :=
  (Json.object [("format", .string snapshotTag), ("version", Json.natural snapshotVersion),
    ("created_at", .string created.text), ("payload", p.toJson)]).compact

end CycleCount
