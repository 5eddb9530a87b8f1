import CycleCount.Instant.Parser
import CycleCount.Json.Decode
import CycleCount.Snapshot.Basic

/-! Reading a snapshot. The envelope is checked first: its format, then its
version; the payload is looked into only after that. -/

namespace CycleCount

open Json (record? text natural? word? real? list? optional?)

def instant? (json : Json) : Option Instant := do Instant.ofText? (← text json)

def InputStamp.ofJson? (json : Json) : Option InputStamp := do
  match ← record? ["path", "len", "modified"] json with
  | [path, length, modified] =>
    return { path := ⟨← text (← path)⟩, length := ← natural? (← length)
             modified := ← optional? instant? modified }
  | _ => none

def SummaryRecord.ofJson? (json : Json) : Option SummaryRecord := do
  match ← record? ["count", "mean", "std_dev", "ecdf_values", "ecdf_probabilities"] json with
  | [count, mean, deviation, values, probabilities] =>
    return { count := ← natural? (← count), mean := ← real? (← mean)
             deviation := ← real? (← deviation), values := ← list? real? (← values)
             probabilities := ← list? real? (← probabilities) }
  | _ => none

def Quartiles.ofJson? (json : Json) : Option (Quartiles Float) := do
  match ← record? ["count", "min", "q1", "median", "q3", "max"] json with
  | [count, min, q1, median, q3, max] =>
    return { count := ← natural? (← count), min := ← real? (← min), q1 := ← real? (← q1)
             median := ← real? (← median), q3 := ← real? (← q3), max := ← real? (← max) }
  | _ => none

def SeriesValues.ofJson? (json : Json) : Option SeriesValues := do
  match ← record? ["raw", "filtered", "raw_summary", "filtered_summary", "quartiles"] json with
  | [raw, filtered, rawSummary, filteredSummary, quartiles] =>
    return { raw := ← list? word? (← raw), filtered := ← list? word? (← filtered)
             rawSummary := ← SummaryRecord.ofJson? (← rawSummary)
             filteredSummary := ← SummaryRecord.ofJson? (← filteredSummary)
             quartiles := ← Quartiles.ofJson? (← quartiles) }
  | _ => none

def SeriesRecord.ofJson? (json : Json) : Option SeriesRecord := do
  match ← record? ["configuration", "label", "repetitions", "values"] json with
  | [configuration, label, repetitions, values] =>
    return { configuration := ← list? text (← configuration), label := ← text (← label)
             repetitions := ← word? (← repetitions)
             values := ← SeriesValues.ofJson? (← values) }
  | _ => none

def ComparisonRecord.ofJson? (json : Json) : Option ComparisonRecord := do
  match ← record? ["baseline_configuration", "baseline_label", "treatment_configuration",
      "treatment_label", "repetitions", "raw_overheads", "filtered_overheads", "trend_baseline",
      "trend_treatment"] json with
  | [baselineConfiguration, baselineLabel, treatmentConfiguration, treatmentLabel, repetitions,
      rawOverheads, filteredOverheads, trendBaseline, trendTreatment] =>
    return { baselineConfiguration := ← list? text (← baselineConfiguration)
             baselineLabel := ← text (← baselineLabel)
             treatmentConfiguration := ← list? text (← treatmentConfiguration)
             treatmentLabel := ← text (← treatmentLabel)
             repetitions := ← list? word? (← repetitions)
             rawOverheads := ← list? real? (← rawOverheads)
             filteredOverheads := ← list? real? (← filteredOverheads)
             trendBaseline := ← list? real? (← trendBaseline)
             trendTreatment := ← list? real? (← trendTreatment) }
  | _ => none

def comparisonKind? : Json → Option String
  | .string kind => some kind
  | .integer 0 => some "columns"
  | .integer 1 => some "axis"
  | _ => none

def Comparison.ofJson? (json : Json) : Option Comparison := do
  let (kind, fields) ← Json.tagged? json
  match ← comparisonKind? kind with
  | "columns" =>
    match ← record? ["baseline", "treatment"] fields with
    | [baseline, treatment] => return .columns (← text (← baseline)) (← text (← treatment))
    | _ => none
  | "axis" =>
    match ← record? ["axis", "baseline", "treatment"] fields with
    | [name, baseline, treatment] =>
      return .axis (← text (← name)) (← text (← baseline)) (← text (← treatment))
    | _ => none
  | _ => none

def DatasetSnapshot.ofJson? (json : Json) : Option DatasetSnapshot := do
  match ← record? ["inputs", "name", "axes", "labels", "series", "comparison", "comparisons"]
      json with
  | [inputs, name, axes, labels, series, comparison, comparisons] =>
    return { inputs := ← list? InputStamp.ofJson? (← inputs), name := ← text (← name)
             axes := ← list? text (← axes), labels := ← list? text (← labels)
             series := ← list? SeriesRecord.ofJson? (← series)
             comparison := ← optional? Comparison.ofJson? comparison
             comparisons := ← list? ComparisonRecord.ofJson? (← comparisons) }
  | _ => none

def FunctionEntry.ofJson? (json : Json) : Option FunctionEntry := do
  match ← record? ["index", "name", "without", "with", "raw_overhead", "filtered_overhead"]
      json with
  | [index, name, baseline, treatment, rawOverhead, filteredOverhead] =>
    return { index := ← natural? (← index), name := ← text (← name)
             baseline := ← SeriesValues.ofJson? (← baseline)
             treatment := ← SeriesValues.ofJson? (← treatment)
             rawOverhead := ← real? (← rawOverhead)
             filteredOverhead := ← real? (← filteredOverhead) }
  | _ => none

def FunctionSnapshot.ofJson? (json : Json) : Option FunctionSnapshot := do
  match ← record? ["inputs", "functions"] json with
  | [inputs, functions] =>
    return { inputs := ← list? InputStamp.ofJson? (← inputs)
             functions := ← list? FunctionEntry.ofJson? (← functions) }
  | _ => none

def Payload.ofJson? (json : Json) : Option Payload := do
  match ← Json.tagged? json with
  | (.string "dataset", fields) => return .dataset (← DatasetSnapshot.ofJson? fields)
  | (.string "functions", fields) => return .functions (← FunctionSnapshot.ofJson? fields)
  | _ => none

structure Envelope where
  format : String
  version : Nat
  created : Instant
  payload : Json

namespace Envelope

open Json (Document)

def nesting : Nat := 128

def fieldNames : List String := ["format", "version", "created_at", "payload"]

/-- The fields of an envelope in order. Each appears once; members of other names
are passed over unread. -/
def fields? : Document → Option (List Document)
  | .array entries => if entries.length = fieldNames.length then some entries else none
  | .object members => do
    let members ← members.mapM fun (name, value) => (Json.text? name).map (·, value)
    fieldNames.mapM fun name =>
      match members.filter (·.1 == name) with
      | [(_, value)] => some value
      | _ => none
  | _ => none

def ofDocument? (document : Document) : Option Envelope := do
  match ← (← fields? document).mapM (Document.read? (nesting - 1)) with
  | [format, version, created, payload] =>
    return { format := ← text format, version := ← Json.below? UInt32.size version
             created := ← instant? created, payload }
  | _ => none

end Envelope

def Payload.read (path : Path) (content : Bytes) : Except Error Payload :=
  match Json.Document.ofBytes? content >>= Envelope.ofDocument? with
  | none => .error (.unreadableSnapshot path .malformed)
  | some envelope =>
    if envelope.format ≠ snapshotTag then
      .error (.unreadableSnapshot path (.formatTag envelope.format))
    else if envelope.version ≠ snapshotVersion then
      .error (.staleSnapshot path envelope.version)
    else
      match Payload.ofJson? envelope.payload with
      | some payload => .ok payload
      | none => .error (.unreadableSnapshot path .malformed)

end CycleCount
