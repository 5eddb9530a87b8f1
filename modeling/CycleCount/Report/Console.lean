import CycleCount.Analysis.Report
import CycleCount.Functions.Report
import CycleCount.Report.Table

/-! Reports as plain-text tables. -/

namespace CycleCount.Console

open Table

def repeated (n : Nat) (c : Char) : String := String.ofList (List.replicate n c)

def rule : String := repeated 76 '─'

def banner (title : String) : List String :=
  ["", "╔" ++ repeated 62 '═' ++ "╗", "║ " ++ centre 60 title ++ " ║",
    "╚" ++ repeated 62 '═' ++ "╝", ""]

def unlines (lines : List String) : String := String.join (lines.map (· ++ "\n"))

def runRow (label : String) (run : RunAnalysis) : String :=
  let s := run.series
  row [left 14 (shorten 14 label), count 12 run.repetitions.toNat, count 6 s.rawSummary.count,
    count 5 s.outliersRemoved, fixed 12 1 s.rawSummary.mean, fixed 10 1 s.rawSummary.deviation,
    fixed 12 1 s.filteredSummary.mean, fixed 10 1 s.filteredSummary.deviation]

def configuration (c : ConfigurationAnalysis) : List String :=
  [rule, s!"Configuration: {c.key.text}", rule,
    row [left 14 "Label", right 12 "Repetitions", right 6 "n", right 5 "out", right 12 "Mean",
      right 10 "StdDev", right 12 "Filt. mean", right 10 "Filt. std"]] ++
    c.labels.flatMap (fun a => a.runs.map (runRow a.label)) ++ [""]

def comparison (c : ComparisonAnalysis) : List String :=
  [s!"  {c.baseline.text} -> {c.treatment.text}",
    row [right 12 "Repetitions", right 10 "Raw", right 10 "Filtered"]] ++
    c.overheads.map (fun e =>
      row [count 12 e.repetitions.toNat, fixed 10 4 e.raw, fixed 10 4 e.filtered]) ++ [""]

def comparisons : List ComparisonAnalysis → List String
  | [] => []
  | cs => [rule, "Overheads (treatment mean / baseline mean)", rule, ""] ++ cs.flatMap comparison

def analysis (r : Report) : String :=
  unlines (banner "CYCLE COUNT ANALYSIS" ++
    ["Dataset:   " ++ r.name, "Axes:      " ++ " / ".intercalate r.axes,
      "Labels:    " ++ ", ".intercalate r.labels, ""] ++
    r.configurations.flatMap configuration ++ comparisons r.comparisons)

def listedFunctions : Nat := 25

def overheadRow (name : String) (overheads : List Float) : String :=
  let cells := [0, 25, 50, 75, 100].map fun (p : Float) =>
    fixed 8 3 ((percentile? overheads p).getD (0 / 0))
  "  " ++ left 9 name ++ " " ++ "  ".intercalate cells

def functionRow (r : FunctionRecord) : String :=
  "  " ++ count 6 r.index ++ "  " ++ left 32 (shorten 32 r.name) ++ " " ++
    fixed 9 3 r.rawOverhead ++ " " ++ fixed 9 3 r.filteredOverhead ++ " " ++
    count 4 r.baseline.outliersRemoved ++ "/" ++ left 3 r.treatment.outliersRemoved.repr

def ranked (functions : List FunctionRecord) : List FunctionRecord :=
  functions.mergeSort fun a b => totalOrderKey b.rawOverhead ≤ totalOrderKey a.rawOverhead

def functionTable (r : FunctionReport) : List String :=
  ["", "  Overhead     Min       P25       P50       P75       Max",
    overheadRow "raw" r.overheads, overheadRow "filtered" r.filteredOverheads, "", rule,
    "  " ++ right 6 "Row" ++ "  " ++ left 32 "Function" ++ " " ++ right 9 "Raw" ++ " " ++
      right 9 "Filtered" ++ " " ++ right 8 "Outliers", rule] ++
    ((ranked r.functions).take listedFunctions).map functionRow ++
    (if r.functions.length > listedFunctions then
      [s!"  ... {r.functions.length - listedFunctions} more"] else [])

def functions (r : FunctionReport) : String :=
  let restriction := match r.only with
    | some name => s!" (only {name})"
    | none => ""
  unlines (banner "PER-FUNCTION OVERHEAD" ++ [s!"Functions: {r.functions.length}" ++ restriction] ++
    (if r.functions.isEmpty then [] else functionTable r) ++ [""])

end CycleCount.Console
