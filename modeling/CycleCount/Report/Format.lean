import CycleCount.Report.Console
import CycleCount.Report.Json

/-! The forms a report can be written in, known by name. -/

namespace CycleCount

inductive OutputFormat where
  | json
  | jsonPretty
  | console
deriving DecidableEq, Repr, Inhabited

namespace OutputFormat

def standard : OutputFormat := .console

def name : OutputFormat → String
  | .json => "json"
  | .jsonPretty => "json-pretty"
  | .console => "console"

def lowered (s : String) : String := String.ofList (s.toList.map Char.toLower)

def ofName (s : String) : Except String OutputFormat :=
  match lowered s with
  | "json" => .ok .json
  | "json-pretty" | "pretty" => .ok .jsonPretty
  | "console" | "text" => .ok .console
  | other => .error s!"unknown output format '{other}' (expected console, json or json-pretty)"

end OutputFormat

def Report.render (format : OutputFormat) (r : Report) : String :=
  match format with
  | .json => r.toJson.compact
  | .jsonPretty => r.toJson.indented
  | .console => Console.analysis r

def FunctionReport.render (format : OutputFormat) (r : FunctionReport) : String :=
  match format with
  | .json => r.toJson.compact
  | .jsonPretty => r.toJson.indented
  | .console => Console.functions r

end CycleCount
