import CycleCount.Error
import CycleCount.Experiment.Load
import CycleCount.Report.Table

/-! Why a command failed, as a chain of messages from the outermost inwards. -/

namespace CycleCount

def Error.chain (e : Error) : List String :=
  match e with
  | .io _ fault => [e.message, fault.message]
  | .records _ fault => [e.message, fault.message]
  | _ => [e.message]

inductive Failure where
  | experiment (error : ExperimentFileError)
  | analysis (error : Error)
  | reshape (input : Path) (error : Error)
  | writeCache (path : Path) (error : Error)
  | writeReport (path : Path) (fault : Disk.Fault)
deriving DecidableEq, Repr

namespace Failure

def chain : Failure → List String
  | .experiment error => error.chain
  | .analysis error => error.chain
  | .reshape input error => s!"Failed to reshape {input.text}" :: error.chain
  | .writeCache path error => s!"Failed to write cache {path.text}" :: error.chain
  | .writeReport path fault => [s!"Failed to write report {path.text}", fault.message]

/-- A message behind a label; its further lines are indented as far as the label
is wide. -/
def labelled (label message : String) : List String :=
  match (Text.split '\n' message.toList).map String.ofList with
  | [] => []
  | first :: rest => (label ++ first) :: rest.map (Table.blanks label.length ++ ·)

def causeLines : List String → List String
  | [] => []
  | [cause] => "" :: "Caused by:" :: labelled (Table.blanks 4) cause
  | causes => "" :: "Caused by:" :: causes.zipIdx.flatMap fun (cause, i) =>
      labelled (Table.count 5 i ++ ": ") cause

def chainText : List String → String
  | [] => "Error"
  | outermost :: causes => "\n".intercalate (("Error: " ++ outermost) :: causeLines causes)

def text (f : Failure) : String := chainText f.chain

end Failure
end CycleCount
