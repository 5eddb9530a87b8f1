import CycleCount.Disk.Basic
import CycleCount.Experiment.Parser

/-! Loading an experiment from its description, and from a file that holds it. -/

namespace CycleCount

inductive ExperimentError where
  | unparsable
  | layout (fault : LayoutFault)
deriving DecidableEq, Repr

inductive TextFault where
  | access (fault : Disk.Fault)
  | encoding
deriving DecidableEq, Repr

inductive ExperimentFileError where
  | unreadable (path : Path) (fault : TextFault)
  | invalid (path : Path) (error : ExperimentError)
deriving DecidableEq, Repr

def ExperimentError.message : ExperimentError → String
  | .unparsable => "Failed to parse TOML configuration"
  | .layout fault => fault.message

def TextFault.message : TextFault → String
  | .access fault => fault.message
  | .encoding => "stream did not contain valid UTF-8"

def ExperimentFileError.chain : ExperimentFileError → List String
  | .unreadable path fault => [s!"Failed to read config file: {path.text}", fault.message]
  | .invalid path error => [s!"Invalid config file: {path.text}", error.message]

namespace Experiment

def ofText (text : String) : Except ExperimentError Experiment :=
  match Toml.ofText? text >>= ofToml? with
  | none => .error .unparsable
  | some e =>
    match e.validate with
    | .ok () => .ok e
    | .error fault => .error (.layout fault)

def readText (disk : Disk) (path : Path) : Except TextFault String :=
  match disk.read path with
  | .error fault => .error (.access fault)
  | .ok content =>
    match Text.decode? content with
    | some text => .ok text
    | none => .error .encoding

/-- The experiment in a file. Its relative paths are seen from the directory that
the file is in. -/
def load (disk : Disk) (path : Path) : Except ExperimentFileError Experiment :=
  match readText disk path with
  | .error fault => .error (.unreadable path fault)
  | .ok text =>
    match ofText text with
    | .error error => .error (.invalid path error)
    | .ok e => .ok (match path.parent? with
      | some base => e.relativeTo base
      | none => e)

end Experiment
end CycleCount
