import CycleCount.Dataset.Basic
import CycleCount.Decimal.Word
import CycleCount.Disk.Records
import CycleCount.Experiment.Basic
import CycleCount.Records.Columns

/-! Assembling a data set from a directory tree. The files of a configuration lie
in its directory, each named for its repetition count: digits in groups that single
underscores separate. -/

namespace CycleCount

/-- Underscores stand neither first nor last nor side by side. -/
def separatesGroups (stem : List Char) : Bool :=
  stem.head? != some '_' && stem.getLast? != some '_' && !(stem.zip stem.tail).contains ('_', '_')

def repetitionCount (path : Path) : Except Error UInt64 :=
  let count? := do
    let stem ← path.stem?
    if separatesGroups stem then Decimal.word? (stem.filter (· != '_')) else none
  match count? with
  | some n => .ok n
  | none => .error (.invalidFileName path)

namespace Experiment

def isSampleFile (disk : Disk) (path : Path) : Bool :=
  (disk.find path).toOption.any Disk.Entry.isFile && path.extension? == some ['c', 's', 'v']

def leafFiles (disk : Disk) (directory : Path) : Except Error (List Path) :=
  match disk.list directory with
  | .error .notFound => .error (.missingConfiguration directory .noDirectory)
  | .error fault => .error (.io directory fault)
  | .ok names =>
    let sorted := names.mergeSort fun a b => !decide (b < a)
    match (sorted.map fun name => directory.join ⟨name⟩).filter (isSampleFile disk) with
    | [] => .error (.missingConfiguration directory .noFiles)
    | files => .ok files

def readSamples (e : Experiment) (disk : Disk) (path : Path) : Except Error Conditions := do
  let columns ← Records.sampleColumns path e.columns.length (← disk.lines path)
  return e.columns.zip columns

def addFile (e : Experiment) (disk : Disk) (record : RunRecord) (path : Path) :
    Except Error RunRecord := do
  let repetitions ← repetitionCount path
  let conditions ← e.readSamples disk path
  match record.insert? repetitions conditions with
  | some record => return record
  | none => .error (.duplicateRepetition path repetitions)

def readLeaf (e : Experiment) (disk : Disk) (directory : Path) : Except Error RunRecord := do
  (← leafFiles disk directory).foldlM (e.addFile disk) {}

def assemble (e : Experiment) (disk : Disk) : Except Error Dataset := do
  let records ← e.keys.mapM fun key => do
    return (key, ← e.readLeaf disk (e.leafDirectory key))
  return { name := e.name, axes := e.axisNames, labels := e.columns, records }

def sourceFiles (e : Experiment) (disk : Disk) : Except Error (List Path) := do
  return (← e.keys.mapM fun key => leafFiles disk (e.leafDirectory key)).flatten

end Experiment
end CycleCount
