import CycleCount.Disk.Records
import CycleCount.Snapshot.Decode
import CycleCount.Snapshot.Encode

/-! Snapshots on a disk. A snapshot is used only for exactly the input files it
was computed from, and only while they are unchanged. -/

namespace CycleCount

def InputStamp.take (disk : Disk) (path : Path) : Except Error InputStamp :=
  match disk.find path with
  | .ok entry => .ok { path, length := entry.stamp.1, modified := some entry.stamp.2 }
  | .error fault => .error (.io path fault)

def stampInputs (disk : Disk) (paths : List Path) : Except Error (List InputStamp) :=
  paths.mapM (InputStamp.take disk)

/-- How the recorded inputs differ from the current ones, if they do: by the first
pair that does not agree, or else by their number. -/
def inputChange? : List InputStamp → List InputStamp → Option InputChange
  | recorded, current =>
    match (recorded.zip current).find? fun (old, new) => !old.agrees new with
    | some (old, new) =>
      if old.path.sameAs new.path then some (.changed new.path)
      else some (.otherFile old.path new.path)
    | none =>
      if recorded.length = current.length then none
      else some (.otherCount recorded.length current.length)

def checkInputs (disk : Disk) (path : Path) (recorded : List InputStamp) (inputs : List Path) :
    Except Error Unit := do
  match inputChange? recorded (← stampInputs disk inputs) with
  | none => .ok ()
  | some change => .error (.foreignSnapshot path change)

/-- A directory in place of a snapshot can be opened but holds none. -/
def readPayload (disk : Disk) (path : Path) : Except Error Payload := do
  match (← disk.openEntry path).content with
  | .ok content => Payload.read path content
  | .error _ => .error (.unreadableSnapshot path .malformed)

def writePayload (disk : Disk) (path : Path) (payload : Payload) : Except Error Disk :=
  disk.save path (Text.encode (payload.envelope disk.now))

def inSnapshot {α : Type} (path : Path) : Except SnapshotFault α → Except Error α
  | .ok a => .ok a
  | .error fault => .error (.unreadableSnapshot path fault)

def saveReport (disk : Disk) (path : Path) (report : Report) (inputs : List Path) :
    Except Error Disk := do
  writePayload disk path (.dataset (.ofReport report (← stampInputs disk inputs)))

def loadReport (disk : Disk) (path : Path) (inputs : List Path) : Except Error Report := do
  match ← readPayload disk path with
  | .dataset snapshot =>
    checkInputs disk path snapshot.inputs inputs
    inSnapshot path snapshot.toReport
  | other => .error (.unreadableSnapshot path (.payloadKind "dataset" other.kind))

def saveFunctions (disk : Disk) (path : Path) (collection : FunctionCollection)
    (inputs : List Path) : Except Error Disk := do
  writePayload disk path (.functions (.ofCollection collection (← stampInputs disk inputs)))

def FunctionSnapshot.toCollection (s : FunctionSnapshot) (path : Path) :
    Except Error FunctionCollection := do
  FunctionCollection.ofRecords (← inSnapshot path (s.functions.mapM toRecord))

def loadFunctions (disk : Disk) (path : Path) (inputs : List Path) :
    Except Error FunctionCollection := do
  match ← readPayload disk path with
  | .functions snapshot =>
    checkInputs disk path snapshot.inputs inputs
    snapshot.toCollection path
  | other => .error (.unreadableSnapshot path (.payloadKind "functions" other.kind))

end CycleCount
