import CycleCount.Disk.Basic
import CycleCount.Path

/-! Every way an analysis can fail. A constructor records the cause; the wording
is in `Error.message`. -/

namespace CycleCount

inductive MissingReason where
  | noDirectory
  | noFiles
deriving DecidableEq, Repr

inductive LineFault where
  | emptyLine
  | columnCount (expected found : Nat)
  | notCycles (field : String)
  | noSamples
  | missingFunction
  | functionWithoutSamples (function : String)
  | fieldCount (found : Nat)
  | beyondTrials (declared : Nat)
deriving DecidableEq, Repr

inductive RecordFault where
  | encoding
  | access (fault : Disk.Fault)
deriving DecidableEq, Repr

inductive SnapshotFault where
  | malformed
  | formatTag (found : String)
  | payloadKind (expected found : String)
  | summaryLengths (values probabilities : Nat)
  | summaryEmpty
  | comparisonLengths (baseline treatment : String)
deriving DecidableEq, Repr

inductive InputChange where
  | otherFile (stored current : Path)
  | changed (path : Path)
  | otherCount (stored current : Nat)
deriving DecidableEq, Repr

inductive Error where
  | io (path : Path) (fault : Disk.Fault)
  | records (path : Path) (fault : RecordFault)
  | missingConfiguration (directory : Path) (reason : MissingReason)
  | unknownConfiguration (name : String)
  | unknownAxis (name : String)
  | invalidFileName (path : Path)
  | duplicateRepetition (path : Path) (repetitions : UInt64)
  | malformedLine (path : Path) (line : Nat) (fault : LineFault)
  | identifierMismatch (origin : String) (row : Nat) (expected found : String)
  | rowCountMismatch (baseline treatment : Path) (row : Nat)
  | truncatedTrial (path : Path) (rows functionsPerTrial : Nat) (declared : Option Nat)
  | outOfOrder (expected got : Nat)
  | zeroBaseline
  | emptySeries
  | emptyFilteredSeries (context : String)
  | lengthMismatch (baseline treatment : Nat)
  | unpairedRepetition (present absent : String) (repetitions : UInt64)
  | staleSnapshot (path : Path) (found : Nat)
  | unreadableSnapshot (path : Path) (fault : SnapshotFault)
  | foreignSnapshot (path : Path) (change : InputChange)
deriving DecidableEq, Repr

def snapshotTag : String := "cycle-stats-cache"

def snapshotVersion : Nat := 2

def MissingReason.message : MissingReason → String
  | .noDirectory => "directory does not exist"
  | .noFiles => "no <repetition-count>.csv files"

def LineFault.message : LineFault → String
  | .emptyLine => "empty line"
  | .columnCount expected found =>
    s!"expected {expected} comma-separated integers, found {found}"
  | .notCycles field => s!"'{field}' is not a cycle count"
  | .noSamples => "file contains no samples"
  | .missingFunction => "missing function identifier"
  | .functionWithoutSamples function => s!"function '{function}' has no samples"
  | .fieldCount found => s!"expected function,cycles but found {found} fields"
  | .beyondTrials declared => s!"row beyond the declared {declared} trials"

def RecordFault.message : RecordFault → String
  | .encoding => "a record is not valid UTF-8"
  | .access fault => fault.message

def SnapshotFault.message : SnapshotFault → String
  | .malformed => "not a snapshot"
  | .formatTag found => s!"format tag is '{found}', expected '{snapshotTag}'"
  | .payloadKind expected found => s!"expected a {expected} payload, found {found}"
  | .summaryLengths values probabilities =>
    s!"invalid summary: paired sequences differ in length: {values} baseline vs {probabilities} treatment"
  | .summaryEmpty => "invalid summary: statistic requested over an empty sample series"
  | .comparisonLengths baseline treatment =>
    s!"comparison {baseline} -> {treatment} has columns of different lengths"

def InputChange.message : InputChange → String
  | .otherFile stored current => s!"snapshot was built from {stored.text}, not {current.text}"
  | .changed path => s!"{path.text} changed after the snapshot was taken"
  | .otherCount stored current =>
    s!"snapshot was built from {stored} input files, now there are {current}"

def declaredText : Option Nat → String
  | none => "None"
  | some n => s!"Some({n})"

def Error.message : Error → String
  | .io path fault => s!"failed to access {path.text}: {fault.message}"
  | .records path fault => s!"failed to read CSV from {path.text}: {fault.message}"
  | .missingConfiguration directory reason =>
    s!"missing configuration {directory.text}: {reason.message}"
  | .unknownConfiguration name => s!"unknown configuration {name}"
  | .unknownAxis name => s!"axis '{name}' is not declared for this dataset"
  | .invalidFileName path => s!"file name {path.text} is not <repetition-count>.csv"
  | .duplicateRepetition path repetitions =>
    s!"repetition count {repetitions} appears twice in {path.text}"
  | .malformedLine path line fault => s!"{path.text}:{line}: {fault.message}"
  | .identifierMismatch origin row expected found =>
    s!"{origin}: row {row} has function '{found}' but '{expected}' was expected at that position"
  | .rowCountMismatch baseline treatment row =>
    s!"{baseline.text} and {treatment.text} diverge in length at row {row}"
  | .truncatedTrial path rows functionsPerTrial declared =>
    s!"{path.text}: {rows} rows do not form complete trials of {functionsPerTrial} functions (declared trials: {declaredText declared})"
  | .outOfOrder expected got => s!"out-of-order insertion: expected index {expected}, got {got}"
  | .zeroBaseline => "overhead ratio is undefined against a zero-mean baseline"
  | .emptySeries => "statistic requested over an empty sample series"
  | .emptyFilteredSeries context => s!"outlier filtering left no samples in {context}"
  | .lengthMismatch baseline treatment =>
    s!"paired sequences differ in length: {baseline} baseline vs {treatment} treatment"
  | .unpairedRepetition present absent repetitions =>
    s!"repetition count {repetitions} is present for {present} but not for {absent}"
  | .staleSnapshot path found =>
    s!"cache {path.text} has version {found}, expected {snapshotVersion}"
  | .unreadableSnapshot path fault => s!"cache {path.text} is unreadable: {fault.message}"
  | .foreignSnapshot path change =>
    s!"cache {path.text} does not belong to the current inputs: {change.message}"

end CycleCount
