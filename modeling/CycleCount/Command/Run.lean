import CycleCount.Analysis.Compare
import CycleCount.Analysis.Report
import CycleCount.Command.Arguments
import CycleCount.Command.Failure
import CycleCount.Dataset.Assembly
import CycleCount.Functions.Collection
import CycleCount.Snapshot.Store
import CycleCount.Trials.Reshape

/-! What the commands do. Results that were kept in a snapshot are used again
where the snapshot belongs to the inputs and the layout at hand; a snapshot that
does not, or that cannot be read, is passed over and written anew. -/

namespace CycleCount

inductive CacheUse where
  | none
  | hit
  | layout
  | unusable
deriving DecidableEq, Repr

def Error.isUnusableSnapshot : Error → Bool
  | .staleSnapshot .. | .unreadableSnapshot .. | .foreignSnapshot .. => true
  | _ => false

inductive Consulted (α : Type) where
  | found (results : α)
  | nothing (use : CacheUse)
  | failed (error : Error)

def Consulted.ofLoad {α : Type} (fits : α → Bool) : Except Error α → Consulted α
  | .ok results => if fits results then .found results else .nothing .layout
  | .error error => if error.isUnusableSnapshot then .nothing .unusable else .failed error

def consult {α : Type} (disk : Disk) (cache : Option Path) (load : Path → Except Error α)
    (fits : α → Bool) : Consulted α :=
  match cache.filter disk.contains with
  | some path => .ofLoad fits (load path)
  | none => .nothing .none

structure Attempt (α : Type) where
  use : CacheUse
  result : Except Failure (α × Disk)

def keep {α : Type} (disk : Disk) (cache : Option Path) (save : Path → Except Error Disk)
    (results : α) : Except Failure (α × Disk) :=
  match cache with
  | none => .ok (results, disk)
  | some path =>
    match save path with
    | .ok disk => .ok (results, disk)
    | .error error => .error (.writeCache path error)

def lift {α : Type} : Except Error α → Except Failure α
  | .ok a => .ok a
  | .error error => .error (.analysis error)

def Experiment.compute (e : Experiment) (disk : Disk) (inputs : List Path) :
    Except Failure (Report × Disk) := do
  let report ← lift (e.assemble disk >>= analyse e.comparison)
  keep disk e.cache (fun path => saveReport disk path report inputs) report

def Experiment.report (e : Experiment) (noCache : Bool) (disk : Disk) : Attempt Report :=
  match e.sourceFiles disk with
  | .error error => ⟨.none, .error (.analysis error)⟩
  | .ok inputs =>
    match consult disk (if noCache then none else e.cache)
        (fun path => loadReport disk path inputs) (fun r => r.belongsTo e) with
    | .found report => ⟨.hit, .ok (report, disk)⟩
    | .failed error => ⟨.none, .error (.analysis error)⟩
    | .nothing use => ⟨use, e.compute disk inputs⟩

namespace FunctionCollection

def obtain (disk : Disk) (baseline treatment : Path) (cache : Option Path) :
    Attempt FunctionCollection :=
  let inputs := [baseline, treatment]
  match consult disk cache (fun path => loadFunctions disk path inputs) (fun _ => true) with
  | .found collection => ⟨.hit, .ok (collection, disk)⟩
  | .failed error => ⟨.none, .error (.analysis error)⟩
  | .nothing use => ⟨use, do
      let collection ← lift (load disk baseline treatment)
      keep disk cache (fun path => saveFunctions disk path collection inputs) collection⟩

end FunctionCollection

structure Execution where
  disk : Disk
  output : String := ""
  failure : Option Failure := none
  use : CacheUse := .none
  notes : List String := []

def Execution.exitCode (x : Execution) : Nat := if x.failure.isSome then 1 else 0

def deliver (disk : Disk) (use : CacheUse) (text : String) (output : Option Path) : Execution :=
  match output with
  | none => { disk, use, output := text }
  | some path =>
    match disk.write path (Text.encode text) with
    | .ok disk => { disk, use }
    | .error fault => { disk, use, failure := some (.writeReport path fault) }

namespace Command

def run (disk : Disk) : Command → Execution
  | .reshape shape input output =>
    match (shape.reshapeFile input output).runOn disk with
    | (.error error, disk) => { disk, failure := some (.reshape input error) }
    | (.ok extent, disk) =>
      { disk, notes :=
          [s!"{extent.functions} functions x {extent.trials} trials written to {output.text}"] }
  | .analyze config format output noCache =>
    match Experiment.load disk config with
    | .error error => { disk, failure := some (.experiment error) }
    | .ok e =>
      let attempt := e.report noCache disk
      match attempt.result with
      | .error failure => { disk, failure := some failure, use := attempt.use }
      | .ok (report, disk) => deliver disk attempt.use (report.render format) output
  | .functions baseline treatment only cache format output =>
    let attempt := FunctionCollection.obtain disk baseline treatment cache
    match attempt.result with
    | .error failure => { disk, failure := some failure, use := attempt.use }
    | .ok (collection, disk) =>
      match collection.report only with
      | .error error => { disk, failure := some (.analysis error), use := attempt.use }
      | .ok report => deliver disk attempt.use (report.render format) output

end Command
end CycleCount
