import CycleCount.Experiment.Basic
import CycleCount.Toml.Parser

/-! Reading an experiment from TOML. A record may be a table, whose unknown keys
are ignored, or an array with the fields in order. -/

namespace CycleCount.Experiment

def record? (names : List String) (value : Toml) : Option (List (Option Toml)) :=
  match value.members? with
  | some members => some (names.map fun name => members.lookup name)
  | none => value.entries?.map fun entries => (List.range names.length).map (entries[·]?)

def text? : Toml → Option String
  | .string s => some s
  | _ => none

def texts? (value : Toml) : Option (List String) := do (← value.entries?).mapM text?

def axis? (value : Toml) : Option Axis := do
  match ← record? ["name", "values"] value with
  | [name, values] => return { name := ← text? (← name), values := ← texts? (← values) }
  | _ => none

def comparisonOf? (kind : String) (field : String → Option Toml) : Option Comparison := do
  let get := fun name => do text? (← field name)
  match kind with
  | "columns" => return .columns (← get "baseline") (← get "treatment")
  | "axis" => return .axis (← get "axis") (← get "baseline") (← get "treatment")
  | _ => none

def comparisonFields : String → List String
  | "columns" => ["baseline", "treatment"]
  | "axis" => ["axis", "baseline", "treatment"]
  | _ => []

/-- A comparison names its kind, in an array before all else; an array has to
hold no more than the fields of that kind. -/
def comparison? (value : Toml) : Option Comparison :=
  match value.members? with
  | some members => do
    comparisonOf? (← text? (← members.lookup "kind")) fun name => members.lookup name
  | none => do
    match ← value.entries? with
    | kind :: entries =>
      let kind ← text? kind
      let names := comparisonFields kind
      if entries.length = names.length then
        comparisonOf? kind fun name => (names.zip entries).lookup name
      else none
    | [] => none

def optional? {α : Type} (read? : Toml → Option α) : Option Toml → Option (Option α)
  | none => some none
  | some value => (read? value).map some

def cachePath? (value : Toml) : Option Path := do
  match ← record? ["path"] value with
  | [path] => return ⟨← text? (← path)⟩
  | _ => none

def ofToml? (document : Toml.Members) : Option Experiment := do
  let axes ← (← (← document.lookup "axes").entries?).mapM axis?
  let comparison ← optional? comparison? (document.lookup "comparison")
  let cache ← optional? cachePath? (document.lookup "cache")
  match ← record? ["name", "root", "columns"] (← document.lookup "dataset") with
  | [name, root, columns] =>
    return { name := ← text? (← name), root := ⟨← text? (← root)⟩, columns := ← texts? (← columns),
             axes, comparison, cache }
  | _ => none

end CycleCount.Experiment
