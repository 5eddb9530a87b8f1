import CycleCount.Dataset.Layout

/-! An experiment: where its measurements lie, how they are laid out, what is
compared, and where results are kept. -/

namespace CycleCount

inductive Comparison where
  | columns (baseline treatment : String)
  | axis (name baseline treatment : String)
deriving DecidableEq, Repr

structure Experiment where
  name : String
  root : Path
  columns : List String
  axes : List Axis
  comparison : Option Comparison
  cache : Option Path
deriving DecidableEq, Repr

inductive LayoutFault where
  | noAxes
  | noColumns
  | columnTwice (column : String)
  | axisTwice (axis : String)
  | axisWithoutValues (axis : String)
  | valueTwice (axis value : String)
  | unknownColumn (column : String)
  | unknownComparisonAxis (axis : String)
  | unknownValue (value axis : String)
  | comparedWithItself (value : String)
deriving DecidableEq, Repr

def LayoutFault.message : LayoutFault → String
  | .noAxes => "at least one [[axes]] entry is required"
  | .noColumns => "dataset.columns must name at least one condition"
  | .columnTwice column => s!"dataset.columns lists '{column}' twice"
  | .axisTwice axis => s!"axis '{axis}' is declared twice"
  | .axisWithoutValues axis => s!"axis '{axis}' has no values"
  | .valueTwice axis value => s!"axis '{axis}' lists '{value}' twice"
  | .unknownColumn column => s!"comparison column '{column}' is not in dataset.columns"
  | .unknownComparisonAxis axis => s!"comparison axis '{axis}' is not declared"
  | .unknownValue value axis => s!"comparison value '{value}' is not a value of axis '{axis}'"
  | .comparedWithItself value => s!"comparison compares '{value}' with itself"

def firstRepeat? (seen : List String) : List String → Option String
  | [] => none
  | x :: xs => if seen.contains x then some x else firstRepeat? (x :: seen) xs

def checkAxes (seen : List String) : List Axis → Except LayoutFault Unit
  | [] => .ok ()
  | axis :: axes =>
    if seen.contains axis.name then .error (.axisTwice axis.name)
    else if axis.values.isEmpty then .error (.axisWithoutValues axis.name)
    else
      match firstRepeat? [] axis.values with
      | some value => .error (.valueTwice axis.name value)
      | none => checkAxes (axis.name :: seen) axes

namespace Experiment

def checkComparison (e : Experiment) : Except LayoutFault Unit :=
  match e.comparison with
  | none => .ok ()
  | some (.columns baseline treatment) =>
    if !e.columns.contains baseline then .error (.unknownColumn baseline)
    else if !e.columns.contains treatment then .error (.unknownColumn treatment)
    else if baseline = treatment then .error (.comparedWithItself baseline)
    else .ok ()
  | some (.axis name baseline treatment) =>
    match e.axes.find? (·.name == name) with
    | none => .error (.unknownComparisonAxis name)
    | some axis =>
      if !axis.values.contains baseline then .error (.unknownValue baseline name)
      else if !axis.values.contains treatment then .error (.unknownValue treatment name)
      else if baseline = treatment then .error (.comparedWithItself baseline)
      else .ok ()

def validate (e : Experiment) : Except LayoutFault Unit :=
  if e.axes.isEmpty then .error .noAxes
  else if e.columns.isEmpty then .error .noColumns
  else
    match firstRepeat? [] e.columns with
    | some column => .error (.columnTwice column)
    | none => do
      checkAxes [] e.axes
      e.checkComparison

def axisNames (e : Experiment) : List String := e.axes.map (·.name)

def keys (e : Experiment) : List Key := CycleCount.keys e.axes

def leafDirectory (e : Experiment) (key : Key) : Path := CycleCount.leafDirectory e.root key

def relativeTo (e : Experiment) (base : Path) : Experiment :=
  { e with root := base.join e.root, cache := e.cache.map base.join }

end Experiment
end CycleCount
