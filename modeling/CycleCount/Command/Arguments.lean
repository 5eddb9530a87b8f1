import CycleCount.Report.Format
import CycleCount.Trials.Reshape

/-! The command line: subcommands with long and short options. A value follows
its option, or is attached to it, behind an equals sign if need be. Arguments are
taken from left to right. -/

namespace CycleCount

inductive Command where
  | reshape (shape : TrialShape) (input output : Path)
  | analyze (config : Path) (format : OutputFormat) (output : Option Path) (noCache : Bool)
  | functions (baseline treatment : Path) (only : Option String) (cache : Option Path)
      (format : OutputFormat) (output : Option Path)
deriving Repr

inductive Invocation where
  | run (command : Command)
  | version
  | help
  | misuse
deriving Repr

namespace Arguments

inductive ValueKind where
  | path
  | text
  | format
  | count
  | positiveCount
deriving DecidableEq, Repr

structure OptionSpec where
  long : String
  short : Option Char := none
  /-- A switch has no value. -/
  value : Option ValueKind
deriving Repr

def reshapeOptions : List OptionSpec :=
  [⟨"input", some 'i', some .path⟩, ⟨"output", some 'o', some .path⟩,
    ⟨"functions-per-trial", some 'l', some .positiveCount⟩, ⟨"trials", some 't', some .count⟩]

def analyzeOptions : List OptionSpec :=
  [⟨"config", some 'c', some .path⟩, ⟨"format", some 'f', some .format⟩,
    ⟨"output", some 'o', some .path⟩, ⟨"no-cache", none, none⟩]

def functionsOptions : List OptionSpec :=
  [⟨"without", none, some .path⟩, ⟨"with", none, some .path⟩, ⟨"only", none, some .text⟩,
    ⟨"cache", none, some .path⟩, ⟨"format", some 'f', some .format⟩,
    ⟨"output", some 'o', some .path⟩]

abbrev Given := List (String × String)

inductive Outcome where
  | given (options : Given)
  | help
  | misuse

def accepts (kind : ValueKind) (value : String) : Bool :=
  match kind with
  | .path => !value.isEmpty
  | .text => true
  | .format => (OutputFormat.ofName value).toOption.isSome
  | .count => (Decimal.word? value.toList).isSome
  | .positiveCount => (Decimal.word? value.toList).any (· != 0)

def add? (given : Given) (spec : OptionSpec) (value : String) : Option Given :=
  if (given.lookup spec.long).isSome then none
  else if spec.value.all (accepts · value) then some (given ++ [(spec.long, value)])
  else none

def isOption (arg : String) : Bool :=
  match arg.toList with
  | '-' :: _ :: _ => true
  | _ => false

def splitLong (cs : List Char) : String × Option String :=
  match cs.span (· != '=') with
  | (name, []) => (String.ofList name, none)
  | (name, _ :: value) => (String.ofList name, some (String.ofList value))

def attached (cs : List Char) : Option String :=
  match cs with
  | [] => none
  | '=' :: value => some (String.ofList value)
  | value => some (String.ofList value)

def recognise (specs : List OptionSpec) (arg : List Char) :
    Option (OptionSpec × Option String) :=
  match arg with
  | '-' :: '-' :: cs =>
    let (name, value) := splitLong cs
    (specs.find? (·.long == name)).map (·, value)
  | '-' :: c :: cs => (specs.find? (·.short == some c)).map (·, attached cs)
  | _ => none

def asksForHelp (arg : List Char) : Bool :=
  match arg with
  | '-' :: 'h' :: _ => true
  | arg => arg == "--help".toList

def options (specs : List OptionSpec) (given : Given) : List String → Outcome
  | [] => .given given
  | arg :: rest =>
    if arg == "--" then if rest.isEmpty then .given given else .misuse
    else if asksForHelp arg.toList then .help
    else
      match recognise specs arg.toList with
      | none => .misuse
      | some (spec, value) =>
        match spec.value, value, rest with
        | none, none, rest =>
          match add? given spec "" with
          | some given => options specs given rest
          | none => .misuse
        | none, some _, _ => .misuse
        | some _, some value, rest =>
          match add? given spec value with
          | some given => options specs given rest
          | none => .misuse
        | some _, none, value :: rest =>
          if isOption value then .misuse
          else
            match add? given spec value with
            | some given => options specs given rest
            | none => .misuse
        | some _, none, [] => .misuse

def path? (given : Given) (name : String) : Option Path := (given.lookup name).map Path.mk

def format (given : Given) : OutputFormat :=
  match given.lookup "format" with
  | some name => (OutputFormat.ofName name).toOption.getD OutputFormat.standard
  | none => OutputFormat.standard

def count? (given : Given) (name : String) : Option Nat := do
  return (← Decimal.word? (← given.lookup name).toList).toNat

def reshape? (given : Given) : Option Command := do
  let input ← path? given "input"
  let output ← path? given "output"
  let functions ← count? given "functions-per-trial"
  if h : 0 < functions then
    some (.reshape { functions, trials := count? given "trials", functions_pos := h } input output)
  else none

def analyze? (given : Given) : Option Command := do
  let config ← path? given "config"
  return .analyze config (format given) (path? given "output") (given.lookup "no-cache").isSome

def functions? (given : Given) : Option Command := do
  let baseline ← path? given "without"
  let treatment ← path? given "with"
  return .functions baseline treatment (given.lookup "only") (path? given "cache") (format given)
    (path? given "output")

def subcommand (specs : List OptionSpec) (build? : Given → Option Command) (args : List String) :
    Invocation :=
  match options specs [] args with
  | .help => .help
  | .misuse => .misuse
  | .given given =>
    match build? given with
    | some command => .run command
    | none => .misuse

def versionText : String := "cycle-stats 0.1.0\n"

def subcommands : List String := ["reshape", "analyze", "functions", "help"]

def parse : List String → Invocation
  | "reshape" :: args => subcommand reshapeOptions reshape? args
  | "analyze" :: args => subcommand analyzeOptions analyze? args
  | "functions" :: args => subcommand functionsOptions functions? args
  | ["help"] => .help
  | ["help", name] => if subcommands.contains name then .help else .misuse
  | arg :: _ =>
    match arg.toList with
    | '-' :: 'V' :: _ => .version
    | cs =>
      if arg == "--version" then .version else if asksForHelp cs then .help else .misuse
  | [] => .misuse

end Arguments
end CycleCount
