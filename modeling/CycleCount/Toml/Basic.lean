/-! TOML values and the tables they are collected in. A table remembers how it
came about, because that decides who may still add to it. -/

namespace CycleCount

inductive Toml.Origin where
  | header
  | implied
  | dotted
deriving DecidableEq, Repr

/-- Fractional numbers and points in time are kept as written. -/
inductive Toml where
  | string (value : String)
  | integer (value : Int)
  | float (text : List Char)
  | boolean (value : Bool)
  | moment (text : List Char)
  | array (entries : List Toml)
  | inline (members : List (String × Toml))
  | table (origin : Toml.Origin) (members : List (String × Toml))
  | tables (entries : List (List (String × Toml)))
deriving Repr, Inhabited

namespace Toml

abbrev Members := List (String × Toml)

def replace (members : Members) (key : String) (value : Toml) : Members :=
  members.map fun member => if member.1 = key then (key, value) else member

/-- Changes the table at the end of `path`, starting from a table with the given
origin and members. Missing tables on the way are made, of the kind that
`dotted` asks for. A step of a dotted key never enters a table with a header, and
a list of tables is entered at its last. -/
def within? (dotted : Bool) (change : Origin → Members → Option Members) :
    (path : List String) → Origin → Members → Option Members
  | [], origin, members => change origin members
  | key :: path, _, members =>
    match members.lookup key with
    | none =>
      let origin := if dotted then .dotted else .implied
      (within? dotted change path origin []).map fun inner =>
        members ++ [(key, .table origin inner)]
    | some (.table origin inner) =>
      if dotted && origin == .header then none
      else (within? dotted change path origin inner).map fun inner =>
        replace members key (.table origin inner)
    | some (.tables entries) =>
      match entries.getLast? with
      | some last => (within? dotted change path .header last).map fun last =>
          replace members key (.tables (entries.dropLast ++ [last]))
      | none => none
    | some _ => none

def addNew? (key : String) (value : Toml) (members : Members) : Option Members :=
  if (members.lookup key).isSome then none else some (members ++ [(key, value)])

/-- Adds a key to a table. The table that a dotted key ends in has to stem from
dotted keys itself. -/
def assign? (path : List String) (key : String) (value : Toml) (members : Members) :
    Option Members :=
  within? true (fun origin members =>
    if path.isEmpty || origin == .dotted then addNew? key value members else none)
    path .header members

/-- Opens the table of a header. A table may get its header after those inside
it, but only once. -/
def openTable? (path : List String) (key : String) (root : Members) : Option Members :=
  within? false (fun _ members =>
    match members.lookup key with
    | none => some (members ++ [(key, .table .header [])])
    | some (.table .implied inner) => some (replace members key (.table .header inner))
    | some _ => none) path .header root

def openEntry? (path : List String) (key : String) (root : Members) : Option Members :=
  within? false (fun _ members =>
    match members.lookup key with
    | none => some (members ++ [(key, .tables [[]])])
    | some (.tables entries) => some (replace members key (.tables (entries ++ [[]])))
    | some _ => none) path .header root

def members? : Toml → Option Members
  | .inline members | .table _ members => some members
  | _ => none

def entries? : Toml → Option (List Toml)
  | .array entries => some entries
  | .tables entries => some (entries.map (.table .header))
  | _ => none

end Toml
end CycleCount
