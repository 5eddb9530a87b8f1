import CycleCount.Json.Document

/-! Reading typed values out of JSON. -/

namespace CycleCount.Json

def text : Json → Option String
  | .string s => some s
  | _ => none

def below? (bound : Nat) : Json → Option Nat
  | .integer (.ofNat n) => if n < bound then some n else none
  | _ => none

def natural? : Json → Option Nat := below? UInt64.size

def word? (json : Json) : Option UInt64 := (natural? json).map Nat.toUInt64

def real? : Json → Option Float
  | .real x => some x
  | .integer n => some (Float.ofInt n)
  | _ => none

def list? {α : Type} (read? : Json → Option α) : Json → Option (List α)
  | .array entries => entries.mapM read?
  | _ => none

def last? (members : List (String × Json)) (name : String) : Option Json :=
  members.reverse.lookup name

/-- The named fields of a record. In an object any may be missing; an array has
to hold all of them and nothing else. -/
def record? (names : List String) : Json → Option (List (Option Json))
  | .object members => some (names.map (last? members))
  | .array entries => if entries.length = names.length then some (entries.map some) else none
  | _ => none

def optional? {α : Type} (read? : Json → Option α) : Option Json → Option (Option α)
  | none | some .null => some none
  | some json => (read? json).map some

def tagged? : Json → Option (Json × Json)
  | .object members => (last? members "kind").map (·, .object members)
  | .array (kind :: entries) => some (kind, .array entries)
  | _ => none

end CycleCount.Json
