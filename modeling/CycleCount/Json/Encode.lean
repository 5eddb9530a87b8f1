import CycleCount.Dataset.RunRecord
import CycleCount.Experiment.Basic
import CycleCount.Json.Basic
import CycleCount.Statistics.Percentile

/-! JSON forms of the values that several documents share. -/

namespace CycleCount.Json

def natural (n : Nat) : Json := .integer n

def word (n : UInt64) : Json := natural n.toNat

def list {α : Type} (f : α → Json) (xs : List α) : Json := .array (xs.map f)

def strings (xs : List String) : Json := list .string xs

def reals (xs : List Float) : Json := list .real xs

def words (xs : List UInt64) : Json := list word xs

def optional {α : Type} (f : α → Json) : Option α → Json
  | none => .null
  | some a => f a

def quartiles (q : Quartiles Float) : Json :=
  .object [("count", natural q.count), ("min", .real q.min), ("q1", .real q.q1),
    ("median", .real q.median), ("q3", .real q.q3), ("max", .real q.max)]

def comparison : Comparison → Json
  | .columns baseline treatment =>
    .object [("kind", .string "columns"), ("baseline", .string baseline),
      ("treatment", .string treatment)]
  | .axis name baseline treatment =>
    .object [("kind", .string "axis"), ("axis", .string name), ("baseline", .string baseline),
      ("treatment", .string treatment)]

end CycleCount.Json
