import CycleCount.Path

/-! The layout of a benchmark: categorical axes, one directory level each, whose
combinations of values are the configurations. -/

namespace CycleCount

structure Axis where
  name : String
  values : List String
deriving DecidableEq, Repr

structure Key where
  values : List String
deriving DecidableEq, Repr

namespace Key

def get? (key : Key) (axis : Nat) : Option String := key.values[axis]?

/-- The key with another value on `axis`; without that axis, the same key. -/
def withValue (key : Key) (axis : Nat) (value : String) : Key := ⟨key.values.set axis value⟩

def text (key : Key) : String := "/".intercalate key.values

def compareValues : List String → List String → Ordering
  | [], [] => .eq
  | [], _ :: _ => .lt
  | _ :: _, [] => .gt
  | a :: as, b :: bs => (compare a b).then (compareValues as bs)

instance : Ord Key := ⟨fun a b => compareValues a.values b.values⟩

end Key

def extendFronts (fronts : List (List String)) (axis : Axis) : List (List String) :=
  fronts.flatMap fun front => axis.values.map fun value => front ++ [value]

def combinations (axes : List Axis) : List (List String) := axes.foldl extendFronts [[]]

theorem foldl_extendFronts (fronts : List (List String)) (axes : List Axis) :
    axes.foldl extendFronts fronts =
      fronts.flatMap fun front => (combinations axes).map fun rest => front ++ rest := by
  induction axes generalizing fronts with
  | nil => simp [combinations]
  | cons axis axes ih =>
    rw [combinations, List.foldl_cons, List.foldl_cons, ih, ih (extendFronts [[]] axis)]
    simp [extendFronts, List.flatMap_assoc, List.map_flatMap, List.flatMap_map, Function.comp_def]

theorem combinations_cons (axis : Axis) (axes : List Axis) :
    combinations (axis :: axes) =
      axis.values.flatMap fun value => (combinations axes).map (value :: ·) := by
  rw [combinations, List.foldl_cons, foldl_extendFronts]
  simp [extendFronts, List.flatMap_map]

def keys (axes : List Axis) : List Key := (combinations axes).map Key.mk

def leafDirectory (root : Path) (key : Key) : Path :=
  key.values.foldl (fun directory value => directory.join ⟨value⟩) root

end CycleCount
