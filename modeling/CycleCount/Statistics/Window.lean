import CycleCount.Statistics.Percentile

/-! The retention window of a sample list: one and a half interquartile ranges
to either side of the median, ends included. -/

namespace CycleCount

variable {α K : Type} [LE α] [DecidableLE α] [Scalar K] [Sample α K]

structure Window (K : Type) where
  q1 : K
  median : K
  q3 : K
  spread : K
  lower : K
  upper : K
deriving BEq, Repr

namespace Window

/-- The window half as wide as `spread` times three halves around the median. -/
def ofQuartiles (q1 median q3 : K) : Window K :=
  let spread := q3 - q1
  let half := Scalar.ofNat 3 / Scalar.ofNat 2 * spread
  { q1, median, q3, spread, lower := median - half, upper := median + half }

def ofSamples? (samples : List α) : Option (Window K) := do
  let sorted := ascending samples
  let q1 ← percentileOfSorted? sorted (Scalar.ofNat 25)
  let median ← percentileOfSorted? sorted (Scalar.ofNat 50)
  let q3 ← percentileOfSorted? sorted (Scalar.ofNat 75)
  some (ofQuartiles q1 median q3)

def contains (w : Window K) (x : α) : Bool :=
  Scalar.le w.lower (Sample.value x) && Scalar.le (Sample.value x) w.upper

def retain (w : Window K) (samples : List α) : List α := samples.filter w.contains

def outliers (w : Window K) (samples : List α) : List Nat :=
  samples.zipIdx.filterMap fun (x, i) => if w.contains x then none else some i

end Window

def retained (K : Type) [Scalar K] [Sample α K] (samples : List α) : List α :=
  match (Window.ofSamples? samples : Option (Window K)) with
  | some w => w.retain samples
  | none => []

end CycleCount
