import CycleCount.Statistics.Scalar

/-! Percentiles by the midpoint rule: a rank between two order statistics gives
their arithmetic mean, whatever its fractional part. -/

namespace CycleCount

variable {α K : Type} [LE α] [DecidableLE α] [Scalar K] [Sample α K]

def rank (p : K) (n : Nat) : K := p / Scalar.ofNat 100 * Scalar.ofNat (n - 1)

/-- The midpoint percentile of samples that are in ascending order. A position
outside the list, which no rank between 0 and 100 reaches, has no value. -/
def percentileOfSorted? (sorted : List α) (p : K) : Option K := do
  let r := rank p sorted.length
  let lower ← sorted[Scalar.floor r]?
  let upper ← sorted[Scalar.ceil r]?
  if Scalar.floor r = Scalar.ceil r then
    some (Sample.value lower)
  else
    some ((Sample.value lower + Sample.value upper) / Scalar.ofNat 2)

def percentile? (samples : List α) (p : K) : Option K :=
  if samples.isEmpty || !(Scalar.le (Scalar.ofNat 0) p && Scalar.le p (Scalar.ofNat 100)) then none
  else percentileOfSorted? (ascending samples) p

structure Quartiles (K : Type) where
  count : Nat
  min : K
  q1 : K
  median : K
  q3 : K
  max : K
deriving BEq, Repr

namespace Quartiles

def ofSamples? (samples : List α) : Option (Quartiles K) := do
  let sorted := ascending samples
  let min ← sorted.head?
  let q1 ← percentileOfSorted? sorted (Scalar.ofNat 25)
  let median ← percentileOfSorted? sorted (Scalar.ofNat 50)
  let q3 ← percentileOfSorted? sorted (Scalar.ofNat 75)
  let max ← sorted.getLast?
  some { count := sorted.length, min := Sample.value min, q1, median, q3, max := Sample.value max }

def spread (q : Quartiles K) : K := q.q3 - q.q1

end Quartiles
end CycleCount
