import CycleCount.Statistics.Ecdf

/-! Mean, population standard deviation and distribution of a sample list. Sums
run from left to right and start at negative zero, so that the mean of a single
sample is that sample, sign of zero included. -/

namespace CycleCount

variable {α : Type} [Sample α Float]

def total (xs : List Float) : Float := xs.foldl (· + ·) (-0.0)

def mean? (samples : List α) : Option Float :=
  if samples.isEmpty then none
  else some (total (samples.map Sample.value) / Float.ofNat samples.length)

def deviation? (samples : List α) : Option Float := do
  let mean ← mean? samples
  let squares := samples.map fun x => (Sample.value x - mean) * (Sample.value x - mean)
  some (total squares / Float.ofNat samples.length).sqrt

structure Summary where
  count : Nat
  mean : Float
  deviation : Float
  ecdf : Ecdf
deriving BEq, Repr

def Summary.ofSamples [LE α] [DecidableLE α] [BEq α] (samples : List α) : Except Error Summary :=
  match mean? samples, deviation? samples, Ecdf.ofSamples? samples with
  | some mean, some deviation, some ecdf =>
    .ok { count := samples.length, mean, deviation, ecdf }
  | _, _, _ => .error .emptySeries

end CycleCount
