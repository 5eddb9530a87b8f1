import CycleCount.Statistics.Summary

/-! Overhead of a treatment over its baseline, as a ratio of means, and the
merged trend of two aligned sequences of means. -/

namespace CycleCount

def ratioOfMeans (baseline treatment : Float) : Except Error Float :=
  if baseline == 0 then .error .zeroBaseline else .ok (treatment / baseline)

def overheadRatio {α : Type} [Sample α Float] (baseline treatment : List α) : Except Error Float :=
  match mean? baseline, mean? treatment with
  | some b, some t => ratioOfMeans b t
  | _, _ => .error .emptySeries

def settle {α : Type} (below : α → α → Bool) (x : α) : List α → List α
  | [] => [x]
  | y :: ys => if below x y then y :: settle below x ys else x :: y :: ys

/-- Sorts upwards; an entry moves ahead only of entries it is strictly below. -/
def settleAll {α : Type} (below : α → α → Bool) (xs : List α) : List α :=
  (xs.foldl (fun sorted x => settle below x sorted) []).reverse

def pairAverage (pair : Float × Float) : Float := (pair.1 + pair.2) / 2

def mergeAndSort (baseline treatment : List Float) : Except Error (List (Float × Float)) :=
  if baseline.length ≠ treatment.length then
    .error (.lengthMismatch baseline.length treatment.length)
  else
    .ok (settleAll (fun a b => pairAverage a < pairAverage b) (baseline.zip treatment))

structure Trend where
  baseline : List Float
  treatment : List Float
deriving BEq, Repr

namespace Trend

def ofMeans (baseline treatment : List Float) : Except Error Trend := do
  let pairs ← mergeAndSort baseline treatment
  return ⟨pairs.map (·.1), pairs.map (·.2)⟩

def pairs (t : Trend) : List (Float × Float) := t.baseline.zip t.treatment

def length (t : Trend) : Nat := t.baseline.length

end Trend
end CycleCount
