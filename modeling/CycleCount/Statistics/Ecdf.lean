import CycleCount.Error
import CycleCount.Statistics.Scalar

/-! The empirical distribution function: one step for every distinct sample, as
high as the fraction of samples not above it. -/

namespace CycleCount

variable {α : Type}

/-- Runs of equal neighbours, each with the number of entries up to its end.
`x` opens the current run and `seen` entries were read so far. -/
def runEndsFrom [BEq α] (x : α) (seen : Nat) : List α → List (α × Nat)
  | [] => [(x, seen)]
  | y :: ys => if y == x then runEndsFrom x (seen + 1) ys else (x, seen) :: runEndsFrom y (seen + 1) ys

def runEnds [BEq α] : List α → List (α × Nat)
  | [] => []
  | x :: xs => runEndsFrom x 1 xs

/-- The number of entries before the first one without `p`, by bisection: of two
entries the one behind is taken to have `p` only if the one in front has it. -/
def partitionPoint (p : α → Bool) (xs : List α) : Nat :=
  match h : xs.drop (xs.length / 2) with
  | [] => 0
  | x :: back =>
    if p x then xs.length / 2 + 1 + partitionPoint p back
    else partitionPoint p (xs.take (xs.length / 2))
termination_by xs.length
decreasing_by
  all_goals
    have hlength := congrArg List.length h
    simp only [List.length_drop, List.length_cons, List.length_take] at hlength ⊢
    omega

theorem partitionPoint_le (p : α → Bool) (xs : List α) : partitionPoint p xs ≤ xs.length := by
  fun_induction partitionPoint p xs with
  | case1 xs h => exact Nat.zero_le _
  | case2 xs x back h hx ih =>
    have hlength := congrArg List.length h
    simp only [List.length_drop, List.length_cons] at hlength
    omega
  | case3 xs x back h hx ih =>
    rw [List.length_take] at ih
    omega

structure Ecdf where
  points : List (Float × Float)
deriving BEq, Repr

namespace Ecdf

def ofSamples? [LE α] [DecidableLE α] [BEq α] [Sample α Float] (samples : List α) : Option Ecdf :=
  if samples.isEmpty then none
  else
    let total := Float.ofNat samples.length
    some ⟨(runEnds (ascending samples)).map fun (x, count) =>
      (Sample.value x, Float.ofNat count / total)⟩

def values (e : Ecdf) : List Float := e.points.map (·.1)

def probabilities (e : Ecdf) : List Float := e.points.map (·.2)

def ofColumns (values probabilities : List Float) : Except Error Ecdf :=
  if values.length ≠ probabilities.length then
    .error (.lengthMismatch values.length probabilities.length)
  else if values.isEmpty then .error .emptySeries
  else .ok ⟨values.zip probabilities⟩

def stepPoints (e : Ecdf) : List (Float × Float) :=
  match e.points with
  | [] => []
  | (x, p) :: rest => (x, 0) :: (x, p) :: rest

def evaluate (e : Ecdf) (x : Float) : Float :=
  match h : partitionPoint (fun point => point.1 ≤ x) e.points with
  | 0 => 0
  | i + 1 => (e.points.get ⟨i, Nat.lt_of_succ_le (h ▸ partitionPoint_le _ _)⟩).2

end Ecdf
end CycleCount
