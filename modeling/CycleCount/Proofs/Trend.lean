import Mathlib.Data.List.Perm.Basic
import CycleCount.Proofs.Outcome
import CycleCount.Statistics.Overhead

/-! Trends keep their pairs together: sorting moves aligned means as one, so the
pairs of a trend are those it was made of, in another order. -/

namespace CycleCount

theorem settle_perm {α : Type} (below : α → α → Bool) (x : α) (ys : List α) :
    (settle below x ys).Perm (x :: ys) := by
  induction ys with
  | nil => exact .refl _
  | cons y ys ih =>
    rw [settle]
    split_ifs
    · exact (ih.cons y).trans (.swap x y ys)
    · exact .refl _

theorem settleAll_perm {α : Type} (below : α → α → Bool) (xs : List α) :
    (settleAll below xs).Perm xs := by
  -- What was sorted before stands in for the empty list.
  have key : ∀ sorted : List α,
      (xs.foldl (fun sorted x => settle below x sorted) sorted).Perm (xs ++ sorted) := by
    induction xs with
    | nil => exact fun _ => .refl _
    | cons x xs ih =>
      intro sorted
      rw [List.foldl_cons, List.cons_append]
      exact (ih _).trans (((settle_perm below x sorted).append_left xs).trans List.perm_middle)
  exact (List.reverse_perm _).trans (by simpa using key [])

namespace Trend

theorem exists_ofMeans {baseline treatment : List Float}
    (h : baseline.length = treatment.length) : ∃ trend, ofMeans baseline treatment = .ok trend := by
  simp [ofMeans, mergeAndSort, h]

theorem pairs_perm_of_ofMeans {baseline treatment : List Float} {t : Trend}
    (h : ofMeans baseline treatment = .ok t) :
    t.pairs.Perm (baseline.zip treatment) ∧ t.baseline.length = t.treatment.length := by
  obtain ⟨pairs, hpairs, h⟩ := bind_eq_ok_iff.mp h
  cases h
  refine ⟨?_, by simp⟩
  unfold mergeAndSort at hpairs
  split_ifs at hpairs with hlen
  cases hpairs
  rw [Trend.pairs, ← List.zip_of_prod rfl rfl]
  exact settleAll_perm _ _

end Trend
end CycleCount
