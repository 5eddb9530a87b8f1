import CycleCount.Proofs.MiddleHalf
import CycleCount.Statistics.Ecdf

/-! The order of measurement does not matter. Integers have one ascending order, and
every statistic reads that order only, in whatever arithmetic. The filter runs over the
samples as they were measured; it keeps the same ones, each list in its own order. -/

namespace CycleCount

section Filter

variable {α K : Type} [Scalar K] [Sample α K]

theorem Window.length_outliers (w : Window K) (samples : List α) :
    (w.outliers samples).length = samples.countP fun x => !w.contains x := by
  have houtlier : ∀ entry : α × Nat,
      (if w.contains entry.1 then none else some entry.2).isSome = !w.contains entry.1 := by
    intro entry
    cases w.contains entry.1 <;> rfl
  have hcount := List.countP_map (p := fun x => !w.contains x) (f := Prod.fst) (l := samples.zipIdx)
  rw [List.zipIdx_map_fst] at hcount
  rw [hcount, Window.outliers, List.length_filterMap_eq_countP]
  exact List.countP_congr fun entry _ => by rw [houtlier]; rfl

theorem Window.length_outliers_eq_of_perm (w : Window K) {xs ys : List α} (h : xs.Perm ys) :
    (w.outliers xs).length = (w.outliers ys).length := by
  rw [w.length_outliers, w.length_outliers, h.countP_eq]

variable [LE α] [DecidableLE α]

theorem retained_sublist (samples : List α) : (retained K samples).Sublist samples := by
  rw [retained]
  split
  · exact List.filter_sublist
  · exact List.nil_sublist samples

end Filter

section Statistics

variable {α : Type} [LE α] [DecidableLE α] [IntegerSample α] {xs ys : List α}

theorem ascending_eq_of_perm (h : xs.Perm ys) : ascending xs = ascending ys := by
  have hperm : (ascending xs).Perm (ascending ys) :=
    (perm_ascending xs).trans (h.trans (perm_ascending ys).symm)
  have hantisymm : ∀ a b : α, (Sample.value a : ℚ) ≤ Sample.value b →
      (Sample.value b : ℚ) ≤ Sample.value a → a = b :=
    fun a b hab hba => value_injective (le_antisymm hab hba)
  exact hperm.eq_of_pairwise (fun a b _ _ => hantisymm a b) (climbs_ascending xs)
    (climbs_ascending ys)

variable {K : Type} [Scalar K] [Sample α K]

theorem percentile?_eq_of_perm (h : xs.Perm ys) (p : K) : percentile? xs p = percentile? ys p := by
  rw [percentile?, percentile?, ascending_eq_of_perm h, h.isEmpty_eq]

theorem Quartiles.ofSamples?_eq_of_perm (h : xs.Perm ys) :
    (ofSamples? xs : Option (Quartiles K)) = ofSamples? ys := by
  rw [ofSamples?, ofSamples?, ascending_eq_of_perm h]

theorem Window.ofSamples?_eq_of_perm (h : xs.Perm ys) :
    (ofSamples? xs : Option (Window K)) = ofSamples? ys := by
  rw [ofSamples?, ofSamples?, ascending_eq_of_perm h]

theorem retained_perm (h : xs.Perm ys) : (retained K xs).Perm (retained K ys) := by
  rw [retained, retained, Window.ofSamples?_eq_of_perm h]
  cases (Window.ofSamples? ys : Option (Window K)) with
  | none => exact .nil
  | some w => exact h.filter w.contains

theorem Ecdf.ofSamples?_eq_of_perm [BEq α] [Sample α Float] (h : xs.Perm ys) :
    ofSamples? xs = ofSamples? ys := by
  rw [ofSamples?, ofSamples?, ascending_eq_of_perm h, h.isEmpty_eq, h.length_eq]

/-- Integers that were measured in another order have the same statistics, whatever the
numbers they are computed in and however these round. What the filter keeps of them is
the same up to order, and as much falls outside the window. -/
theorem statistics_eq_of_perm {α : Type} [LE α] [DecidableLE α] [IntegerSample α] {xs ys : List α}
    (h : xs.Perm ys) :
    (∀ (K : Type) [Scalar K] [Sample α K],
      (∀ p : K, percentile? xs p = percentile? ys p) ∧
      (Quartiles.ofSamples? xs : Option (Quartiles K)) = Quartiles.ofSamples? ys ∧
      (Window.ofSamples? xs : Option (Window K)) = Window.ofSamples? ys ∧
      (retained K xs).Perm (retained K ys) ∧
      (retained K xs).Sublist xs ∧ (retained K ys).Sublist ys ∧
      ∀ w : Window K, (w.outliers xs).length = (w.outliers ys).length) ∧
    ∀ [BEq α] [Sample α Float], Ecdf.ofSamples? xs = Ecdf.ofSamples? ys := by
  refine ⟨fun K _ _ => ?_, Ecdf.ofSamples?_eq_of_perm h⟩
  exact ⟨percentile?_eq_of_perm h, Quartiles.ofSamples?_eq_of_perm h,
    Window.ofSamples?_eq_of_perm h, retained_perm h, retained_sublist xs, retained_sublist ys,
    fun w => w.length_outliers_eq_of_perm h⟩

theorem statistics_eq_of_perm_signed :
    ([3, -7, 100, 3] : List Int64).Perm [100, 3, 3, -7] ∧
      (∀ p : Float, percentile? ([3, -7, 100, 3] : List Int64) p =
        percentile? ([100, 3, 3, -7] : List Int64) p) ∧
      (retained Float ([3, -7, 100, 3] : List Int64)).Perm
        (retained Float ([100, 3, 3, -7] : List Int64)) ∧
      Ecdf.ofSamples? ([3, -7, 100, 3] : List Int64) =
        Ecdf.ofSamples? ([100, 3, 3, -7] : List Int64) := by
  have hperm : ([3, -7, 100, 3] : List Int64).Perm [100, 3, 3, -7] := by decide
  obtain ⟨hstatistics, hsteps⟩ := statistics_eq_of_perm hperm
  obtain ⟨hpercentile, -, -, hkept, -⟩ := hstatistics Float
  exact ⟨hperm, hpercentile, hkept, hsteps⟩

end Statistics
end CycleCount
