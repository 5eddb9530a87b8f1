import CycleCount.Proofs.ExactArithmetic
import CycleCount.Proofs.MiddleHalf

/-! Percentiles are in range and in order. Integers are exact numbers, and so is every
finite floating point sample. Of such samples each percentile from 0 to 100 reads two
order statistics that are there, and it moves with its rank from the least sample to
the greatest. -/

namespace CycleCount

namespace Binary64

open Float.Model Float.Model.UnpackedFloat

def number : UnpackedFloat → ℚ
  | .finite s m e _ => s.apply m * 2 ^ e
  | _ => 0

theorem compare_eq_number {x y : Float} (hx : x.isFinite = true) (hy : y.isFinite = true) :
    x.toModel.unpack.compare y.toModel.unpack =
      some (compare (number x.toModel.unpack) (number y.toModel.unpack)) := by
  change x.toModel.unpack.isFinite = true at hx
  change y.toModel.unpack.isFinite = true at hy
  cases hu : x.toModel.unpack with
  | notANumber => simp [hu, UnpackedFloat.isFinite] at hx
  | infinity s => simp [hu, UnpackedFloat.isFinite] at hx
  | zero s =>
    cases hv : y.toModel.unpack with
    | notANumber => simp [hv, UnpackedFloat.isFinite] at hy
    | infinity t => simp [hv, UnpackedFloat.isFinite] at hy
    | zero t => exact congrArg some (compare_eq_iff_eq.mpr rfl).symm
    | finite t n f hpos' => exact compare_zero_finite s t f hpos'
  | finite s m e hpos =>
    cases hv : y.toModel.unpack with
    | notANumber => simp [hv, UnpackedFloat.isFinite] at hy
    | infinity t => simp [hv, UnpackedFloat.isFinite] at hy
    | zero t => exact compare_finite_zero s t e hpos
    | finite t n f hpos' =>
      obtain ⟨⟨he, -⟩, hm, hfull⟩ := shape_of_unpack hu
      obtain ⟨⟨hf, -⟩, hn, hfull'⟩ := shape_of_unpack hv
      exact compare_finite_finite s t hpos hpos'
        (compare_then hm hn (fun hlt => hfull (by omega)) fun hlt => hfull' (by omega))

theorem le_iff_number {x y : Float} (hx : x.isFinite = true) (hy : y.isFinite = true) :
    x ≤ y ↔ number x.toModel.unpack ≤ number y.toModel.unpack := by
  change decide ((x.toModel.unpack.compare y.toModel.unpack).any (·.isLE) = true) = true ↔ _
  rw [compare_eq_number hx hy, decide_eq_true_iff, Option.any_some, Ordering.isLE_iff_ne_gt]
  exact compare_le_iff_le

end Binary64

instance : Sample Float ℚ := ⟨fun x => Binary64.number x.toModel.unpack⟩

class ExactSample (α : Type) [LE α] [Sample α ℚ] where
  IsNumber : α → Prop
  value_le_iff {a b : α} (ha : IsNumber a) (hb : IsNumber b) :
    (Sample.value a : ℚ) ≤ Sample.value b ↔ a ≤ b

instance {α : Type} [LE α] [IntegerSample α] : ExactSample α :=
  ⟨fun _ => True, fun _ _ => value_le_value⟩

instance : ExactSample Float :=
  ⟨fun x => x.isFinite = true, fun ha hb => (Binary64.le_iff_number ha hb).symm⟩

section Percentiles

variable {α : Type} [Sample α ℚ]

theorem isPercentile_of_rank {sorted : List α} {p : ℚ} {i : Nat} {x : α}
    (hrank : rank p sorted.length = i) (hx : sorted[i]? = some x) :
    IsPercentile sorted p (Sample.value x) := by
  refine ⟨x, x, ?_, ?_, (add_self_div_two _).symm⟩
  · rw [hrank, Nat.floor_natCast, hx]
  · rw [hrank, Nat.ceil_natCast, hx]

theorem isPercentile_zero {sorted : List α} {x : α} (hx : sorted.head? = some x) :
    IsPercentile sorted 0 (Sample.value x) := by
  refine isPercentile_of_rank (i := 0) ?_ (List.head?_eq_getElem? ▸ hx)
  rw [rank_eq, zero_div, zero_mul, Nat.cast_zero]

theorem isPercentile_hundred {sorted : List α} {x : α} (hx : sorted.getLast? = some x) :
    IsPercentile sorted 100 (Sample.value x) := by
  refine isPercentile_of_rank (i := sorted.length - 1) ?_ (List.getLast?_eq_getElem? ▸ hx)
  rw [rank_eq, div_self (by norm_num), one_mul]

variable [LE α] [DecidableLE α] {samples : List α}

theorem percentile?_eq_some_iff (hne : samples ≠ []) {p q : ℚ} (hlow : 0 ≤ p) (hhigh : p ≤ 100) :
    percentile? samples p = some q ↔ IsPercentile (ascending samples) p q := by
  have hrange : (samples.isEmpty ||
      !(Scalar.le (Scalar.ofNat 0) p && Scalar.le p (Scalar.ofNat 100))) = false := by
    have hempty : samples.isEmpty = false := List.isEmpty_eq_false_iff.mpr hne
    have hlow' : Scalar.le (Scalar.ofNat 0) p = true := decide_eq_true (by exact_mod_cast hlow)
    have hhigh' : Scalar.le p (Scalar.ofNat 100) = true := decide_eq_true (by exact_mod_cast hhigh)
    rw [hempty, hlow', hhigh']
    rfl
  rw [percentile?, hrange, if_neg Bool.false_ne_true, percentileOfSorted?_eq_some_iff]

theorem Quartiles.exists_ofSamples? (hne : samples ≠ []) :
    ∃ s : Quartiles ℚ, ofSamples? samples = some s ∧ s.count = samples.length ∧
      IsPercentile (ascending samples) 0 s.min ∧ IsPercentile (ascending samples) 25 s.q1 ∧
      IsPercentile (ascending samples) 50 s.median ∧ IsPercentile (ascending samples) 75 s.q3 ∧
      IsPercentile (ascending samples) 100 s.max := by
  have hsorted := ascending_ne_nil hne
  have hfirst := List.head?_eq_some_head hsorted
  have hlast := List.getLast?_eq_some_getLast hsorted
  obtain ⟨q1, hq1⟩ := exists_isPercentile hsorted (p := 25) (by norm_num)
  obtain ⟨median, hmedian⟩ := exists_isPercentile hsorted (p := 50) (by norm_num)
  obtain ⟨q3, hq3⟩ := exists_isPercentile hsorted (p := 75) (by norm_num)
  have hread1 : percentileOfSorted? (ascending samples) (Scalar.ofNat 25 : ℚ) = some q1 :=
    percentileOfSorted?_eq_some_iff.mpr hq1
  have hread2 : percentileOfSorted? (ascending samples) (Scalar.ofNat 50 : ℚ) = some median :=
    percentileOfSorted?_eq_some_iff.mpr hmedian
  have hread3 : percentileOfSorted? (ascending samples) (Scalar.ofNat 75 : ℚ) = some q3 :=
    percentileOfSorted?_eq_some_iff.mpr hq3
  refine ⟨⟨(ascending samples).length, Sample.value ((ascending samples).head hsorted), q1, median,
    q3, Sample.value ((ascending samples).getLast hsorted)⟩, ?_, (perm_ascending samples).length_eq,
    isPercentile_zero hfirst, hq1, hmedian, hq3, isPercentile_hundred hlast⟩
  simp only [ofSamples?, hfirst, hlast, hread1, hread2, hread3, Option.bind_eq_bind,
    Option.bind_some]

end Percentiles

section Range

variable {α : Type} [LE α] [DecidableLE α] [Sample α ℚ] [ExactSample α] {samples : List α}

theorem climbs_of_isNumber (hnumbers : ∀ x ∈ samples, ExactSample.IsNumber x) :
    Climbs (ascending samples) :=
  climbs_of_le_iff fun a ha b hb => ExactSample.value_le_iff (hnumbers a ha) (hnumbers b hb)

theorem le_of_ascending (hnumbers : ∀ x ∈ samples, ExactSample.IsNumber x) {i j : Nat}
    (hij : i ≤ j) {x y : α} (hx : (ascending samples)[i]? = some x)
    (hy : (ascending samples)[j]? = some y) : x ≤ y := by
  have hnumber {k : Nat} {z : α} (hz : (ascending samples)[k]? = some z) :
      ExactSample.IsNumber z :=
    hnumbers z ((perm_ascending samples).mem_iff.mp (List.mem_of_getElem? hz))
  have hvalues := (climbs_of_isNumber hnumbers).value_le hij hx hy
  exact (ExactSample.value_le_iff (hnumber hx) (hnumber hy)).mp hvalues

theorem exists_least (hne : samples ≠ []) (hnumbers : ∀ x ∈ samples, ExactSample.IsNumber x) :
    ∃ x ∈ samples, (∀ y ∈ samples, x ≤ y) ∧ percentile? samples (0 : ℚ) = some (Sample.value x) := by
  have hperm := perm_ascending samples
  have hfirst := List.head?_eq_some_head (ascending_ne_nil hne)
  refine ⟨_, hperm.mem_iff.mp (List.mem_of_head? hfirst), fun y hy => ?_,
    (percentile?_eq_some_iff hne (le_refl 0) (by norm_num)).mpr (isPercentile_zero hfirst)⟩
  obtain ⟨i, hi⟩ := List.mem_iff_getElem?.mp (hperm.mem_iff.mpr hy)
  rw [List.head?_eq_getElem?] at hfirst
  exact le_of_ascending hnumbers (Nat.zero_le i) hfirst hi

theorem exists_greatest (hne : samples ≠ []) (hnumbers : ∀ x ∈ samples, ExactSample.IsNumber x) :
    ∃ x ∈ samples, (∀ y ∈ samples, y ≤ x) ∧
      percentile? samples (100 : ℚ) = some (Sample.value x) := by
  have hperm := perm_ascending samples
  have hlast := List.getLast?_eq_some_getLast (ascending_ne_nil hne)
  refine ⟨_, hperm.mem_iff.mp (List.mem_of_getLast? hlast), fun y hy => ?_,
    (percentile?_eq_some_iff hne (by norm_num) (le_refl 100)).mpr (isPercentile_hundred hlast)⟩
  obtain ⟨i, hi⟩ := List.mem_iff_getElem?.mp (hperm.mem_iff.mpr hy)
  obtain ⟨hlt, -⟩ := List.getElem?_eq_some_iff.mp hi
  rw [List.getLast?_eq_getElem?] at hlast
  exact le_of_ascending hnumbers (Nat.le_sub_one_of_lt hlt) hi hlast

/-- Of exact samples, at least one, every percentile reads two order statistics that
are there. Percentiles do not descend; they begin with the least sample and end with
the greatest, and the five numbers of a summary are in order between these. -/
theorem percentiles_in_order {α : Type} [LE α] [DecidableLE α] [Sample α ℚ] [ExactSample α]
    {samples : List α} (hne : samples ≠ [])
    (hnumbers : ∀ x ∈ samples, ExactSample.IsNumber x) :
    (∀ p : ℚ, 0 ≤ p → p ≤ 100 →
      Scalar.floor (rank p (ascending samples).length) < (ascending samples).length ∧
      Scalar.ceil (rank p (ascending samples).length) < (ascending samples).length) ∧
    (∀ p q : ℚ, 0 ≤ p → p ≤ q → q ≤ 100 →
      ∃ u v, percentile? samples p = some u ∧ percentile? samples q = some v ∧ u ≤ v) ∧
    (∃ x ∈ samples, (∀ y ∈ samples, x ≤ y) ∧
      percentile? samples (0 : ℚ) = some (Sample.value x)) ∧
    (∃ x ∈ samples, (∀ y ∈ samples, y ≤ x) ∧
      percentile? samples (100 : ℚ) = some (Sample.value x)) ∧
    ∃ s : Quartiles ℚ, Quartiles.ofSamples? samples = some s ∧ s.count = samples.length ∧
      percentile? samples 0 = some s.min ∧ percentile? samples 25 = some s.q1 ∧
      percentile? samples 50 = some s.median ∧ percentile? samples 75 = some s.q3 ∧
      percentile? samples 100 = some s.max ∧
      s.min ≤ s.q1 ∧ s.q1 ≤ s.median ∧ s.median ≤ s.q3 ∧ s.q3 ≤ s.max ∧ 0 ≤ s.spread := by
  have hsorted := ascending_ne_nil hne
  have hclimbs := climbs_of_isNumber hnumbers
  refine ⟨fun p _ hhigh => ?_, fun p q hlow hpq hhigh => ?_, exists_least hne hnumbers,
    exists_greatest hne hnumbers, ?_⟩
  · have hceil := ceil_rank_lt hhigh (List.length_pos_iff.mpr hsorted)
    exact ⟨(Nat.floor_le_ceil _).trans_lt hceil, hceil⟩
  · obtain ⟨u, hu⟩ := exists_isPercentile hsorted (hpq.trans hhigh)
    obtain ⟨v, hv⟩ := exists_isPercentile hsorted hhigh
    exact ⟨u, v, (percentile?_eq_some_iff hne hlow (hpq.trans hhigh)).mpr hu,
      (percentile?_eq_some_iff hne (hlow.trans hpq) hhigh).mpr hv, hu.le_of_le hclimbs hv hpq⟩
  · obtain ⟨s, hs, hcount, hmin, hq1, hmedian, hq3, hmax⟩ := Quartiles.exists_ofSamples? hne
    have hlower := hq1.le_of_le hclimbs hmedian (by norm_num)
    have hupper := hmedian.le_of_le hclimbs hq3 (by norm_num)
    have hread {p q : ℚ} (h : IsPercentile (ascending samples) p q) (hlow : 0 ≤ p)
        (hhigh : p ≤ 100) : percentile? samples p = some q :=
      (percentile?_eq_some_iff hne hlow hhigh).mpr h
    exact ⟨s, hs, hcount, hread hmin (by norm_num) (by norm_num),
      hread hq1 (by norm_num) (by norm_num), hread hmedian (by norm_num) (by norm_num),
      hread hq3 (by norm_num) (by norm_num), hread hmax (by norm_num) (by norm_num),
      hmin.le_of_le hclimbs hq1 (by norm_num), hlower, hupper,
      hq3.le_of_le hclimbs hmax (by norm_num), sub_nonneg.mpr (hlower.trans hupper)⟩

theorem percentiles_in_order_finite :
    (∀ x ∈ ([0.5, -0.0, -3.25] : List Float), ExactSample.IsNumber x) ∧
      (∃ s : Quartiles ℚ, Quartiles.ofSamples? ([0.5, -0.0, -3.25] : List Float) = some s ∧
        s.min ≤ s.q1 ∧ s.q3 ≤ s.max ∧ 0 ≤ s.spread) ∧
      ∃ u v : ℚ, percentile? ([7, 2, 9, 2] : List UInt64) 30 = some u ∧
        percentile? ([7, 2, 9, 2] : List UInt64) 40 = some v ∧ u ≤ v := by
  have hfinite : ∀ x ∈ ([0.5, -0.0, -3.25] : List Float), x.isFinite = true := by decide +kernel
  obtain ⟨-, -, -, -, s, hs, -, -, -, -, -, -, hmin, -, -, hmax, hspread⟩ :=
    percentiles_in_order (List.cons_ne_nil _ _) hfinite
  obtain ⟨-, hmono, -⟩ :=
    percentiles_in_order (List.cons_ne_nil (7 : UInt64) [2, 9, 2]) fun _ _ => trivial
  exact ⟨hfinite, ⟨s, hs, hmin, hmax, hspread⟩, hmono 30 40 (by norm_num) (by norm_num) (by norm_num)⟩

end Range
end CycleCount
