import CycleCount.Proofs.Outcome
import CycleCount.Proofs.Retention

/-! Windows in another unit. Scaling and shifting all samples moves the quartiles and
the window along, so that the same samples stay. A negative factor turns the ascending
order around: what was read at a rank is then read at the mirrored rank, and upper and
lower bounds change places. -/

namespace CycleCount

open IntegerSample (toInt)

section Mirror

theorem floor_natCast_sub {r : ℚ} {n : Nat} (hr : 0 ≤ r) (hn : r ≤ n) :
    ⌊(n - r : ℚ)⌋₊ = n - ⌈r⌉₊ := by
  have hceil : ⌈r⌉₊ ≤ n := Nat.ceil_le.mpr hn
  rw [Nat.floor_eq_iff (sub_nonneg.mpr hn), Nat.cast_sub hceil]
  have hlower := Nat.le_ceil r
  have hupper := Nat.ceil_lt_add_one hr
  constructor <;> linarith

theorem ceil_natCast_sub {r : ℚ} {n : Nat} (hr : 0 ≤ r) (hn : r ≤ n) :
    ⌈(n - r : ℚ)⌉₊ = n - ⌊r⌋₊ := by
  have hceil : ⌈(n - r : ℚ)⌉₊ ≤ n := Nat.ceil_le.mpr (sub_le_self _ hr)
  have hmirror := floor_natCast_sub (sub_nonneg.mpr hn) (sub_le_self (n : ℚ) hr)
  rw [sub_sub_cancel] at hmirror
  omega

theorem rank_mirror {p r : ℚ} (hsum : p + r = 100) (n : Nat) :
    rank r n = (n - 1 : Nat) - rank p n := by
  rw [rank_eq, rank_eq, show r = 100 - p by linarith]
  ring

variable {α β : Type} [Sample α ℚ] [Sample β ℚ]

/-- Read from the other end, the order statistics on both sides of a rank change places. -/
theorem IsPercentile.reverse {sorted : List α} {p r q : ℚ} (hsum : p + r = 100) (hlow : 0 ≤ p)
    (hlow' : 0 ≤ r) (h : IsPercentile sorted p q) : IsPercentile sorted.reverse r q := by
  obtain ⟨a, b, ha, hb, rfl⟩ := h
  have hnonneg : 0 ≤ rank p sorted.length := by
    rw [rank_eq]
    positivity
  have hlast : rank p sorted.length ≤ (sorted.length - 1 : Nat) := rank_le (by linarith) _
  have hfloor : ⌊rank r sorted.length⌋₊ = sorted.length - 1 - ⌈rank p sorted.length⌉₊ := by
    rw [rank_mirror hsum, floor_natCast_sub hnonneg hlast]
  have hceil : ⌈rank r sorted.length⌉₊ = sorted.length - 1 - ⌊rank p sorted.length⌋₊ := by
    rw [rank_mirror hsum, ceil_natCast_sub hnonneg hlast]
  have hinner : ⌊rank p sorted.length⌋₊ ≤ ⌈rank p sorted.length⌉₊ := Nat.floor_le_ceil _
  obtain ⟨hlt, -⟩ := List.getElem?_eq_some_iff.mp hb
  refine ⟨b, a, ?_, ?_, by rw [add_comm]⟩
  · rw [List.length_reverse, hfloor, List.getElem?_reverse (by omega), Nat.sub_sub_self (by omega)]
    exact hb
  · rw [List.length_reverse, hceil, List.getElem?_reverse (by omega), Nat.sub_sub_self (by omega)]
    exact ha

theorem IsPercentile.affine {xs : List α} {ys : List β} {a b p q : ℚ}
    (hvalues : ys.map (Sample.value : β → ℚ) = xs.map fun x => a * Sample.value x + b)
    (h : IsPercentile xs p q) : IsPercentile ys p (a * q + b) := by
  obtain ⟨u, v, hu, hv, rfl⟩ := h
  have hlength : ys.length = xs.length := by simpa using congrArg List.length hvalues
  have hread {i : Nat} {x : α} (hx : xs[i]? = some x) :
      ∃ y, ys[i]? = some y ∧ (Sample.value y : ℚ) = a * Sample.value x + b := by
    have hentry := congrArg (·[i]?) hvalues
    simp only [List.getElem?_map, hx, Option.map_some] at hentry
    exact Option.map_eq_some_iff.mp hentry
  obtain ⟨u', hu', hvalue⟩ := hread hu
  obtain ⟨v', hv', hvalue'⟩ := hread hv
  rw [← hlength] at hu' hv'
  refine ⟨u', v', hu', hv', ?_⟩
  rw [hvalue, hvalue']
  ring

theorem ascending_map_of_pos {a : ℚ} (ha : 0 < a) (b : ℚ) (values : List ℚ) :
    ascending (values.map fun u => a * u + b) = (ascending values).map fun u => a * u + b := by
  refine (List.map_mergeSort fun u _ v _ => decide_eq_decide.mpr ?_).symm
  rw [add_le_add_iff_right, mul_le_mul_iff_right₀ ha]

theorem ascending_map_of_neg {a : ℚ} (ha : a < 0) (b : ℚ) (values : List ℚ) :
    ascending (values.map fun u => a * u + b) =
      (ascending values).reverse.map fun u => a * u + b := by
  have hperm : (ascending (values.map fun u => a * u + b)).Perm
      ((ascending values).reverse.map fun u => a * u + b) :=
    (perm_ascending _).trans
      (((List.reverse_perm _).trans (perm_ascending values)).symm.map _)
  have hturned : ((ascending values).reverse.map fun u => a * u + b).Pairwise (· ≤ ·) := by
    rw [List.pairwise_map, List.pairwise_reverse]
    refine (pairwise_ascending values).imp fun hle => ?_
    rwa [add_le_add_iff_right, mul_le_mul_left_of_neg ha]
  exact hperm.eq_of_pairwise (fun _ _ _ _ => le_antisymm) (pairwise_ascending _) hturned

end Mirror

namespace Window

/-- The window of samples that are scaled by `a` and shifted by `b`. A negative factor
turns it around. -/
def rescale (a b : ℚ) (w : Window ℚ) : Window ℚ :=
  if 0 < a then
    { q1 := a * w.q1 + b, median := a * w.median + b, q3 := a * w.q3 + b,
      spread := a * w.spread, lower := a * w.lower + b, upper := a * w.upper + b }
  else
    { q1 := a * w.q3 + b, median := a * w.median + b, q3 := a * w.q1 + b,
      spread := -a * w.spread, lower := a * w.upper + b, upper := a * w.lower + b }

theorem rescale_of_pos {a : ℚ} (ha : 0 < a) (b q1 median q3 : ℚ) :
    (ofQuartiles q1 median q3).rescale a b =
      ofQuartiles (a * q1 + b) (a * median + b) (a * q3 + b) := by
  rw [rescale, if_pos ha]
  simp only [ofQuartiles, mk.injEq, true_and]
  refine ⟨?_, ?_, ?_⟩ <;> ring

theorem rescale_of_neg {a : ℚ} (ha : a < 0) (b q1 median q3 : ℚ) :
    (ofQuartiles q1 median q3).rescale a b =
      ofQuartiles (a * q3 + b) (a * median + b) (a * q1 + b) := by
  rw [rescale, if_neg ha.not_gt]
  simp only [ofQuartiles, mk.injEq, true_and]
  refine ⟨?_, ?_, ?_⟩ <;> ring

variable {α β : Type}

theorem contains_rescale [Sample α ℚ] [Sample β ℚ] {a b : ℚ} (ha : a ≠ 0) (w : Window ℚ) {x : α}
    {y : β} (hvalue : (Sample.value y : ℚ) = a * Sample.value x + b) :
    (w.rescale a b).contains y = w.contains x := by
  rw [Bool.eq_iff_iff, contains_iff, contains_iff, hvalue, rescale]
  split_ifs with hpos
  · simp only [add_le_add_iff_right, mul_le_mul_iff_right₀ hpos]
  · have hneg : a < 0 := lt_of_le_of_ne (not_lt.mp hpos) ha
    simp only [add_le_add_iff_right, mul_le_mul_left_of_neg hneg]
    exact and_comm

section Outliers

variable {K L : Type} [Scalar K] [Sample α K] [Scalar L] [Sample β L]

theorem outliers_eq (w : Window K) (samples : List α) :
    w.outliers samples =
      (samples.map w.contains).zipIdx.filterMap fun entry =>
        if entry.1 then none else some entry.2 := by
  rw [List.zipIdx_map, List.filterMap_map]
  rfl

theorem outliers_congr {w : Window K} {v : Window L} {xs : List α} {ys : List β}
    (h : List.Forall₂ (fun x y => v.contains y = w.contains x) xs ys) :
    v.outliers ys = w.outliers xs := by
  have hsame : ys.map v.contains = xs.map w.contains := map_eq_map_iff_forall₂.mpr h.flip
  rw [outliers_eq, outliers_eq, hsame]

end Outliers

theorem IsExact.outliers_eq [LE α] [IntegerSample α] [Sample α Float] [FaithfulSample α]
    {v : Window Float} {w : Window ℚ} (h : v.IsExact w) {samples : List α} (hsmall : Small samples) :
    v.outliers samples = w.outliers samples :=
  outliers_congr (List.forall₂_same.mpr fun x hx => h.contains_eq (hsmall.1 x hx))

end Window

section Rescaled

variable {α β : Type} [LE α] [IntegerSample α] [LE β] [IntegerSample β]

def Rescaled (a b : Int) (xs : List α) (ys : List β) : Prop :=
  List.Forall₂ (fun x y => toInt y = a * toInt x + b) xs ys

theorem rescaled_map (a b : Int) (xs : List Int) : Rescaled a b xs (xs.map fun x => a * x + b) :=
  List.forall₂_map_right_iff.mpr (List.forall₂_same.mpr fun _ _ => rfl)

namespace Rescaled

variable {a b : Int} {xs : List α} {ys : List β}

theorem eq_map {xs ys : List Int} (h : Rescaled a b xs ys) : ys = xs.map fun x => a * x + b := by
  have hvalues : ys.map id = xs.map fun x => a * x + b := map_eq_map_iff_forall₂.mpr h.flip
  rwa [List.map_id] at hvalues

theorem value_eq {x : α} {y : β} (h : toInt y = a * toInt x + b) :
    (Sample.value y : ℚ) = a * Sample.value x + b := by
  change ((toInt y : Int) : ℚ) = a * (toInt x : Int) + b
  rw [h]
  push_cast
  rfl

theorem map_value (h : Rescaled a b xs ys) :
    ys.map (Sample.value : β → ℚ) =
      (xs.map (Sample.value : α → ℚ)).map fun u => (a : ℚ) * u + b := by
  rw [List.map_map]
  exact map_eq_map_iff_forall₂.mpr (h.flip.imp fun _ _ => value_eq)

theorem contains_eq (h : Rescaled a b xs ys) (ha : a ≠ 0) (w : Window ℚ) :
    List.Forall₂ (fun x y => (w.rescale a b).contains y = w.contains x) xs ys :=
  h.imp fun _ _ hxy => w.contains_rescale (by exact_mod_cast ha) (value_eq hxy)

variable [DecidableLE α] [DecidableLE β]

theorem ascending_of_pos (h : Rescaled a b xs ys) (ha : 0 < a) :
    (ascending ys).map (Sample.value : β → ℚ) =
      (ascending xs).map fun x => (a : ℚ) * Sample.value x + b := by
  have hpos : (0 : ℚ) < a := by exact_mod_cast ha
  rw [map_value_ascending fun _ _ _ _ => value_le_value, h.map_value, ascending_map_of_pos hpos,
    ← map_value_ascending fun _ _ _ _ => value_le_value, List.map_map]
  rfl

theorem ascending_of_neg (h : Rescaled a b xs ys) (ha : a < 0) :
    (ascending ys).map (Sample.value : β → ℚ) =
      (ascending xs).reverse.map fun x => (a : ℚ) * Sample.value x + b := by
  have hneg : (a : ℚ) < 0 := by exact_mod_cast ha
  rw [map_value_ascending fun _ _ _ _ => value_le_value, h.map_value, ascending_map_of_neg hneg,
    ← map_value_ascending fun _ _ _ _ => value_le_value, ← List.map_reverse, List.map_map]
  rfl

theorem isPercentile_of_neg (h : Rescaled a b xs ys) (ha : a < 0) {p r q : ℚ}
    (hsum : p + r = 100) (hlow : 0 ≤ p) (hlow' : 0 ≤ r)
    (hq : IsPercentile (ascending xs) p q) : IsPercentile (ascending ys) r (a * q + b) :=
  (hq.reverse hsum hlow hlow').affine (h.ascending_of_neg ha)

theorem window_eq (h : Rescaled a b xs ys) (ha : a ≠ 0) {w : Window ℚ}
    (hw : Window.ofSamples? xs = some w) : Window.ofSamples? ys = some (w.rescale a b) := by
  obtain ⟨q1, median, q3, hq1, hmedian, hq3, rfl⟩ := Window.ofSamples?_eq_some_iff.mp hw
  refine Window.ofSamples?_eq_some_iff.mpr ?_
  rcases ha.lt_or_gt with hneg | hpos
  · have hneg' : (a : ℚ) < 0 := by exact_mod_cast hneg
    have hlower := h.isPercentile_of_neg hneg (r := 25) (by norm_num) (by norm_num) (by norm_num) hq3
    have hmiddle :=
      h.isPercentile_of_neg hneg (r := 50) (by norm_num) (by norm_num) (by norm_num) hmedian
    have hupper := h.isPercentile_of_neg hneg (r := 75) (by norm_num) (by norm_num) (by norm_num) hq1
    exact ⟨_, _, _, hlower, hmiddle, hupper, Window.rescale_of_neg hneg' b q1 median q3⟩
  · have hpos' : (0 : ℚ) < a := by exact_mod_cast hpos
    have hsorted := h.ascending_of_pos hpos
    exact ⟨_, _, _, hq1.affine hsorted, hmedian.affine hsorted, hq3.affine hsorted,
      Window.rescale_of_pos hpos' b q1 median q3⟩

theorem retained_eq (h : Rescaled a b xs ys) (ha : a ≠ 0) (hne : xs ≠ []) :
    Rescaled a b (retained ℚ xs) (retained ℚ ys) := by
  obtain ⟨w, hw⟩ := Window.exists_ofSamples? hne
  have hfactor : (a : ℚ) ≠ 0 := by exact_mod_cast ha
  rw [CycleCount.retained_eq hw, CycleCount.retained_eq (h.window_eq ha hw)]
  refine List.rel_filter (fun x y hxy => ?_) h
  exact (Bool.eq_iff_iff.mp (w.contains_rescale hfactor (value_eq hxy))).symm

variable [Sample α Float] [FaithfulSample α] [Sample β Float] [FaithfulSample β]

theorem exists_exact_windows (h : Rescaled a b xs ys) (ha : a ≠ 0) (hxs : Small xs)
    (hys : Small ys) {w : Window ℚ} (hw : Window.ofSamples? xs = some w) :
    ∃ v v' : Window Float, Window.ofSamples? xs = some v ∧ Window.ofSamples? ys = some v' ∧
      v.IsExact w ∧ v'.IsExact (w.rescale a b) ∧ v'.outliers ys = v.outliers xs := by
  obtain ⟨v, hv, hexact⟩ := exists_exact_window hxs hw
  obtain ⟨v', hv', hexact'⟩ := exists_exact_window hys (h.window_eq ha hw)
  refine ⟨v, v', hv, hv', hexact, hexact', ?_⟩
  rw [hexact'.outliers_eq hys, hexact.outliers_eq hxs]
  exact Window.outliers_congr (h.contains_eq ha w)

end Rescaled
end Rescaled

/-- Over exact numbers the filter keeps the same samples in every unit and from every
zero, and the same positions fall outside; the window moves along, and a negative factor
turns it around. For small samples of any two integer types the same holds as it runs. -/
theorem retained_rescaled {a : Int} (ha : a ≠ 0) (b : Int) :
    (∀ xs : List Int, xs ≠ [] →
      ∃ w : Window ℚ, Window.ofSamples? xs = some w ∧
        Window.ofSamples? (xs.map fun x => a * x + b) = some (w.rescale a b) ∧
        retained ℚ (xs.map fun x => a * x + b) = (retained ℚ xs).map (fun x => a * x + b) ∧
        (w.rescale a b).outliers (xs.map fun x => a * x + b) = w.outliers xs) ∧
    ∀ (α β : Type) [LE α] [DecidableLE α] [IntegerSample α] [Sample α Float] [FaithfulSample α]
      [LE β] [DecidableLE β] [IntegerSample β] [Sample β Float] [FaithfulSample β]
      (xs : List α) (ys : List β), xs ≠ [] → Rescaled a b xs ys → Small xs → Small ys →
      ∃ (w : Window ℚ) (v v' : Window Float), Window.ofSamples? xs = some w ∧
        Window.ofSamples? xs = some v ∧ Window.ofSamples? ys = some v' ∧
        v.IsExact w ∧ v'.IsExact (w.rescale a b) ∧
        Rescaled a b (retained Float xs) (retained Float ys) ∧
        v'.outliers ys = v.outliers xs := by
  refine ⟨fun xs hne => ?_, fun α β _ _ _ _ _ _ _ _ _ _ xs ys hne h hxs hys => ?_⟩
  · have h := rescaled_map a b xs
    obtain ⟨w, hw⟩ := Window.exists_ofSamples? hne
    exact ⟨w, hw, h.window_eq ha hw, (h.retained_eq ha hne).eq_map,
      Window.outliers_congr (h.contains_eq ha w)⟩
  · obtain ⟨w, hw⟩ := Window.exists_ofSamples? hne
    obtain ⟨v, v', hv, hv', hexact, hexact', houtliers⟩ := h.exists_exact_windows ha hxs hys hw
    refine ⟨w, v, v', hw, hv, hv', hexact, hexact', ?_, houtliers⟩
    rw [retained_float_eq hxs, retained_float_eq hys]
    exact h.retained_eq ha hne

theorem retained_rescaled_turned :
    (∃ w : Window ℚ, Window.ofSamples? ([4, 1, 40, 2] : List Int) = some w ∧
      retained ℚ ([4, 1, 40, 2].map fun x => -3 * x + 7) =
        (retained ℚ ([4, 1, 40, 2] : List Int)).map fun x => -3 * x + 7) ∧
      Small ([4, 1, 40, 2] : List UInt64) ∧ Small ([-5, 4, -113, 1] : List Int64) ∧
      Rescaled (-3) 7 (retained Float ([4, 1, 40, 2] : List UInt64))
        (retained Float ([-5, 4, -113, 1] : List Int64)) := by
  obtain ⟨hexact, hrun⟩ := retained_rescaled (a := -3) (by decide) 7
  obtain ⟨w, hw, -, hkept, -⟩ := hexact [4, 1, 40, 2] (List.cons_ne_nil _ _)
  have hxs : Small ([4, 1, 40, 2] : List UInt64) := by decide
  have hys : Small ([-5, 4, -113, 1] : List Int64) := by decide
  have h : Rescaled (-3) 7 ([4, 1, 40, 2] : List UInt64) ([-5, 4, -113, 1] : List Int64) :=
    .cons rfl (.cons rfl (.cons rfl (.cons rfl .nil)))
  obtain ⟨-, -, -, -, -, -, -, -, hsame, -⟩ :=
    hrun UInt64 Int64 _ _ (List.cons_ne_nil _ _) h hxs hys
  exact ⟨⟨w, hw, hkept⟩, hxs, hys, hsame⟩

end CycleCount
