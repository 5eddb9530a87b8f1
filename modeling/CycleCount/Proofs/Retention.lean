import CycleCount.Proofs.MiddleHalf
import CycleCount.Proofs.Rounding

/-! Windows computed in floating point. For integers below `2 ^ 49` in fewer than
`2 ^ 50` samples no step of a window is rounded, so that what the exact window
keeps is what stays, and an analysis fails for want of samples only. -/

namespace CycleCount

open Binary64

class NearestSample (α : Type) [LE α] [IntegerSample α] [Sample α Float] : Prop where
  nearest_value (x : α) : Nearest (Sample.value x) (IntegerSample.toInt x)

instance : NearestSample UInt64 := ⟨fun x => nearest_ofInt rfl x.toNat_lt⟩

instance : NearestSample UInt32 := ⟨fun x => nearest_ofInt rfl (x.toNat_lt.trans (by norm_num))⟩

instance : NearestSample Int64 where
  nearest_value x := by
    have hlt : x.toInt.natAbs < 2 ^ 64 := by
      have := x.toInt_lt
      have := x.le_toInt
      omega
    obtain ⟨y, hexact, hrounded⟩ := rounded_ofInt (model_toFloat hlt) hlt
    rw [Nat.cast_natAbs] at hrounded
    change Nearest (if x.toInt < 0 then -x.toInt.natAbs.toUInt64.toFloat
      else x.toInt.natAbs.toUInt64.toFloat) x.toInt
    split_ifs with hsign
    · rw [abs_of_neg hsign, Int.cast_neg] at hrounded
      exact ⟨-y, hexact.neg, .inr (by rwa [neg_neg])⟩
    · rw [abs_of_nonneg (not_lt.mp hsign)] at hrounded
      exact ⟨y, hexact, .inl hrounded⟩

class FaithfulSample (α : Type) [LE α] [IntegerSample α] [Sample α Float] : Prop where
  exact_value {x : α} (h : |IntegerSample.toInt x| < 2 ^ 51) :
    Exact (Sample.value x) (IntegerSample.toInt x)

instance {α : Type} [LE α] [IntegerSample α] [Sample α Float] [NearestSample α] :
    FaithfulSample α where
  exact_value {x} h := (NearestSample.nearest_value x).exact (h.trans (by norm_num))

namespace Binary64.Exact

variable {x : Float} {q : ℚ}

theorem floor_eq (hx : Exact x q) (hq : 0 ≤ q) (hlt : q < 2 ^ 51) :
    Scalar.floor x = Scalar.floor q :=
  hx.toNat_toUInt64 hq (hlt.trans (by norm_num))

theorem ceil_eq (hx : Exact x q) (hq : 0 ≤ q) (hlt : q < 2 ^ 51) :
    Scalar.ceil x = Scalar.ceil q := by
  have hfloor := hx.toNat_toUInt64 hq (hlt.trans (by norm_num))
  have hwhole := exact_toFloat (n := x.toUInt64) (by
    rw [hfloor, Nat.floor_lt hq]
    exact_mod_cast hlt)
  rw [hfloor] at hwhole
  change (if x.toUInt64.toFloat < x then x.toUInt64.toNat + 1 else x.toUInt64.toNat) = ⌈q⌉₊
  rw [hfloor]
  split_ifs with hfraction
  · -- A fraction is left, so the next integer is the first above.
    rw [hwhole.lt_iff hx] at hfraction
    refine ((Nat.ceil_eq_iff (Nat.succ_ne_zero _)).mpr ⟨?_, ?_⟩).symm
    · exact hfraction
    · exact_mod_cast (Nat.lt_floor_add_one q).le
  · rw [hwhole.lt_iff hx, not_lt] at hfraction
    have hequal : q = ⌊q⌋₊ := le_antisymm hfraction (Nat.floor_le hq)
    rw [hequal, Nat.ceil_natCast, Nat.floor_natCast]

end Binary64.Exact

theorem exact_rank {p n : Nat} (hp : p ∈ quarters) (hn : n < 2 ^ 50) :
    Exact (rank (Scalar.ofNat p : Float) n) (rank (Scalar.ofNat p : ℚ) n) := by
  obtain ⟨m, e, hquarter, -, -, hshare⟩ := normal_quarter hp
  have hcount : Exact (Scalar.ofNat (n - 1) : Float) (n - 1 : Nat) := exact_ofNat (by omega)
  have hshare' : Exact (Scalar.ofNat p / Scalar.ofNat 100 : Float) (p / 100) := by
    rw [← hshare]
    exact hquarter.denotes
  refine hshare'.mul hcount ?_
  obtain ⟨k, hk, rfl⟩ := exists_quarter hp
  refine ⟨(k * (n - 1) : Nat), ?_, ?_⟩
  · have hproduct : k * (n - 1) ≤ 3 * (n - 1) := Nat.mul_le_mul_right _ hk
    rw [Nat.abs_cast]
    exact_mod_cast (by omega : k * (n - 1) < 2 ^ 53)
  · rw [Int.cast_natCast, ← rank_quarter, rank_eq, Nat.cast_mul, Nat.cast_ofNat]
    rfl

theorem rank_bounds {p n : Nat} (hp : p ∈ quarters) (hn : n < 2 ^ 50) :
    0 ≤ rank (Scalar.ofNat p : ℚ) n ∧ rank (Scalar.ofNat p : ℚ) n < 2 ^ 51 := by
  obtain ⟨k, hk, rfl⟩ := exists_quarter hp
  have hp' : ((25 * k : Nat) : ℚ) ≤ 100 := by exact_mod_cast (by omega : 25 * k ≤ 100)
  refine ⟨?_, (rank_le hp' n).trans_lt ?_⟩
  · change 0 ≤ ((25 * k : Nat) : ℚ) / 100 * (n - 1 : Nat)
    positivity
  · exact_mod_cast (by omega : n - 1 < 2 ^ 51)

def IsHalf (q : ℚ) : Prop := ∃ k : Int, |k| < 2 ^ 50 ∧ q = k / 2

theorem IsHalf.fits {q : ℚ} (h : IsHalf q) : Fits q := by
  obtain ⟨k, hk, rfl⟩ := h
  rw [abs_lt] at hk
  refine ⟨2 * k, ?_, by push_cast; ring⟩
  rw [abs_lt]
  omega

theorem retained_nil {α K : Type} [LE α] [DecidableLE α] [Scalar K] [Sample α K] :
    retained K ([] : List α) = [] := by
  rw [retained]
  split <;> rfl

section Samples

variable {α : Type} [LE α] [IntegerSample α]

/-- Samples whose windows are computed without rounding. -/
def Small (samples : List α) : Prop :=
  (∀ x ∈ samples, |IntegerSample.toInt x| < 2 ^ 49) ∧ samples.length < 2 ^ 50

instance (samples : List α) : Decidable (Small samples) := inferInstanceAs (Decidable (_ ∧ _))

theorem Small.ascending [DecidableLE α] {samples : List α} (h : Small samples) :
    Small (ascending samples) := by
  have hperm := perm_ascending samples
  exact ⟨fun x hx => h.1 x (hperm.mem_iff.mp hx), hperm.length_eq ▸ h.2⟩

variable [Sample α Float] [FaithfulSample α]

theorem exact_value_of_lt {x : α} (h : |IntegerSample.toInt x| < 2 ^ 49) :
    Exact (Sample.value x) (Sample.value x) :=
  FaithfulSample.exact_value (h.trans (by norm_num))

theorem exact_percentile {sorted : List α} (hsmall : Small sorted) {p : Nat} (hp : p ∈ quarters)
    {q : ℚ} (h : IsPercentile sorted (Scalar.ofNat p) q) :
    ∃ x, percentileOfSorted? sorted (Scalar.ofNat p : Float) = some x ∧ Exact x q ∧ IsHalf q := by
  obtain ⟨a, b, ha, hb, rfl⟩ := h
  have hrank := exact_rank hp hsmall.2
  obtain ⟨hnonneg, hlt⟩ := rank_bounds hp hsmall.2
  have hbelow {i : Nat} {y : α} (hy : sorted[i]? = some y) : |IntegerSample.toInt y| < 2 ^ 49 :=
    hsmall.1 y (List.mem_of_getElem? hy)
  have hlower : sorted[Scalar.floor (rank (Scalar.ofNat p : Float) sorted.length)]? = some a := by
    rw [hrank.floor_eq hnonneg hlt]
    exact ha
  have hupper : sorted[Scalar.ceil (rank (Scalar.ofNat p : Float) sorted.length)]? = some b := by
    rw [hrank.ceil_eq hnonneg hlt]
    exact hb
  have hsum : |IntegerSample.toInt a + IntegerSample.toInt b| < 2 ^ 50 :=
    (abs_add_le _ _).trans_lt (by linarith [hbelow ha, hbelow hb])
  have hvalue : (Sample.value a + Sample.value b : ℚ) =
      (IntegerSample.toInt a + IntegerSample.toInt b : Int) := (Int.cast_add _ _).symm
  have hhalf : IsHalf ((Sample.value a + Sample.value b) / 2) := ⟨_, hsum, by rw [hvalue]⟩
  simp only [percentileOfSorted?, hlower, hupper, Option.bind_eq_bind, Option.bind_some]
  split_ifs with hwhole
  · obtain rfl : a = b := by
      rw [hwhole, hupper] at hlower
      exact (Option.some_inj.mp hlower).symm
    refine ⟨_, rfl, ?_, hhalf⟩
    rw [add_self_div_two]
    exact exact_value_of_lt (hbelow ha)
  · refine ⟨_, rfl, ?_, hhalf⟩
    have hexact := (exact_value_of_lt (hbelow ha)).add (exact_value_of_lt (hbelow hb))
    rw [hvalue] at hexact hhalf ⊢
    exact (hexact (fits_intCast (hsum.trans (by norm_num)))).half rfl hhalf.fits

structure Window.IsExact (v : Window Float) (w : Window ℚ) : Prop where
  q1 : Exact v.q1 w.q1
  median : Exact v.median w.median
  q3 : Exact v.q3 w.q3
  spread : Exact v.spread w.spread
  lower : Exact v.lower w.lower
  upper : Exact v.upper w.upper

theorem exact_threeHalves : Exact (Scalar.ofNat 3 / Scalar.ofNat 2 : Float) (3 / 2) := by
  have hnormal : Normal (Scalar.ofNat 3 / Scalar.ofNat 2 : Float).toModel.unpack (3 * 2 ^ 51) (-52) :=
    ⟨by norm_num, by norm_num, by norm_num, rfl⟩
  have hvalue : ((3 * 2 ^ 51 : Nat) : ℚ) * 2 ^ (-52 : Int) = 3 / 2 := by norm_num
  rw [← hvalue]
  exact hnormal.denotes

theorem Window.isExact_ofQuartiles {x1 x2 x3 : Float} {q1 median q3 : ℚ} (h1 : Exact x1 q1)
    (h2 : Exact x2 median) (h3 : Exact x3 q3) (hq1 : IsHalf q1) (hmedian : IsHalf median)
    (hq3 : IsHalf q3) : (ofQuartiles x1 x2 x3).IsExact (ofQuartiles q1 median q3) := by
  obtain ⟨k1, hk1, rfl⟩ := hq1
  obtain ⟨k2, hk2, rfl⟩ := hmedian
  obtain ⟨k3, hk3, rfl⟩ := hq3
  rw [abs_lt] at hk1 hk2 hk3
  have hspread : Exact (x3 - x1) ((k3 : ℚ) / 2 - k1 / 2) := by
    refine h3.sub h1 ⟨2 * (k3 - k1), ?_, by push_cast; ring⟩
    rw [abs_lt]
    omega
  have hreach : Exact (Scalar.ofNat 3 / Scalar.ofNat 2 * (x3 - x1))
      (3 / 2 * ((k3 : ℚ) / 2 - k1 / 2)) := by
    refine exact_threeHalves.mul hspread ⟨3 * (k3 - k1), ?_, by push_cast; ring⟩
    rw [abs_lt]
    omega
  refine ⟨h1, h2, h3, hspread, ?_, ?_⟩
  · refine h2.sub hreach ⟨2 * k2 - 3 * (k3 - k1), ?_, ?_⟩
    · rw [abs_lt]
      omega
    · change (k2 : ℚ) / 2 - 3 / 2 * ((k3 : ℚ) / 2 - k1 / 2) = _
      push_cast
      ring
  · refine h2.add hreach ⟨2 * k2 + 3 * (k3 - k1), ?_, ?_⟩
    · rw [abs_lt]
      omega
    · change (k2 : ℚ) / 2 + 3 / 2 * ((k3 : ℚ) / 2 - k1 / 2) = _
      push_cast
      ring

theorem Window.IsExact.contains_eq {v : Window Float} {w : Window ℚ} (h : v.IsExact w) {x : α}
    (hx : |IntegerSample.toInt x| < 2 ^ 49) : v.contains x = w.contains x := by
  have hvalue := exact_value_of_lt hx
  have hlower := h.lower.le_iff hvalue
  have hupper := hvalue.le_iff h.upper
  change (decide _ && decide _) = (decide _ && decide _)
  simp only [hlower, hupper]

variable [DecidableLE α]

theorem exists_exact_window {samples : List α} (hsmall : Small samples) {w : Window ℚ}
    (h : Window.ofSamples? samples = some w) :
    ∃ v : Window Float, Window.ofSamples? samples = some v ∧ v.IsExact w := by
  obtain ⟨q1, median, q3, hq1, hmedian, hq3, rfl⟩ := Window.ofSamples?_eq_some_iff.mp h
  obtain ⟨x1, hx1, hexact1, hhalf1⟩ := exact_percentile hsmall.ascending (p := 25) (by decide) hq1
  obtain ⟨x2, hx2, hexact2, hhalf2⟩ :=
    exact_percentile hsmall.ascending (p := 50) (by decide) hmedian
  obtain ⟨x3, hx3, hexact3, hhalf3⟩ := exact_percentile hsmall.ascending (p := 75) (by decide) hq3
  refine ⟨Window.ofQuartiles x1 x2 x3, ?_,
    Window.isExact_ofQuartiles hexact1 hexact2 hexact3 hhalf1 hhalf2 hhalf3⟩
  simp only [Window.ofSamples?, hx1, hx2, hx3, Option.bind_eq_bind, Option.bind_some]

theorem retained_float_eq {samples : List α} (hsmall : Small samples) :
    retained Float samples = retained ℚ samples := by
  by_cases hne : samples = []
  · rw [hne, retained_nil, retained_nil]
  · obtain ⟨w, hw⟩ := Window.exists_ofSamples? hne
    obtain ⟨v, hv, hexact⟩ := exists_exact_window hsmall hw
    rw [retained_eq hw, retained, hv]
    exact List.filter_congr fun x hx => hexact.contains_eq (hsmall.1 x hx)

end Samples

namespace SeriesAnalysis

theorem ofFiltered_outcome (raw filtered : Series) (context : String) :
    (ofFiltered raw filtered context = .error (.emptyFilteredSeries context) ↔
      raw ≠ [] ∧ filtered = []) ∧
    (ofFiltered raw filtered context = .error .emptySeries ↔ raw = []) ∧
    ((∃ analysis, ofFiltered raw filtered context = .ok analysis) ↔ raw ≠ [] ∧ filtered ≠ []) := by
  by_cases hraw : raw = []
  · rw [hraw, ofFiltered_nil]
    simp
  · by_cases hfiltered : filtered = []
    · rw [hfiltered, ofFiltered_of_nil hraw]
      simp [hraw]
    · obtain ⟨analysis, hanalysis⟩ := exists_ofFiltered hraw hfiltered context
      rw [hanalysis]
      simp [hraw, hfiltered]

/-- Over exact numbers, and as the analysis runs on small samples, the outer
quartiles and all between them stay. Only two samples that differ can lose both. -/
theorem middle_half_stays :
    (∀ (α : Type) [LE α] [DecidableLE α] [IntegerSample α] (samples : List α), samples ≠ [] →
      ∃ w : Window ℚ, Window.ofSamples? samples = some w ∧
        (w.middle samples).Sublist (retained ℚ samples) ∧
        ⌊(3 * (samples.length - 1) / 4 : ℚ)⌋ - ⌈((samples.length - 1) / 4 : ℚ)⌉ + 1 ≤
          ((retained ℚ samples).length : Int)) ∧
    (∀ (α : Type) [LE α] [DecidableLE α] [IntegerSample α] [Sample α Float] [FaithfulSample α]
      (samples : List α), Small samples → retained Float samples = retained ℚ samples) ∧
    ∀ (raw : Series) (context : String),
      (ofFiltered raw (retained ℚ raw) context = .error (.emptyFilteredSeries context) ↔
        ∃ x y, x ≠ y ∧ raw = [x, y]) ∧
      (ofFiltered raw (retained ℚ raw) context = .error .emptySeries ↔ raw = []) ∧
      ((∃ analysis, ofFiltered raw (retained ℚ raw) context = .ok analysis) ↔
        raw ≠ [] ∧ ¬∃ x y, x ≠ y ∧ raw = [x, y]) ∧
      (Small raw → ofSeries raw context = ofFiltered raw (retained ℚ raw) context) := by
  refine ⟨fun α _ _ _ samples hne => ?_, fun α _ _ _ _ _ samples => retained_float_eq,
    fun raw context => ?_⟩
  · obtain ⟨w, hw⟩ := Window.exists_ofSamples? hne
    exact ⟨w, hw, Window.middle_sublist hw, floor_sub_ceil_le hne⟩
  · obtain ⟨hnothing, hempty, hsome⟩ := ofFiltered_outcome raw (retained ℚ raw) context
    rw [retained_eq_nil_iff] at hnothing
    refine ⟨hnothing, hempty, hsome.trans ?_, fun hsmall => ?_⟩
    · rw [← retained_eq_nil_iff]
      tauto
    · rw [ofSeries, retained_float_eq hsmall]

theorem middle_half_stays_signed :
    Small ([-3, 5, 8] : List Int64) ∧
      retained Float ([-3, 5, 8] : List Int64) = retained ℚ [-3, 5, 8] ∧
      (∃ w : Window ℚ, (w.middle ([-3, 5, 8] : List Int64)).Sublist (retained ℚ [-3, 5, 8])) ∧
      Small ([4, 9] : Series) ∧
      ofSeries [4, 9] "locking" = .error (.emptyFilteredSeries "locking") := by
  obtain ⟨hmiddle, hfloat, houtcome⟩ := middle_half_stays
  have hsmall : Small ([-3, 5, 8] : List Int64) := by decide
  have hpair : Small ([4, 9] : Series) := by decide
  obtain ⟨w, -, hstays, -⟩ := hmiddle Int64 [-3, 5, 8] (List.cons_ne_nil _ _)
  obtain ⟨hnothing, -, -, hrun⟩ := houtcome [4, 9] "locking"
  refine ⟨hsmall, hfloat Int64 _ hsmall, ⟨w, hstays⟩, hpair, ?_⟩
  rw [hrun hpair]
  exact hnothing.mpr ⟨4, 9, by decide, rfl⟩

end SeriesAnalysis
end CycleCount
