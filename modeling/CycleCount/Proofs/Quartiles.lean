import CycleCount.Analysis.Series
import CycleCount.Proofs.Binary64

/-! Quartiles exist. The rank of a quartile is computed in floating point, but
rounding never carries it past the last sample, so that every list of samples
that is not empty has its quartiles, its window and its summary. -/

namespace CycleCount

open Binary64

def quarters : List Nat := [25, 50, 75]

theorem normal_quarter {p : Nat} (hp : p ∈ quarters) :
    ∃ m e, Normal (Scalar.ofNat p / Scalar.ofNat 100 : Float).toModel.unpack m e ∧
      -54 ≤ e ∧ e ≤ -53 ∧ (m : ℚ) * 2 ^ e = p / 100 := by
  simp only [quarters, List.mem_cons, List.not_mem_nil, or_false] at hp
  rcases hp with rfl | rfl | rfl
  · exact ⟨2 ^ 52, -54, ⟨le_refl _, by norm_num, by norm_num, rfl⟩, by norm_num⟩
  · exact ⟨2 ^ 52, -53, ⟨le_refl _, by norm_num, by norm_num, rfl⟩, by norm_num⟩
  · exact ⟨3 * 2 ^ 51, -53, ⟨by norm_num, by norm_num, by norm_num, rfl⟩, by norm_num⟩

theorem exists_quarter {p : Nat} (hp : p ∈ quarters) : ∃ k, k ≤ 3 ∧ p = 25 * k := by
  simp only [quarters, List.mem_cons, List.not_mem_nil, or_false] at hp
  rcases hp with rfl | rfl | rfl
  · exact ⟨1, by norm_num⟩
  · exact ⟨2, by norm_num⟩
  · exact ⟨3, by norm_num⟩

theorem floor_rank_lt {p n : Nat} (hp : p ∈ quarters) (hn : 0 < n) :
    Scalar.floor (rank (Scalar.ofNat p : Float) (n + 1)) < n := by
  change (_ : Float).toUInt64.toNat < n
  by_cases hsize : n < 2 ^ 64
  · obtain ⟨m₁, e₁, hquarter, hlow, hhigh, hshare⟩ := normal_quarter hp
    have hthree : (m₁ : ℚ) * 2 ^ e₁ ≤ 3 / 4 := by
      obtain ⟨k, hk, rfl⟩ := exists_quarter hp
      have hk' : (k : ℚ) ≤ 3 := by exact_mod_cast hk
      rw [hshare]
      push_cast
      linarith
    obtain ⟨m₂, e₂, hcount, hlow', hhigh', hslack⟩ := normal_ofNat hn hsize
    obtain ⟨m, e, hproduct, -, -, hvalue⟩ := normal_mul hquarter hcount (by omega) (by omega)
    have hpos : (0 : ℚ) < n := by exact_mod_cast hn
    have hbelow : (m : ℚ) * 2 ^ e < n :=
      calc (m : ℚ) * 2 ^ e ≤ m₁ * 2 ^ e₁ * (m₂ * 2 ^ e₂) * slack := hvalue
        _ ≤ 3 / 4 * (n * slack ^ 2) * slack := by
          have := slack_pos
          gcongr
        _ = n * (3 / 4 * slack ^ 3) := by ring
        _ < n * 1 := by
          gcongr
          norm_num [slack]
        _ = n := mul_one _
    exact_mod_cast (toNat_toUInt64_le hproduct).trans_lt hbelow
  · exact (UInt64.toNat_lt _).trans_le (not_lt.mp hsize)

theorem ceil_le_floor_add_one (x : Float) : Scalar.ceil x ≤ Scalar.floor x + 1 := by
  change (if _ then x.toUInt64.toNat + 1 else x.toUInt64.toNat) ≤ x.toUInt64.toNat + 1
  split_ifs
  · exact le_refl _
  · exact Nat.le_succ _

theorem positions_lt {p n : Nat} (hp : p ∈ quarters) (hn : 0 < n) :
    Scalar.floor (rank (Scalar.ofNat p : Float) n) < n ∧
      Scalar.ceil (rank (Scalar.ofNat p : Float) n) < n := by
  obtain ⟨k, rfl⟩ : ∃ k, n = k + 1 := ⟨n - 1, by omega⟩
  cases k with
  | zero =>
    simp only [quarters, List.mem_cons, List.not_mem_nil, or_false] at hp
    rcases hp with rfl | rfl | rfl <;> decide +kernel
  | succ k =>
    have hfloor := floor_rank_lt (n := k + 1) hp k.succ_pos
    have hceil := ceil_le_floor_add_one (rank (Scalar.ofNat p : Float) (k + 1 + 1))
    omega

theorem isSome_percentileOfSorted? {p : Nat} (hp : p ∈ quarters) {sorted : Series}
    (hne : sorted ≠ []) : (percentileOfSorted? sorted (Scalar.ofNat p : Float)).isSome := by
  obtain ⟨hfloor, hceil⟩ := positions_lt hp (List.length_pos_iff.mpr hne)
  simp only [percentileOfSorted?, List.getElem?_eq_getElem hfloor,
    List.getElem?_eq_getElem hceil, Option.bind_eq_bind, Option.bind_some]
  split_ifs <;> rfl

theorem perm_ascending {α : Type} [LE α] [DecidableLE α] (samples : List α) :
    (ascending samples).Perm samples :=
  List.mergeSort_perm samples _

theorem ascending_ne_nil {α : Type} [LE α] [DecidableLE α] {samples : List α}
    (hne : samples ≠ []) : ascending samples ≠ [] :=
  fun h => hne (h ▸ perm_ascending samples).symm.eq_nil

theorem Quartiles.isSome_ofSamples? {samples : Series} (hne : samples ≠ []) :
    (ofSamples? samples : Option (Quartiles Float)).isSome := by
  have hsorted := ascending_ne_nil hne
  obtain ⟨q1, hq1⟩ := Option.isSome_iff_exists.mp
    (isSome_percentileOfSorted? (p := 25) (by decide) hsorted)
  obtain ⟨median, hmedian⟩ := Option.isSome_iff_exists.mp
    (isSome_percentileOfSorted? (p := 50) (by decide) hsorted)
  obtain ⟨q3, hq3⟩ := Option.isSome_iff_exists.mp
    (isSome_percentileOfSorted? (p := 75) (by decide) hsorted)
  simp only [ofSamples?, List.head?_eq_some_head hsorted, List.getLast?_eq_some_getLast hsorted,
    hq1, hmedian, hq3, Option.bind_eq_bind, Option.bind_some, Option.isSome_some]

theorem Summary.exists_ofSamples {series : Series} (hne : series ≠ []) :
    ∃ s, Summary.ofSamples series = .ok s := by
  have hempty : series.isEmpty = false := by simpa using hne
  simp only [ofSamples, deviation?, mean?, Ecdf.ofSamples?, hempty, Bool.false_eq_true, if_false,
    Option.bind_eq_bind, Option.bind_some]
  exact ⟨_, rfl⟩

namespace SeriesAnalysis

theorem ofFiltered_nil (filtered : Series) (context : String) :
    ofFiltered [] filtered context = .error .emptySeries := by
  simp only [ofFiltered, List.isEmpty_nil, Bool.not_true, Bool.and_false, Bool.false_eq_true,
    if_false]
  rfl

theorem ofFiltered_of_nil {raw : Series} (hraw : raw ≠ []) (context : String) :
    ofFiltered raw [] context = .error (.emptyFilteredSeries context) := by
  have hkept : raw.isEmpty = false := List.isEmpty_eq_false_iff.mpr hraw
  simp only [ofFiltered, List.isEmpty_nil, hkept, Bool.not_false, Bool.and_self, if_true]

theorem exists_ofFiltered {raw filtered : Series} (hraw : raw ≠ []) (hfiltered : filtered ≠ [])
    (context : String) : ∃ analysis, ofFiltered raw filtered context = .ok analysis := by
  obtain ⟨rawSummary, hrawSummary⟩ := Summary.exists_ofSamples hraw
  obtain ⟨filteredSummary, hfilteredSummary⟩ := Summary.exists_ofSamples hfiltered
  obtain ⟨quartiles, hquartiles⟩ :=
    Option.isSome_iff_exists.mp (Quartiles.isSome_ofSamples? hfiltered)
  have hkept : filtered.isEmpty = false := List.isEmpty_eq_false_iff.mpr hfiltered
  simp only [ofFiltered, hkept, Bool.false_and, Bool.false_eq_true, if_false, hrawSummary,
    hfilteredSummary, hquartiles]
  exact ⟨_, rfl⟩

theorem ofSeries_eq_error {series : Series} (hne : series ≠ []) {context : String} {error : Error}
    (h : ofSeries series context = .error error) : error = .emptyFilteredSeries context := by
  rw [ofSeries] at h
  by_cases hfiltered : retained Float series = []
  · rw [hfiltered, ofFiltered_of_nil hne, Except.error.injEq] at h
    exact h.symm
  · obtain ⟨analysis, hanalysis⟩ := exists_ofFiltered hne hfiltered context
    rw [hanalysis] at h
    cases h

end SeriesAnalysis
end CycleCount
