import CycleCount.Proofs.Quartiles
import Mathlib.Algebra.Order.Floor.Semifield
import Mathlib.Data.Rat.Floor
import Mathlib.Tactic.FieldSimp
import Mathlib.Tactic.Linarith
import Mathlib.Tactic.Ring

/-! Quartiles and retention windows over exact numbers. A percentile lies midway
between two order statistics. What lies between the outer quartiles is never cut
off, so that a window leaves nothing only of two samples that differ. -/

namespace CycleCount

instance : Scalar ℚ where
  ofNat n := n
  le x y := decide (x ≤ y)
  floor x := ⌊x⌋₊
  ceil x := ⌈x⌉₊

class IntegerSample (α : Type) [LE α] where
  toInt : α → Int
  toInt_injective : Function.Injective toInt
  toInt_le_toInt {a b : α} : toInt a ≤ toInt b ↔ a ≤ b

instance : IntegerSample Int := ⟨id, Function.injective_id, Iff.rfl⟩

instance : IntegerSample UInt64 where
  toInt n := n.toNat
  toInt_injective _ _ h := UInt64.toNat_inj.mp (Int.ofNat_inj.mp h)
  toInt_le_toInt := Int.ofNat_le.trans UInt64.le_iff_toNat_le.symm

instance : IntegerSample UInt32 where
  toInt n := n.toNat
  toInt_injective _ _ h := UInt32.toNat_inj.mp (Int.ofNat_inj.mp h)
  toInt_le_toInt := Int.ofNat_le.trans UInt32.le_iff_toNat_le.symm

instance : IntegerSample Int64 where
  toInt := Int64.toInt
  toInt_injective _ _ h := Int64.toInt_inj.mp h
  toInt_le_toInt := Int64.le_iff_toInt_le.symm

section Values

variable {α : Type} [LE α] [IntegerSample α]

instance : Sample α ℚ := ⟨fun x => IntegerSample.toInt x⟩

theorem value_le_value {a b : α} : (Sample.value a : ℚ) ≤ Sample.value b ↔ a ≤ b :=
  Int.cast_le.trans IntegerSample.toInt_le_toInt

theorem value_injective : Function.Injective (Sample.value : α → ℚ) :=
  Int.cast_injective.comp IntegerSample.toInt_injective

end Values

section Percentiles

variable {α : Type} [Sample α ℚ]

def Climbs (sorted : List α) : Prop :=
  sorted.Pairwise fun a b => (Sample.value a : ℚ) ≤ Sample.value b

theorem Climbs.value_le {sorted : List α} (h : Climbs sorted) {i j : Nat} (hij : i ≤ j) {a b : α}
    (ha : sorted[i]? = some a) (hb : sorted[j]? = some b) :
    (Sample.value a : ℚ) ≤ Sample.value b := by
  obtain ⟨hi, rfl⟩ := List.getElem?_eq_some_iff.mp ha
  obtain ⟨hj, rfl⟩ := List.getElem?_eq_some_iff.mp hb
  rcases hij.lt_or_eq with hlt | rfl
  · exact List.pairwise_iff_getElem.mp h i j hi hj hlt
  · exact le_refl _

theorem pairwise_ascending (values : List ℚ) : (ascending values).Pairwise (· ≤ ·) := by
  have hsorted : (ascending values).Pairwise fun a b => decide (a ≤ b) = true :=
    List.pairwise_mergeSort (fun a b c => by simpa using le_trans)
      (fun a b => by simpa using le_total a b) values
  exact hsorted.imp of_decide_eq_true

section Order

variable [LE α] [DecidableLE α] {samples : List α}

theorem map_value_ascending
    (h : ∀ a ∈ samples, ∀ b ∈ samples, ((Sample.value a : ℚ) ≤ Sample.value b ↔ a ≤ b)) :
    (ascending samples).map Sample.value = ascending (samples.map (Sample.value : α → ℚ)) :=
  List.map_mergeSort fun a ha b hb => decide_eq_decide.mpr (h a ha b hb).symm

theorem climbs_of_le_iff
    (h : ∀ a ∈ samples, ∀ b ∈ samples, ((Sample.value a : ℚ) ≤ Sample.value b ↔ a ≤ b)) :
    Climbs (ascending samples) := by
  rw [Climbs, ← List.pairwise_map, map_value_ascending h]
  exact pairwise_ascending _

end Order

/-- `q` lies midway between the order statistics on both sides of the rank of `p`. -/
def IsPercentile (sorted : List α) (p q : ℚ) : Prop :=
  ∃ a b, sorted[⌊rank p sorted.length⌋₊]? = some a ∧ sorted[⌈rank p sorted.length⌉₊]? = some b ∧
    q = (Sample.value a + Sample.value b) / 2

theorem percentileOfSorted?_eq_some_iff {sorted : List α} {p q : ℚ} :
    percentileOfSorted? sorted p = some q ↔ IsPercentile sorted p q := by
  simp only [percentileOfSorted?, Option.bind_eq_bind, Option.bind_eq_some_iff, IsPercentile,
    ← exists_and_left]
  refine exists_congr fun a => exists_congr fun b => and_congr_right fun ha =>
    and_congr_right fun hb => ?_
  change (if ⌊rank p sorted.length⌋₊ = ⌈rank p sorted.length⌉₊ then some (Sample.value a)
    else some ((Sample.value a + Sample.value b) / 2)) = some q ↔ _
  split_ifs with hwhole
  · -- One order statistic is both sides of its own middle.
    change sorted[⌊rank p sorted.length⌋₊]? = some a at ha
    change sorted[⌈rank p sorted.length⌉₊]? = some b at hb
    obtain rfl : a = b := by
      rw [hwhole, hb] at ha
      exact (Option.some_inj.mp ha).symm
    rw [add_self_div_two, Option.some_inj, eq_comm]
  · rw [Option.some_inj, eq_comm]

theorem rank_eq (p : ℚ) (n : Nat) : rank p n = p / 100 * (n - 1 : Nat) := rfl

theorem rank_mono {p p' : ℚ} (h : p ≤ p') (n : Nat) : rank p n ≤ rank p' n := by
  rw [rank_eq, rank_eq]
  gcongr

theorem rank_le {p : ℚ} (h : p ≤ 100) (n : Nat) : rank p n ≤ (n - 1 : Nat) := by
  refine (rank_mono h n).trans (le_of_eq ?_)
  rw [rank_eq, div_self (by norm_num), one_mul]

theorem ceil_rank_lt {p : ℚ} (h : p ≤ 100) {n : Nat} (hn : 0 < n) : ⌈rank p n⌉₊ < n := by
  have hceil : ⌈rank p n⌉₊ ≤ n - 1 := Nat.ceil_le.mpr (rank_le h n)
  omega

theorem rank_quarter (k n : Nat) : rank (25 * k : ℚ) n = (k * (n - 1) : Nat) / 4 := by
  rw [rank_eq]
  push_cast
  ring

theorem floor_rank_quarter (k n : Nat) : ⌊rank (25 * k : ℚ) n⌋₊ = k * (n - 1) / 4 := by
  rw [rank_quarter, Nat.floor_div_ofNat, Nat.floor_natCast]

theorem ceil_rank_quarter (k n : Nat) : ⌈rank (25 * k : ℚ) n⌉₊ = (k * (n - 1) + 3) / 4 := by
  rw [rank_quarter]
  refine eq_of_forall_ge_iff fun c => ?_
  rw [Nat.ceil_le, div_le_iff₀ (by norm_num), Nat.div_le_iff_le_mul_add_pred (by norm_num)]
  norm_cast
  omega

theorem exists_isPercentile {sorted : List α} (hne : sorted ≠ []) {p : ℚ} (h : p ≤ 100) :
    ∃ q, IsPercentile sorted p q := by
  have hceil := ceil_rank_lt h (List.length_pos_iff.mpr hne)
  have hfloor := (Nat.floor_le_ceil (rank p sorted.length)).trans_lt hceil
  exact ⟨_, _, _, List.getElem?_eq_getElem hfloor, List.getElem?_eq_getElem hceil, rfl⟩

namespace IsPercentile

variable {sorted : List α} {p p' q q' : ℚ}

theorem le_of_le (hsorted : Climbs sorted) (h : IsPercentile sorted p q)
    (h' : IsPercentile sorted p' q') (hp : p ≤ p') : q ≤ q' := by
  obtain ⟨a, b, ha, hb, rfl⟩ := h
  obtain ⟨a', b', ha', hb', rfl⟩ := h'
  have hrank := rank_mono hp sorted.length
  have hlower := hsorted.value_le (Nat.floor_mono hrank) ha ha'
  have hupper := hsorted.value_le (Nat.ceil_mono hrank) hb hb'
  linarith

theorem le_value (hsorted : Climbs sorted) (h : IsPercentile sorted p q) {i : Nat}
    (hi : ⌈rank p sorted.length⌉₊ ≤ i) {x : α} (hx : sorted[i]? = some x) : q ≤ Sample.value x := by
  obtain ⟨a, b, ha, hb, rfl⟩ := h
  have hlower := hsorted.value_le (Nat.floor_le_ceil _) ha hb
  have hupper := hsorted.value_le hi hb hx
  linarith

theorem value_le (hsorted : Climbs sorted) (h : IsPercentile sorted p q) {i : Nat}
    (hi : i ≤ ⌊rank p sorted.length⌋₊) {x : α} (hx : sorted[i]? = some x) : Sample.value x ≤ q := by
  obtain ⟨a, b, ha, hb, rfl⟩ := h
  have hlower := hsorted.value_le hi hx ha
  have hupper := hsorted.value_le (Nat.floor_le_ceil _) ha hb
  linarith

end IsPercentile

theorem Window.contains_iff {w : Window ℚ} {x : α} :
    w.contains x = true ↔ w.lower ≤ Sample.value x ∧ Sample.value x ≤ w.upper := by
  simp [contains, Scalar.le]

end Percentiles

section Windows

variable {α : Type} [LE α] [IntegerSample α]

def Window.middle (w : Window ℚ) (samples : List α) : List α :=
  samples.filter fun x => decide (w.q1 ≤ Sample.value x ∧ Sample.value x ≤ w.q3)

theorem Window.middle_eq_self {w : Window ℚ} {samples : List α}
    (h : ∀ x ∈ samples, w.q1 ≤ Sample.value x ∧ Sample.value x ≤ w.q3) : w.middle samples = samples :=
  List.filter_eq_self.mpr fun x hx => decide_eq_true (h x hx)

variable [DecidableLE α]

theorem climbs_ascending (samples : List α) : Climbs (ascending samples) :=
  climbs_of_le_iff fun _ _ _ _ => value_le_value

theorem Window.ofSamples?_eq_some_iff {samples : List α} {w : Window ℚ} :
    ofSamples? samples = some w ↔ ∃ q1 median q3, IsPercentile (ascending samples) 25 q1 ∧
      IsPercentile (ascending samples) 50 median ∧ IsPercentile (ascending samples) 75 q3 ∧
      w = ofQuartiles q1 median q3 := by
  simp only [ofSamples?, Option.bind_eq_bind, Option.bind_eq_some_iff,
    percentileOfSorted?_eq_some_iff, Option.some_inj, ← exists_and_left, eq_comm (b := w)]
  rfl

theorem Window.exists_ofSamples? {samples : List α} (hne : samples ≠ []) :
    ∃ w : Window ℚ, ofSamples? samples = some w := by
  have hsorted := ascending_ne_nil hne
  obtain ⟨q1, hq1⟩ := exists_isPercentile hsorted (p := 25) (by norm_num)
  obtain ⟨median, hmedian⟩ := exists_isPercentile hsorted (p := 50) (by norm_num)
  obtain ⟨q3, hq3⟩ := exists_isPercentile hsorted (p := 75) (by norm_num)
  exact ⟨_, ofSamples?_eq_some_iff.mpr ⟨q1, median, q3, hq1, hmedian, hq3, rfl⟩⟩

theorem retained_eq {samples : List α} {w : Window ℚ} (h : Window.ofSamples? samples = some w) :
    retained ℚ samples = samples.filter w.contains := by
  rw [retained, h]
  rfl

theorem Window.middle_sublist {samples : List α} {w : Window ℚ} (h : ofSamples? samples = some w) :
    (w.middle samples).Sublist (retained ℚ samples) := by
  rw [retained_eq h, middle]
  refine List.monotone_filter_right samples fun x hx => contains_iff.mpr ?_
  obtain ⟨hlow, hhigh⟩ := of_decide_eq_true hx
  obtain ⟨q1, median, q3, hq1, hmedian, hq3, rfl⟩ := ofSamples?_eq_some_iff.mp h
  have hclimbs := climbs_ascending samples
  have hlower := hq1.le_of_le hclimbs hmedian (by norm_num)
  have hupper := hmedian.le_of_le hclimbs hq3 (by norm_num)
  change median - 3 / 2 * (q3 - q1) ≤ _ ∧ _ ≤ median + 3 / 2 * (q3 - q1)
  change q1 ≤ _ at hlow
  change _ ≤ q3 at hhigh
  constructor <;> linarith

theorem Window.length_middle {samples : List α} {w : Window ℚ} (h : ofSamples? samples = some w) :
    ⌊rank (75 : ℚ) samples.length⌋₊ + 1 - ⌈rank (25 : ℚ) samples.length⌉₊ ≤
      (w.middle samples).length := by
  obtain ⟨q1, median, q3, hq1, -, hq3, rfl⟩ := ofSamples?_eq_some_iff.mp h
  have hclimbs := climbs_ascending samples
  have hperm := perm_ascending samples
  rw [← hperm.length_eq]
  generalize hlow : ⌈rank (25 : ℚ) (ascending samples).length⌉₊ = low
  generalize hhigh : ⌊rank (75 : ℚ) (ascending samples).length⌋₊ = high
  have hlast : high < (ascending samples).length := by
    obtain ⟨a, -, ha, -⟩ := hq3
    rw [hhigh] at ha
    exact (List.getElem?_eq_some_iff.mp ha).1
  have hall : ∀ x ∈ ((ascending samples).drop low).take (high + 1 - low),
      q1 ≤ Sample.value x ∧ Sample.value x ≤ q3 := by
    intro x hx
    obtain ⟨i, hi, rfl⟩ := List.mem_iff_getElem.mp hx
    rw [List.length_take, List.length_drop] at hi
    have hx := List.getElem?_eq_getElem (l := ascending samples) (i := low + i) (by omega)
    rw [List.getElem_take, List.getElem_drop]
    exact ⟨hq1.le_value hclimbs (by omega) hx, hq3.value_le hclimbs (by omega) hx⟩
  have hlength : (((ascending samples).drop low).take (high + 1 - low)).length =
      high + 1 - low := by
    rw [List.length_take, List.length_drop]
    omega
  have hslice : (((ascending samples).drop low).take (high + 1 - low)).Sublist (ascending samples) :=
    (List.take_sublist _ _).trans (List.drop_sublist _ _)
  calc high + 1 - low
      = ((ofQuartiles q1 median q3).middle
          (((ascending samples).drop low).take (high + 1 - low))).length := by
        rw [middle_eq_self hall, hlength]
    _ ≤ ((ofQuartiles q1 median q3).middle (ascending samples)).length :=
        (hslice.filter _).length_le
    _ = ((ofQuartiles q1 median q3).middle samples).length := (hperm.filter _).length_eq

theorem length_retained {samples : List α} (hne : samples ≠ []) :
    ⌊rank (75 : ℚ) samples.length⌋₊ + 1 - ⌈rank (25 : ℚ) samples.length⌉₊ ≤
      (retained ℚ samples).length := by
  obtain ⟨w, hw⟩ := Window.exists_ofSamples? hne
  exact (Window.length_middle hw).trans (Window.middle_sublist hw).length_le

theorem floor_sub_ceil_le {samples : List α} (hne : samples ≠ []) :
    ⌊(3 * (samples.length - 1) / 4 : ℚ)⌋ - ⌈((samples.length - 1) / 4 : ℚ)⌉ + 1 ≤
      ((retained ℚ samples).length : Int) := by
  have hlength := length_retained hne
  have hlast : ((samples.length - 1 : Nat) : ℚ) = samples.length - 1 := by
    rw [Nat.cast_sub (List.length_pos_iff.mpr hne), Nat.cast_one]
  have hlow : ((samples.length - 1) / 4 : ℚ) = rank 25 samples.length := by
    rw [rank_eq, hlast]
    ring
  have hhigh : (3 * (samples.length - 1) / 4 : ℚ) = rank 75 samples.length := by
    rw [rank_eq, hlast]
    ring
  have hnonneg {p : ℚ} (hp : 0 ≤ p) : 0 ≤ rank p samples.length := by
    rw [rank_eq]
    positivity
  rw [hlow, hhigh, ← Int.natCast_floor_eq_floor (hnonneg (by norm_num)),
    ← Int.natCast_ceil_eq_ceil (hnonneg (by norm_num))]
  omega

theorem IsPercentile.eq_of_pair {x y : α} {p q : ℚ} (hpos : 0 < p) (hlt : p < 100)
    (h : IsPercentile (ascending [x, y]) p q) : q = (Sample.value x + Sample.value y) / 2 := by
  have hlength : (ascending [x, y]).length = 2 := (perm_ascending [x, y]).length_eq
  have hrank : rank p 2 = p / 100 := by
    rw [rank_eq]
    norm_num
  have hfloor : ⌊rank p 2⌋₊ = 0 := by
    rw [hrank, Nat.floor_eq_zero]
    linarith
  have hceil : ⌈rank p 2⌉₊ = 1 := by
    rw [hrank, Nat.ceil_eq_iff (by norm_num)]
    constructor <;> norm_num <;> linarith
  obtain ⟨c, d, hsorted⟩ := List.length_eq_two.mp hlength
  obtain ⟨a, b, ha, hb, rfl⟩ := h
  rw [hlength, hfloor, hsorted] at ha
  rw [hlength, hceil, hsorted] at hb
  obtain rfl : c = a := Option.some_inj.mp ha
  obtain rfl : d = b := Option.some_inj.mp hb
  have hperm := perm_ascending [x, y]
  rw [hsorted] at hperm
  have hsum := (hperm.map (Sample.value : α → ℚ)).sum_eq
  simp only [List.map_cons, List.map_nil, List.sum_cons, List.sum_nil, add_zero] at hsum
  rw [hsum]

theorem Window.contains_of_pair {x y z : α} {w : Window ℚ} (h : ofSamples? [x, y] = some w) :
    w.contains z = true ↔ (Sample.value z : ℚ) = (Sample.value x + Sample.value y) / 2 := by
  obtain ⟨q1, median, q3, hq1, hmedian, hq3, rfl⟩ := ofSamples?_eq_some_iff.mp h
  rw [contains_iff, hq1.eq_of_pair (by norm_num) (by norm_num),
    hmedian.eq_of_pair (by norm_num) (by norm_num), hq3.eq_of_pair (by norm_num) (by norm_num)]
  generalize ((Sample.value x + Sample.value y) / 2 : ℚ) = mean
  change mean - 3 / 2 * (mean - mean) ≤ _ ∧ _ ≤ mean + 3 / 2 * (mean - mean) ↔ _
  rw [sub_self, mul_zero, sub_zero, add_zero, ← le_antisymm_iff, eq_comm]

theorem retained_eq_nil_iff {samples : List α} :
    samples ≠ [] ∧ retained ℚ samples = [] ↔ ∃ x y, x ≠ y ∧ samples = [x, y] := by
  constructor
  · rintro ⟨hne, hnil⟩
    have hlength := length_retained hne
    have hlow := ceil_rank_quarter 1 samples.length
    have hhigh := floor_rank_quarter 3 samples.length
    have hpos := List.length_pos_iff.mpr hne
    norm_num at hlow hhigh
    rw [hnil, List.length_nil, hlow, hhigh] at hlength
    obtain ⟨x, y, rfl⟩ := List.length_eq_two.mp (by omega : samples.length = 2)
    obtain ⟨w, hw⟩ := Window.exists_ofSamples? hne
    refine ⟨x, y, ?_, rfl⟩
    rintro rfl
    have hkept : w.contains x = true := (Window.contains_of_pair hw).mpr (add_self_div_two _).symm
    rw [retained_eq hw] at hnil
    simp [hkept] at hnil
  · rintro ⟨x, y, hdiffer, rfl⟩
    have hne : [x, y] ≠ [] := List.cons_ne_nil _ _
    obtain ⟨w, hw⟩ := Window.exists_ofSamples? hne
    have hvalues : (Sample.value x : ℚ) ≠ Sample.value y := fun h => hdiffer (value_injective h)
    rw [retained_eq hw, List.filter_eq_nil_iff]
    refine ⟨hne, fun z hz hkept => ?_⟩
    rw [Window.contains_of_pair hw] at hkept
    rcases List.mem_pair.mp hz with rfl | rfl
    · exact hvalues (by linarith)
    · exact hvalues (by linarith)

end Windows
end CycleCount
