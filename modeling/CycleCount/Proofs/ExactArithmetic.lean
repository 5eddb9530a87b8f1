import CycleCount.Proofs.Binary64
import Mathlib.Algebra.Order.Floor.Semifield
import Mathlib.Data.Rat.Floor
import Mathlib.Order.Compare

/-! Arithmetic without rounding. Whole numbers of quarters below `2 ^ 51` are
floating point numbers, and an operation whose exact result is one of them gives
exactly that. -/

namespace CycleCount.Binary64

open Float.Model Float.Model.UnpackedFloat

inductive Denotes : UnpackedFloat → ℚ → Prop
  | zero (s : Sign) : Denotes (.zero s) 0
  | finite (s : Sign) {m : Nat} {e : Int} (hpos : 0 < m) (hlow : 2 ^ 52 ≤ m) (hhigh : m < 2 ^ 53) :
      Denotes (.finite s m e hpos) (s.apply m * 2 ^ e)

theorem Normal.denotes {x : UnpackedFloat} {m : Nat} {e : Int} (h : Normal x m e) :
    Denotes x (m * 2 ^ e) := by
  obtain ⟨hlow, hhigh, hpos, rfl⟩ := h
  exact .finite .positive hpos hlow hhigh

/-- Whole numbers of quarters that need no more than a full mantissa. -/
def Fits (q : ℚ) : Prop := ∃ k : Int, |k| < 2 ^ 53 ∧ q = k / 4

theorem Fits.neg {q : ℚ} (h : Fits q) : Fits (-q) := by
  obtain ⟨k, hk, rfl⟩ := h
  exact ⟨-k, by rwa [abs_neg], by push_cast; ring⟩

theorem cast_apply_mul (s : Sign) (m c : Nat) :
    (s.apply (m * c : Nat) : ℚ) = s.apply m * c := by
  cases s <;> simp [Sign.apply]

theorem fits_of_apply {s : Sign} {m : Nat} {e : Int} (h : Fits (s.apply m * 2 ^ e)) :
    Fits (m * 2 ^ e) := by
  cases s with
  | positive => simpa [Sign.apply] using h
  | negative => simpa [Sign.apply] using h.neg

theorem Fits.digits {m : Nat} {e : Int} (hm : 0 < m) (h : Fits (m * 2 ^ e)) :
    -54 ≤ m.log2 - 52 + e ∧ m.log2 - 52 + e ≤ -2 ∧ ∀ k, m.log2 = 52 + k → 2 ^ k ∣ m := by
  obtain ⟨z, hz, heq⟩ := h
  have hpos : (0 : ℚ) < m * 2 ^ e := by positivity
  obtain ⟨n, rfl⟩ : ∃ n : Nat, z = n := by
    refine ⟨z.toNat, (Int.toNat_of_nonneg ?_).symm⟩
    have : (0 : ℚ) < z := by linarith
    exact_mod_cast this.le
  have hn : 0 < n := by
    have : (0 : ℚ) < n := by
      push_cast at heq
      linarith
    exact_mod_cast this
  have hlog : n.log2 < 53 := (Nat.log2_lt hn.ne').mpr (by simpa using hz)
  push_cast at heq
  have hscaled : (m : ℚ) * 2 ^ (e + 2) = n := by
    rw [zpow_add₀ (by norm_num), ← mul_assoc, heq]
    norm_num
  rcases le_total 0 (e + 2) with hsign | hsign
  · obtain ⟨t, ht⟩ := Int.eq_ofNat_of_zero_le hsign
    have hshift : n = m <<< t := by
      rw [ht, zpow_natCast] at hscaled
      rw [Nat.shiftLeft_eq]
      exact_mod_cast hscaled.symm
    have hsum : n.log2 = m.log2 + t := by rw [hshift, log2_shiftLeft hm]
    refine ⟨by omega, by omega, fun k hk => ?_⟩
    obtain rfl : k = 0 := by omega
    exact one_dvd m
  · obtain ⟨t, ht⟩ := Int.eq_ofNat_of_zero_le (neg_nonneg.mpr hsign)
    have hshift : m = n <<< t := by
      have hback : (n : ℚ) * 2 ^ t = m := by
        rw [← hscaled, mul_assoc, ← zpow_natCast, ← zpow_add₀ (by norm_num),
          show e + 2 + (t : Int) = 0 by omega, zpow_zero, mul_one]
      rw [Nat.shiftLeft_eq]
      exact_mod_cast hback.symm
    have hsum : m.log2 = n.log2 + t := by rw [hshift, log2_shiftLeft hn]
    refine ⟨by omega, by omega, fun k hk => ?_⟩
    rw [hshift, Nat.shiftLeft_eq]
    exact (pow_dvd_pow 2 (by omega)).mul_left n

theorem shiftRight_of_dvd {m k : Nat} (h : 2 ^ k ∣ m) :
    ExtendedMantissa.mk m false false >>> k = ⟨m / 2 ^ k, false, false⟩ := by
  change Nat.repeat ExtendedMantissa.shiftRightOne k _ = _
  induction k with
  | zero => simp [Nat.repeat]
  | succ k ih =>
    obtain ⟨c, rfl⟩ := h
    have hdiv : 2 ^ (k + 1) * c / 2 ^ k = 2 * c := by
      rw [pow_succ, mul_assoc, Nat.mul_div_cancel_left _ (Nat.two_pow_pos k)]
    rw [Nat.repeat, ih ((pow_dvd_pow 2 k.le_succ).mul_right c), hdiv,
      Nat.mul_div_cancel_left _ (Nat.two_pow_pos _)]
    simp [ExtendedMantissa.shiftRightOne]

theorem roundWithAccuracy_of_dvd (s : Sign) {m k : Nat} {e : Int} (hlog : m.log2 = 52 + k)
    (hdvd : 2 ^ k ∣ m) (he : -1074 ≤ e + k) :
    ∃ hpos, roundWithAccuracy Format.binary64 s m e .exact =
      .finite s (m / 2 ^ k) (e + k) hpos := by
  obtain ⟨hlow, hhigh⟩ := div_two_pow_bounds hlog
  have hlog' : (m / 2 ^ k).log2 = 52 + 0 := log2_eq_of_normal hlow hhigh
  have hrounded : (ExtendedMantissa.mk (m / 2 ^ k) false false).roundedMantissa = m / 2 ^ k := rfl
  have hcarry := shiftToTargetExponent_eq (e := e + k) hlog' (by simpa using he)
  refine ⟨by omega, ?_⟩
  rw [roundWithAccuracy, shiftToTargetExponent_eq hlog he, shiftRight_of_dvd hdvd]
  simp only [hrounded, hcarry, mantissa_shiftRight, pow_zero, Nat.div_one]
  rw [dif_neg (by omega)]
  simp

theorem denotes_roundWithAccuracy (s : Sign) {m k : Nat} {e : Int} (hlog : m.log2 = 52 + k)
    (hfits : Fits (s.apply m * 2 ^ e)) :
    Denotes (roundWithAccuracy Format.binary64 s m e .exact) (s.apply m * 2 ^ e) := by
  obtain ⟨hlow, -, hdvd⟩ := (fits_of_apply hfits).digits (pos_of_log2 hlog)
  obtain ⟨hpos, hround⟩ := roundWithAccuracy_of_dvd s (e := e) hlog (hdvd k hlog) (by omega)
  have hvalue : (s.apply m * 2 ^ e : ℚ) = s.apply (m / 2 ^ k : Nat) * 2 ^ (e + k) := by
    obtain ⟨c, rfl⟩ := hdvd k hlog
    rw [Nat.mul_div_cancel_left _ (Nat.two_pow_pos k), mul_comm (2 ^ k) c, cast_apply_mul,
      zpow_add₀ (by norm_num), zpow_natCast]
    push_cast
    ring
  obtain ⟨hlow', hhigh'⟩ := div_two_pow_bounds hlog
  rw [hround, hvalue]
  exact .finite s hpos hlow' hhigh'

theorem denotes_round (s : Sign) {m : Nat} {e : Int} (hm : 0 < m)
    (hfits : Fits (s.apply m * 2 ^ e)) :
    Denotes (UnpackedFloat.round Format.binary64 s m e) (s.apply m * 2 ^ e) := by
  obtain ⟨hlow, -, -⟩ := (fits_of_apply hfits).digits hm
  have hshift : (e - Format.binary64.targetExponent (totalExponent m e)).toNat = 52 - m.log2 := by
    rw [targetExponent_binary64]
    omega
  have hvalue : (s.apply m * 2 ^ e : ℚ) =
      s.apply (m <<< (52 - m.log2) : Nat) * 2 ^ (e - (52 - m.log2 : Nat)) := by
    rw [Nat.shiftLeft_eq, cast_apply_mul, zpow_sub₀ (by norm_num), zpow_natCast]
    push_cast
    field_simp
  have hlog : (m <<< (52 - m.log2)).log2 = 52 + (m.log2 - 52) := by
    rw [log2_shiftLeft hm]
    omega
  rw [hvalue] at hfits
  rw [UnpackedFloat.round, decreaseExponent, hshift, hvalue]
  exact denotes_roundWithAccuracy s hlog hfits

theorem denotes_normalize {m e : Int} (s : Sign) (hfits : Fits (m * 2 ^ e)) :
    Denotes (UnpackedFloat.normalize Format.binary64 m e s) (m * 2 ^ e) := by
  rcases lt_trichotomy m 0 with hm | rfl | hm
  · have hvalue : (m * 2 ^ e : ℚ) = Sign.negative.apply ((-m).toNat : Nat) * 2 ^ e := by
      rw [Sign.apply, Int.toNat_of_nonneg (by omega), neg_neg]
    rw [hvalue] at hfits
    rw [UnpackedFloat.normalize, Int.compare_eq_lt.mpr hm, hvalue]
    exact denotes_round .negative (by omega) hfits
  · rw [Int.cast_zero, zero_mul]
    exact .zero s
  · have hvalue : (m * 2 ^ e : ℚ) = Sign.positive.apply (m.toNat : Nat) * 2 ^ e := by
      rw [Sign.apply, Int.toNat_of_nonneg hm.le]
    rw [hvalue] at hfits
    rw [UnpackedFloat.normalize, Int.compare_eq_gt.mpr hm, hvalue]
    exact denotes_round .positive (by omega) hfits

theorem unpack_pack_zero (s : Sign) : (Float.Model.pack (.zero s)).unpack = .zero s := by
  cases s <;> rfl

theorem Denotes.pack {x : UnpackedFloat} {q : ℚ} (h : Denotes x q) (hfits : Fits q) :
    Denotes (Float.Model.pack x).unpack q := by
  cases h with
  | zero s =>
    rw [unpack_pack_zero]
    exact .zero s
  | @finite s m e hpos hlow hhigh =>
    have hlog := log2_eq_of_normal hlow hhigh
    obtain ⟨he, he', -⟩ := (fits_of_apply hfits).digits hpos
    rw [unpack_pack_finite s hpos hlow hhigh (by omega) (by omega)]
    exact .finite s hpos hlow hhigh

theorem apply_neg : ∀ (s : Sign) (n : Int), (-s).apply n = -s.apply n
  | .negative, n => (neg_neg n).symm
  | .positive, _ => rfl

theorem apply_mul : ∀ (s t : Sign) (m n : Int), (s * t).apply (m * n) = s.apply m * t.apply n
  | .negative, .negative, m, n => (neg_mul_neg m n).symm
  | .negative, .positive, m, n => (neg_mul m n).symm
  | .positive, .negative, m, n => (mul_neg m n).symm
  | .positive, .positive, _, _ => rfl

theorem Denotes.neg {x : UnpackedFloat} {q : ℚ} (h : Denotes x q) : Denotes x.neg (-q) := by
  cases h with
  | zero s =>
    rw [neg_zero]
    exact .zero (-s)
  | @finite s m e hpos hlow hhigh =>
    have hvalue : (-(s.apply m * 2 ^ e) : ℚ) = (-s).apply m * 2 ^ e := by
      rw [apply_neg, Int.cast_neg, neg_mul]
    rw [hvalue]
    exact .finite (-s) hpos hlow hhigh

theorem apply_decreaseExponent (s : Sign) (m : Nat) {e target : Int} (h : target ≤ e) :
    (s.apply (decreaseExponent m e target).1 * 2 ^ target : ℚ) = s.apply m * 2 ^ e := by
  have he : e = target + (e - target).toNat := by omega
  simp only [decreaseExponent, Nat.shiftLeft_eq, cast_apply_mul]
  conv_rhs => rw [he, zpow_add₀ (by norm_num), zpow_natCast]
  push_cast
  ring

theorem Denotes.add {x y : UnpackedFloat} {p q : ℚ} (hx : Denotes x p) (hy : Denotes y q)
    (hfits : Fits (p + q)) : Denotes (UnpackedFloat.add Format.binary64 x y) (p + q) := by
  cases hx with
  | zero s =>
    rw [zero_add]
    cases hy with
    | zero t => cases s <;> cases t <;> exact .zero _
    | finite t hpos hlow hhigh => exact .finite t hpos hlow hhigh
  | @finite s m e hpos hlow hhigh =>
    cases hy with
    | zero t =>
      rw [add_zero]
      exact .finite s hpos hlow hhigh
    | @finite t n f hpos' hlow' hhigh' =>
      have hvalue : (s.apply m * 2 ^ e + t.apply n * 2 ^ f : ℚ) =
          (s.apply (decreaseExponent m e (min e f)).1 +
            t.apply (decreaseExponent n f (min e f)).1 : Int) * 2 ^ min e f := by
        rw [← apply_decreaseExponent s m (min_le_left e f),
          ← apply_decreaseExponent t n (min_le_right e f), Int.cast_add, add_mul]
      rw [hvalue] at hfits ⊢
      exact denotes_normalize .positive hfits

theorem sub_eq (x y : UnpackedFloat) :
    UnpackedFloat.sub Format.binary64 x y = UnpackedFloat.add Format.binary64 x y.neg := by
  cases x with
  | finite s m e hpos =>
    cases y with
    | finite t n f hpos' =>
      simp only [UnpackedFloat.sub, UnpackedFloat.add, UnpackedFloat.neg, apply_neg, Int.sub_eq_add_neg]
    | _ => rfl
  | _ => cases y <;> rfl

theorem Denotes.sub {x y : UnpackedFloat} {p q : ℚ} (hx : Denotes x p) (hy : Denotes y q)
    (hfits : Fits (p - q)) : Denotes (UnpackedFloat.sub Format.binary64 x y) (p - q) := by
  rw [sub_eq_add_neg] at hfits ⊢
  rw [sub_eq]
  exact hx.add hy.neg hfits

theorem Denotes.mul {x y : UnpackedFloat} {p q : ℚ} (hx : Denotes x p) (hy : Denotes y q)
    (hfits : Fits (p * q)) : Denotes (UnpackedFloat.mul Format.binary64 x y) (p * q) := by
  cases hx with
  | zero s =>
    rw [zero_mul]
    cases hy <;> exact .zero _
  | @finite s m e hpos hlow hhigh =>
    cases hy with
    | zero t =>
      rw [mul_zero]
      exact .zero _
    | @finite t n f hpos' hlow' hhigh' =>
      have hvalue : (s.apply m * 2 ^ e * (t.apply n * 2 ^ f) : ℚ) =
          (s * t).apply (m * n : Nat) * 2 ^ (e + f) := by
        rw [Nat.cast_mul, apply_mul, Int.cast_mul, zpow_add₀ (by norm_num)]
        ring
      obtain ⟨k, hlog⟩ : ∃ k, (m * n).log2 = 52 + k := by
        refine Nat.exists_eq_add_of_le ?_
        exact (Nat.le_log2 (Nat.mul_ne_zero hpos.ne' hpos'.ne')).mpr
          (hlow.trans (Nat.le_mul_of_pos_right m hpos'))
      rw [hvalue] at hfits ⊢
      exact denotes_roundWithAccuracy (s * t) hlog hfits

def two : UnpackedFloat := .finite .positive (2 ^ 52) (-51) (by norm_num)

theorem divCore_normal {m₁ m₂ : Nat} {e₁ e₂ : Int} (h₁ : 2 ^ 52 ≤ m₁) (h₁' : m₁ < 2 ^ 53)
    (h₂ : 2 ^ 52 ≤ m₂) (h₂' : m₂ < 2 ^ 53) (he : -1000 ≤ e₁ - e₂) :
    divCore Format.binary64 m₁ e₁ m₂ e₂ = (m₁ <<< 53 / m₂, e₁ - e₂ - 53,
      accuracyOfFraction (m₁ <<< 53 % m₂) m₂) := by
  have htarget : min (e₁ - e₂) (Format.binary64.targetExponent
      (totalExponent m₁ e₁ - totalExponent m₂ e₂)) = e₁ - e₂ - 53 := by
    simp only [Format.targetExponent, totalExponent, Format.mantissaBits, Format.minExponent,
      log2_eq_of_normal h₁ h₁', log2_eq_of_normal h₂ h₂']
    norm_num
    omega
  simp only [divCore, htarget]
  rw [show (e₁ - e₂ - (e₁ - e₂ - 53)).toNat = 53 by omega]

theorem divCore_two {m : Nat} {e : Int} (hlow : 2 ^ 52 ≤ m) (hhigh : m < 2 ^ 53) (he : -1000 ≤ e) :
    divCore Format.binary64 m e (2 ^ 52) (-51) = (2 * m, e - 2, .exact) := by
  have hshifted : m <<< 53 = 2 * m * 2 ^ 52 := by
    rw [Nat.shiftLeft_eq]
    ring
  rw [divCore_normal hlow hhigh (le_refl _) (by norm_num) (by omega), hshifted,
    Nat.mul_div_cancel _ (by norm_num), Nat.mul_mod_left, show e - -51 - 53 = e - 2 by ring]
  rfl

theorem Denotes.half {x : UnpackedFloat} {q : ℚ} (hx : Denotes x q) (hfits : Fits (q / 2)) :
    Denotes (UnpackedFloat.div Format.binary64 x two) (q / 2) := by
  cases hx with
  | zero s =>
    rw [zero_div]
    exact .zero _
  | @finite s m e hpos hlow hhigh =>
    have hvalue : (s.apply m * 2 ^ e / 2 : ℚ) = s.apply (2 * m : Nat) * 2 ^ (e - 2) := by
      rw [mul_comm 2 m, cast_apply_mul, zpow_sub₀ (by norm_num)]
      push_cast
      ring
    have hlog : (2 * m).log2 = 52 + 1 := by
      rw [Nat.log2_two_mul hpos.ne', log2_eq_of_normal hlow hhigh]
    rw [hvalue] at hfits ⊢
    have he : -1000 ≤ e := by
      have := (fits_of_apply hfits).digits (by omega)
      omega
    have hdiv : UnpackedFloat.div Format.binary64 (.finite s m e hpos) two =
        roundWithAccuracy Format.binary64 s (2 * m) (e - 2) .exact := by
      rw [two, UnpackedFloat.div, divCore_two hlow hhigh he]
      cases s <;> rfl
    rw [hdiv]
    exact denotes_roundWithAccuracy s hlog hfits

theorem scaled_lt {m n : Nat} {e f : Int} (hm : m < 2 ^ 53) (hn : 2 ^ 52 ≤ n) (h : e < f) :
    (m * 2 ^ e : ℚ) < n * 2 ^ f := by
  have hm' : (m : ℚ) < 2 ^ 53 := by exact_mod_cast hm
  have hn' : (2 ^ 52 : ℚ) ≤ n := by exact_mod_cast hn
  calc (m * 2 ^ e : ℚ) < 2 ^ 53 * 2 ^ e := by gcongr
    _ = 2 ^ 52 * 2 ^ (e + 1) := by
      rw [zpow_add₀ (by norm_num)]
      ring
    _ ≤ n * 2 ^ f := by
      gcongr
      · norm_num
      · omega

/-- Exponents are compared first, which is right where the greater one has a full mantissa. -/
theorem compare_then {m n : Nat} {e f : Int} (hm : m < 2 ^ 53) (hn : n < 2 ^ 53)
    (hleft : f < e → 2 ^ 52 ≤ m) (hright : e < f → 2 ^ 52 ≤ n) :
    (compare e f).then (compare m n) = compare (m * 2 ^ e : ℚ) (n * 2 ^ f) := by
  rcases lt_trichotomy e f with hef | rfl | hef
  · rw [compare_lt_iff_lt.mpr hef, compare_lt_iff_lt.mpr (scaled_lt hm (hright hef) hef)]
    rfl
  · rw [compare_eq_iff_eq.mpr rfl]
    rcases lt_trichotomy m n with hmn | rfl | hmn
    · rw [compare_lt_iff_lt.mpr hmn, compare_lt_iff_lt.mpr (by gcongr)]
      rfl
    · rw [compare_eq_iff_eq.mpr rfl, compare_eq_iff_eq.mpr rfl]
      rfl
    · rw [compare_gt_iff_gt.mpr hmn, compare_gt_iff_gt.mpr (by gcongr)]
      rfl
  · rw [compare_gt_iff_gt.mpr hef, compare_gt_iff_gt.mpr (scaled_lt hn (hleft hef) hef)]
    rfl

theorem swap_compare (p q : ℚ) : (compare p q).swap = compare (-p) (-q) := by
  rcases lt_trichotomy p q with h | rfl | h
  · rw [compare_lt_iff_lt.mpr h, compare_gt_iff_gt.mpr (neg_lt_neg h)]
    rfl
  · rw [compare_eq_iff_eq.mpr rfl, compare_eq_iff_eq.mpr rfl]
    rfl
  · rw [compare_gt_iff_gt.mpr h, compare_lt_iff_lt.mpr (neg_lt_neg h)]
    rfl

theorem compare_zero_finite (s t : Sign) {n : Nat} (f : Int) (hpos : 0 < n) :
    (UnpackedFloat.zero s).compare (.finite t n f hpos) =
      some (compare (0 : ℚ) (t.apply n * 2 ^ f)) := by
  have hn : (0 : ℚ) < n * 2 ^ f := by positivity
  cases t with
  | negative => exact congrArg some (compare_gt_iff_gt.mpr (by simpa [Sign.apply] using hn)).symm
  | positive => exact congrArg some (compare_lt_iff_lt.mpr (by simpa [Sign.apply] using hn)).symm

theorem compare_finite_zero (s t : Sign) {m : Nat} (e : Int) (hpos : 0 < m) :
    (UnpackedFloat.finite s m e hpos).compare (.zero t) =
      some (compare (s.apply m * 2 ^ e : ℚ) 0) := by
  have hm : (0 : ℚ) < m * 2 ^ e := by positivity
  cases s with
  | negative => exact congrArg some (compare_lt_iff_lt.mpr (by simpa [Sign.apply] using hm)).symm
  | positive => exact congrArg some (compare_gt_iff_gt.mpr (by simpa [Sign.apply] using hm)).symm

theorem compare_finite_finite (s t : Sign) {m n : Nat} {e f : Int} (hpos : 0 < m) (hpos' : 0 < n)
    (hmagnitude : (compare e f).then (compare m n) = compare (m * 2 ^ e : ℚ) (n * 2 ^ f)) :
    (UnpackedFloat.finite s m e hpos).compare (.finite t n f hpos') =
      some (compare (s.apply m * 2 ^ e : ℚ) (t.apply n * 2 ^ f)) := by
  have hm : (0 : ℚ) < m * 2 ^ e := by positivity
  have hn : (0 : ℚ) < n * 2 ^ f := by positivity
  cases s with
  | negative =>
    cases t with
    | negative =>
      have hswap := swap_compare (m * 2 ^ e) (n * 2 ^ f)
      rw [← hmagnitude] at hswap
      simp only [UnpackedFloat.compare, Sign.apply, Int.cast_neg, Int.cast_natCast, neg_mul, hswap]
    | positive =>
      have hsigns : -(m * 2 ^ e : ℚ) < n * 2 ^ f := by linarith
      exact congrArg some (compare_lt_iff_lt.mpr (by simpa [Sign.apply] using hsigns)).symm
  | positive =>
    cases t with
    | negative =>
      have hsigns : -(n * 2 ^ f : ℚ) < m * 2 ^ e := by linarith
      exact congrArg some (compare_gt_iff_gt.mpr (by simpa [Sign.apply] using hsigns)).symm
    | positive => simp only [UnpackedFloat.compare, Sign.apply, Int.cast_natCast, hmagnitude]

theorem Denotes.compare_eq {x y : UnpackedFloat} {p q : ℚ} (hx : Denotes x p) (hy : Denotes y q) :
    x.compare y = some (compare p q) := by
  cases hx with
  | zero s =>
    cases hy with
    | zero t => exact congrArg some (compare_eq_iff_eq.mpr rfl).symm
    | finite t hpos' _ _ => exact compare_zero_finite s t _ hpos'
  | finite s hpos hlow hhigh =>
    cases hy with
    | zero t => exact compare_finite_zero s t _ hpos
    | finite t hpos' hlow' hhigh' =>
      exact compare_finite_finite s t hpos hpos'
        (compare_then hhigh hhigh' (fun _ => hlow) fun _ => hlow')

def Exact (x : Float) (q : ℚ) : Prop := Denotes x.toModel.unpack q

namespace Exact

variable {x y : Float} {p q : ℚ}

theorem add (hx : Exact x p) (hy : Exact y q) (hfits : Fits (p + q)) : Exact (x + y) (p + q) :=
  (Denotes.add hx hy hfits).pack hfits

theorem sub (hx : Exact x p) (hy : Exact y q) (hfits : Fits (p - q)) : Exact (x - y) (p - q) :=
  (Denotes.sub hx hy hfits).pack hfits

theorem mul (hx : Exact x p) (hy : Exact y q) (hfits : Fits (p * q)) : Exact (x * y) (p * q) :=
  (Denotes.mul hx hy hfits).pack hfits

theorem neg (hx : Exact x q) : Exact (-x) (-q) := by
  change Denotes (Float.Model.pack x.toModel.unpack.neg).unpack (-q)
  rw [Exact] at hx
  generalize hunpack : x.toModel.unpack = u at hx
  cases hx with
  | zero s =>
    rw [UnpackedFloat.neg, unpack_pack_zero]
    exact (Denotes.zero s).neg
  | @finite s m e hpos hlow hhigh =>
    obtain ⟨⟨he, he'⟩, -⟩ := shape_of_unpack hunpack
    rw [UnpackedFloat.neg, unpack_pack_finite _ hpos hlow hhigh he he']
    exact (Denotes.finite s hpos hlow hhigh).neg

theorem half (hx : Exact x q) (hy : y.toModel.unpack = two) (hfits : Fits (q / 2)) :
    Exact (x / y) (q / 2) := by
  have hdiv : (x / y).toModel =
      Float.Model.pack (UnpackedFloat.div Format.binary64 x.toModel.unpack y.toModel.unpack) := rfl
  rw [Exact, hdiv, hy]
  exact (Denotes.half hx hfits).pack hfits

theorem le_iff (hx : Exact x p) (hy : Exact y q) : x ≤ y ↔ p ≤ q := by
  change decide ((x.toModel.unpack.compare y.toModel.unpack).any (·.isLE) = true) = true ↔ p ≤ q
  rw [Denotes.compare_eq hx hy, decide_eq_true_iff, Option.any_some, Ordering.isLE_iff_ne_gt]
  exact compare_le_iff_le

theorem lt_iff (hx : Exact x p) (hy : Exact y q) : x < y ↔ p < q := by
  change decide ((x.toModel.unpack.compare y.toModel.unpack == some .lt) = true) = true ↔ p < q
  rw [Denotes.compare_eq hx hy, decide_eq_true_iff, beq_iff_eq, Option.some_inj, compare_lt_iff_lt]

theorem toNat_toUInt64 (hx : Exact x q) (hq : 0 ≤ q) (hlt : q < 2 ^ 64) :
    x.toUInt64.toNat = ⌊q⌋₊ := by
  have hwhole : (toInt 0 (UInt64.size - 1) x.toModel.unpack).toNat = ⌊q⌋₊ := by
    rw [Exact] at hx
    generalize x.toModel.unpack = u at hx
    cases hx with
    | zero s => rw [Nat.floor_zero]; rfl
    | @finite s m e hpos hlow hhigh =>
      cases s with
      | negative =>
        have hm : (0 : ℚ) < m * 2 ^ e := by positivity
        simp only [Sign.apply, Int.cast_neg, Int.cast_natCast, neg_mul] at hq
        linarith
      | positive =>
        rw [toNat_toInt, Sign.apply, Int.cast_natCast, ← fraction_eq_zpow, Nat.floor_div_eq_div]
  have hsize : ⌊q⌋₊ < UInt64.size := (Nat.floor_lt hq).mpr (by exact_mod_cast hlt)
  change (UInt64.ofNatClamp _).toNat = _
  rw [hwhole, UInt64.ofNatClamp, dif_pos hsize]
  rfl

end Exact

theorem fits_intCast {n : Int} (h : |n| < 2 ^ 51) : Fits n := by
  refine ⟨4 * n, ?_, by push_cast; ring⟩
  rw [abs_mul]
  norm_num
  omega

theorem exact_ofInt {x : Float} {n : Int} (hx : x.toModel = Float.Model.ofInt n)
    (h : |n| < 2 ^ 51) : Exact x n := by
  have hfits := fits_intCast h
  have hvalue : (n : ℚ) = n * 2 ^ (0 : Int) := by rw [zpow_zero, mul_one]
  rw [Exact, hx]
  rw [hvalue] at hfits ⊢
  exact (denotes_normalize .positive hfits).pack hfits

theorem exact_toFloat {n : UInt64} (h : n.toNat < 2 ^ 51) : Exact n.toFloat n.toNat :=
  exact_ofInt (n := n.toNat) rfl (by rw [Nat.abs_cast]; exact_mod_cast h)

theorem exact_ofNat {n : Nat} (h : n < 2 ^ 51) : Exact (Float.ofNat n) n := by
  have hword : n.toUInt64.toNat = n := toNat_word (by omega)
  have hone : Exact (Float.ofBits 4607182418800017408) 1 := by
    have hvalue : ((2 ^ 52 : Nat) : ℚ) * 2 ^ (-52 : Int) = 1 := by norm_num
    rw [← hvalue]
    exact normal_one.denotes
  have hwhole := exact_toFloat (n := n.toUInt64) (by rwa [hword])
  have hproduct := hwhole.mul hone
  rw [hword, mul_one] at hproduct
  rw [ofNat_eq_mul (by omega)]
  exact hproduct (by exact_mod_cast fits_intCast (n := n) (by rw [Nat.abs_cast]; exact_mod_cast h))

theorem exact_zero : Exact 0 0 := by exact_mod_cast exact_ofNat (n := 0) (by norm_num)

end CycleCount.Binary64
