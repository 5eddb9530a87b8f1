import Mathlib

/-! Binary floating point seen as rational numbers. A positive normal number is a
mantissa of 53 bits times a power of two. Rounding, and with it a product or a
conversion, adds no more than one part in `2 ^ 52`; cutting off the fraction adds
nothing. -/

namespace CycleCount.Binary64

open Float.Model Float.Model.UnpackedFloat

def Normal (x : UnpackedFloat) (m : Nat) (e : Int) : Prop :=
  2 ^ 52 ≤ m ∧ m < 2 ^ 53 ∧ ∃ h, x = .finite .positive m e h

def slack : ℚ := 1 + 1 / 2 ^ 52

theorem slack_pos : 0 < slack := by
  rw [slack]
  positivity

theorem log2_eq_of_normal {m : Nat} (hlow : 2 ^ 52 ≤ m) (hhigh : m < 2 ^ 53) : m.log2 = 52 :=
  (Nat.log2_eq_iff (by omega)).mpr ⟨hlow, hhigh⟩

theorem log2_shiftLeft {n : Nat} (hpos : 0 < n) (k : Nat) : (n <<< k).log2 = n.log2 + k := by
  rw [Nat.log2_eq_iff (by simpa [Nat.shiftLeft_eq] using hpos.ne'), Nat.shiftLeft_eq,
    Nat.add_right_comm, pow_add, pow_add]
  exact ⟨Nat.mul_le_mul_right _ (Nat.log2_self_le hpos.ne'),
    Nat.mul_lt_mul_of_pos_right Nat.lt_log2_self (Nat.two_pow_pos k)⟩

theorem shiftLeft_mul_zpow (n k : Nat) : ((n <<< k : Nat) : ℚ) * 2 ^ (-k : Int) = n := by
  rw [Nat.shiftLeft_eq, zpow_neg, zpow_natCast]
  push_cast
  field_simp

theorem mantissa_shiftRight (em : ExtendedMantissa) (k : Nat) :
    (em >>> k).mantissa = em.mantissa / 2 ^ k := by
  change (Nat.repeat ExtendedMantissa.shiftRightOne k em).mantissa = _
  induction k with
  | zero => simp [Nat.repeat]
  | succ k ih =>
    rw [Nat.repeat, ExtendedMantissa.shiftRightOne, ih, Nat.div_div_eq_div_mul, ← pow_succ]

theorem roundedMantissa_bounds (em : ExtendedMantissa) :
    em.mantissa ≤ em.roundedMantissa ∧ em.roundedMantissa ≤ em.mantissa + 1 := by
  obtain ⟨m, round, sticky⟩ := em
  cases round <;> cases sticky <;>
    simp only [ExtendedMantissa.roundedMantissa, ExtendedMantissa.accuracy,
      Accuracy.roundToNearestEven] <;> omega

theorem targetExponent_binary64 (m : Nat) (e : Int) :
    Format.binary64.targetExponent (totalExponent m e) = max (m.log2 - 52 + e) (-1074) := by
  simp only [Format.targetExponent, totalExponent, Format.mantissaBits, Format.minExponent]
  norm_num
  omega

theorem shiftToTargetExponent_of_log2 (accuracy : Accuracy) {m k : Nat} {e : Int}
    (hlog : m.log2 = 52 + k) (he : -1074 ≤ e + k) :
    shiftToTargetExponent Format.binary64 m e accuracy =
      (ExtendedMantissa.ofMantissaAndAccuracy m accuracy >>> k, e + k) := by
  have hshift : (Format.binary64.targetExponent (totalExponent m e) - e).toNat = k := by
    rw [targetExponent_binary64, hlog]
    push_cast
    omega
  simp only [shiftToTargetExponent, shiftToExponent, hshift]

theorem shiftToTargetExponent_eq {m k : Nat} {e : Int} (hlog : m.log2 = 52 + k)
    (he : -1074 ≤ e + k) :
    shiftToTargetExponent Format.binary64 m e .exact =
      (ExtendedMantissa.mk m false false >>> k, e + k) :=
  shiftToTargetExponent_of_log2 .exact hlog he

theorem mantissa_ofMantissaAndAccuracy (m : Nat) (accuracy : Accuracy) :
    (ExtendedMantissa.ofMantissaAndAccuracy m accuracy).mantissa = m := by
  rcases accuracy with _ | (_ | _ | _) <;> rfl

theorem rounded_le {m r k : Nat} (e : Int) (hlow : 2 ^ 52 ≤ m / 2 ^ k) (hr : r ≤ m / 2 ^ k + 1) :
    (r : ℚ) * 2 ^ (e + k) ≤ m * 2 ^ e * slack := by
  have hunit : 2 ^ 52 * 2 ^ k ≤ m := (Nat.le_div_iff_mul_le (Nat.two_pow_pos k)).mp hlow
  have hhigh : r * 2 ^ k ≤ m + 2 ^ k :=
    calc r * 2 ^ k ≤ (m / 2 ^ k + 1) * 2 ^ k := Nat.mul_le_mul_right _ hr
      _ = m / 2 ^ k * 2 ^ k + 2 ^ k := Nat.succ_mul ..
      _ ≤ m + 2 ^ k := Nat.add_le_add_right (Nat.div_mul_le_self m _) _
  have hunit' : (2 : ℚ) ^ 52 * 2 ^ k ≤ m := by exact_mod_cast hunit
  have hhigh' : (r : ℚ) * 2 ^ k ≤ m + 2 ^ k := by exact_mod_cast hhigh
  calc (r : ℚ) * 2 ^ (e + k) = r * 2 ^ k * 2 ^ e := by
        rw [zpow_add₀ (by norm_num), zpow_natCast]
        ring
    _ ≤ m * slack * 2 ^ e := by
        refine mul_le_mul_of_nonneg_right ?_ (by positivity)
        rw [slack]
        linarith
    _ = m * 2 ^ e * slack := by ring

theorem pos_of_log2 {m k : Nat} (hlog : m.log2 = 52 + k) : 0 < m := by
  apply Nat.pos_of_ne_zero
  rintro rfl
  rw [Nat.log2_zero] at hlog
  omega

theorem div_two_pow_bounds {m k : Nat} (hlog : m.log2 = 52 + k) :
    2 ^ 52 ≤ m / 2 ^ k ∧ m / 2 ^ k < 2 ^ 53 := by
  constructor
  · rw [Nat.le_div_iff_mul_le (Nat.two_pow_pos k), ← pow_add, ← hlog]
    exact Nat.log2_self_le (pos_of_log2 hlog).ne'
  · rw [Nat.div_lt_iff_lt_mul (Nat.two_pow_pos k), ← pow_add, show 53 + k = m.log2 + 1 by omega]
    exact Nat.lt_log2_self

theorem normal_roundWithAccuracy (accuracy : Accuracy) {m k : Nat} {e : Int}
    (hlog : m.log2 = 52 + k) (he : -1074 ≤ e + k) :
    ∃ m' e', Normal (roundWithAccuracy Format.binary64 .positive m e accuracy) m' e' ∧
      e + k ≤ e' ∧ e' ≤ e + k + 1 ∧ (m' : ℚ) * 2 ^ e' =
        (ExtendedMantissa.ofMantissaAndAccuracy m accuracy >>> k).roundedMantissa * 2 ^ (e + k) := by
  obtain ⟨hlow, hhigh⟩ := div_two_pow_bounds hlog
  have hbounds :=
    roundedMantissa_bounds (ExtendedMantissa.ofMantissaAndAccuracy m accuracy >>> k)
  simp only [mantissa_shiftRight, mantissa_ofMantissaAndAccuracy] at hbounds
  rw [roundWithAccuracy, shiftToTargetExponent_of_log2 accuracy hlog he]
  simp only
  generalize (ExtendedMantissa.ofMantissaAndAccuracy m accuracy >>> k).roundedMantissa = r
    at hbounds ⊢
  by_cases hr : r < 2 ^ 53
  · have hlog' : r.log2 = 52 + 0 := log2_eq_of_normal (by omega) hr
    rw [shiftToTargetExponent_eq hlog' (by simpa using he)]
    refine ⟨r, e + k, ⟨by omega, hr, by omega, ?_⟩, le_refl _, by omega, rfl⟩
    simp only [mantissa_shiftRight, pow_zero, Nat.div_one]
    rw [dif_neg (by omega)]
    simp
  · -- Rounding up has carried into the next power of two.
    obtain rfl : r = 2 ^ 53 := by omega
    rw [shiftToTargetExponent_eq (k := 1) Nat.log2_two_pow (by push_cast; omega)]
    refine ⟨2 ^ 52, e + k + 1, ⟨le_refl _, by norm_num, by norm_num, ?_⟩, by omega, le_refl _, ?_⟩
    · simp [mantissa_shiftRight]
    · rw [zpow_add_one₀ (by norm_num)]
      push_cast
      ring

theorem normal_round {m k : Nat} {e : Int} (hlog : m.log2 = 52 + k) (he : -1074 ≤ e + k) :
    ∃ m' e', Normal (roundWithAccuracy Format.binary64 .positive m e .exact) m' e' ∧
      e + k ≤ e' ∧ e' ≤ e + k + 1 ∧ (m' : ℚ) * 2 ^ e' ≤ m * 2 ^ e * slack := by
  obtain ⟨m', e', hnormal, hlow, hhigh, hvalue⟩ := normal_roundWithAccuracy .exact hlog he
  have hbounds :=
    roundedMantissa_bounds (ExtendedMantissa.ofMantissaAndAccuracy m .exact >>> k)
  simp only [mantissa_shiftRight, mantissa_ofMantissaAndAccuracy] at hbounds
  exact ⟨m', e', hnormal, hlow, hhigh,
    hvalue ▸ rounded_le e (div_two_pow_bounds hlog).1 hbounds.2⟩

theorem unpackSign_packComponents {spec : Format} (s : Sign) (exponent : BitVec spec.exponentBits)
    (mantissa : BitVec spec.mantissaBitsWithoutImplicit) :
    unpackSign (packComponents spec s exponent mantissa) = s.toBitVec := by
  ext i hi
  obtain rfl : i = 0 := by omega
  simp [unpackSign, packComponents, BitVec.getLsbD_append, BitVec.getElem_append]

theorem toNat_one_append {n : Nat} (mantissa : BitVec n) :
    (1#1 ++ mantissa).toNat = 2 ^ n + mantissa.toNat := by
  rw [BitVec.toNat_append, ← Nat.shiftLeft_add_eq_or_of_lt mantissa.isLt]
  simp [Nat.shiftLeft_eq]

theorem exponentBias_binary64 : Format.binary64.exponentBias = 1023 := rfl

theorem unpack_pack_finite (s : Sign) {m : Nat} {e : Int} (hpos : 0 < m) (hm : 2 ^ 52 ≤ m)
    (hm' : m < 2 ^ 53) (hlow : -1074 ≤ e) (hhigh : e ≤ 971) :
    (Float.Model.pack (.finite s m e hpos)).unpack = .finite s m e hpos := by
  have hlog := log2_eq_of_normal hm hm'
  -- The exponent field is neither of the two that mark other kinds of number.
  obtain ⟨field, hfield⟩ : ∃ field : Nat, e = field - 1075 := ⟨(e + 1075).toNat, by omega⟩
  have hne : BitVec.ofNat 11 field ≠ 0#11 ∧ BitVec.ofNat 11 field ≠ -1#11 := by
    constructor <;> intro heq <;> have := congrArg BitVec.toNat heq <;>
      simp at this <;> omega
  have hmantissa : (1#1 ++ BitVec.ofNat 52 m).toNat = m := by
    rw [toNat_one_append, BitVec.toNat_ofNat]
    omega
  have hpack : UnpackedFloat.pack Format.binary64 (.finite s m e hpos) =
      packComponents Format.binary64 s (BitVec.ofNat 11 field) (BitVec.ofNat 52 m) := by
    have hbiased : (e + Format.binary64.exponentBias + (52 : Nat)).toNat = field := by
      rw [hfield, exponentBias_binary64]
      omega
    simp only [UnpackedFloat.pack, Format.mantissaBits, hlog, hbiased]
    rw [if_neg (by omega), if_pos trivial]
  change UnpackedFloat.unpack Format.binary64
    (UnpackedFloat.pack Format.binary64 (.finite s m e hpos)) = _
  rw [hpack, UnpackedFloat.unpack]
  simp only [unpackExponent_packComponents, unpackMantissa_packComponents,
    unpackSign_packComponents, if_neg hne.1, if_neg hne.2, hmantissa, UnpackedFloat.finite.injEq]
  refine ⟨by cases s <;> rfl, trivial, ?_⟩
  rw [BitVec.toNat_ofNat, exponentBias_binary64]
  omega

theorem shape_of_unpack {x : Float} {s : Sign} {m : Nat} {e : Int} {hpos : 0 < m}
    (h : x.toModel.unpack = .finite s m e hpos) :
    (-1074 ≤ e ∧ e ≤ 971) ∧ m < 2 ^ 53 ∧ (-1074 < e → 2 ^ 52 ≤ m) := by
  change UnpackedFloat.unpack Format.binary64 x.toModel.toBits.toBitVec = _ at h
  rw [UnpackedFloat.unpack] at h
  have hfull := toNat_one_append (@unpackMantissa Format.binary64 x.toModel.toBits.toBitVec)
  have hmantissa : (@unpackMantissa Format.binary64 x.toModel.toBits.toBitVec).toNat < 2 ^ 52 :=
    BitVec.isLt _
  generalize @unpackExponent Format.binary64 x.toModel.toBits.toBitVec = field at h
  change BitVec 11 at field
  have hlt : field.toNat < 2 ^ 11 := field.isLt
  split_ifs at h with hspecial hnumber hsmall hzero
  · simp only [UnpackedFloat.finite.injEq, exponentBias_binary64, Format.binary64, hsmall,
      BitVec.toNat_ofNat] at h
    omega
  · have hlast : field.toNat ≠ 2047 := fun heq => hspecial (BitVec.eq_of_toNat_eq heq)
    have hfirst : field.toNat ≠ 0 := fun heq => hsmall (BitVec.eq_of_toNat_eq heq)
    simp only [UnpackedFloat.finite.injEq, hfull, exponentBias_binary64, Format.binary64] at h
    omega

theorem normal_unpack_pack {x : UnpackedFloat} {m : Nat} {e : Int} (h : Normal x m e)
    (hlow : -1074 ≤ e) (hhigh : e ≤ 971) : Normal (Float.Model.pack x).unpack m e := by
  obtain ⟨hm, hm', hpos, rfl⟩ := h
  exact ⟨hm, hm', hpos, unpack_pack_finite .positive hpos hm hm' hlow hhigh⟩

theorem normal_mul {x y : Float} {m₁ m₂ : Nat} {e₁ e₂ : Int} (hx : Normal x.toModel.unpack m₁ e₁)
    (hy : Normal y.toModel.unpack m₂ e₂) (hlow : -1000 ≤ e₁ + e₂) (hhigh : e₁ + e₂ ≤ 900) :
    ∃ m e, Normal (x * y).toModel.unpack m e ∧ e₁ + e₂ + 52 ≤ e ∧ e ≤ e₁ + e₂ + 54 ∧
      (m : ℚ) * 2 ^ e ≤ m₁ * 2 ^ e₁ * (m₂ * 2 ^ e₂) * slack := by
  obtain ⟨hm₁, hm₁', hpos₁, hx⟩ := hx
  obtain ⟨hm₂, hm₂', hpos₂, hy⟩ := hy
  have hlog : ∃ k, (m₁ * m₂).log2 = 52 + k ∧ 52 ≤ k ∧ k ≤ 53 := by
    have hne := Nat.mul_ne_zero hpos₁.ne' hpos₂.ne'
    have hlow : 104 ≤ (m₁ * m₂).log2 :=
      (Nat.le_log2 hne).mpr (pow_add 2 52 52 ▸ Nat.mul_le_mul hm₁ hm₂)
    have hhigh : (m₁ * m₂).log2 < 106 :=
      (Nat.log2_lt hne).mpr (pow_add 2 53 53 ▸ Nat.mul_lt_mul'' hm₁' hm₂')
    exact ⟨(m₁ * m₂).log2 - 52, by omega⟩
  obtain ⟨k, hlog, hk, hk'⟩ := hlog
  obtain ⟨m, e, hround, he, he', hvalue⟩ := normal_round (e := e₁ + e₂) hlog (by omega)
  refine ⟨m, e, ?_, by omega, by omega, ?_⟩
  · have hmul : (x * y).toModel = Float.Model.pack
        (roundWithAccuracy Format.binary64 .positive (m₁ * m₂) (e₁ + e₂) .exact) := by
      change Float.Model.pack (UnpackedFloat.mul Format.binary64 x.toModel.unpack y.toModel.unpack) = _
      rw [hx, hy]
      rfl
    rw [hmul]
    exact normal_unpack_pack hround (by omega) (by omega)
  · have hproduct : ((m₁ * m₂ : Nat) : ℚ) * 2 ^ (e₁ + e₂) = m₁ * 2 ^ e₁ * (m₂ * 2 ^ e₂) := by
      rw [zpow_add₀ (by norm_num)]
      push_cast
      ring
    rwa [hproduct] at hvalue

theorem model_ofInt {n : Nat} (hpos : 0 < n) :
    Float.Model.ofInt n = Float.Model.pack (roundWithAccuracy Format.binary64 .positive
      (n <<< (52 - n.log2)) (-(52 - n.log2 : Nat)) .exact) := by
  have hsign : compare (n : Int) 0 = .gt := Int.compare_eq_gt.mpr (by omega)
  have hshift : (0 - Format.binary64.targetExponent (totalExponent n 0)).toNat = 52 - n.log2 := by
    rw [targetExponent_binary64]
    omega
  change Float.Model.pack (UnpackedFloat.ofInt Format.binary64 n) = _
  simp only [UnpackedFloat.ofInt, UnpackedFloat.normalize, hsign, UnpackedFloat.round,
    decreaseExponent, Int.toNat_natCast, hshift]
  rw [zero_sub]

theorem log2_aligned {n : Nat} (hpos : 0 < n) :
    (n <<< (52 - n.log2)).log2 = 52 + (n.log2 - 52) := by
  rw [log2_shiftLeft hpos]
  omega

theorem toNat_word {n : Nat} (h : n < 2 ^ 64) : n.toUInt64.toNat = n := by
  rw [Nat.toUInt64, UInt64.toNat_ofNat']
  omega

theorem model_toFloat {n : Nat} (h : n < 2 ^ 64) :
    n.toUInt64.toFloat.toModel = Float.Model.ofInt n := by
  change Float.Model.ofInt n.toUInt64.toNat = _
  rw [toNat_word h]

theorem normal_toFloat {n : Nat} (hpos : 0 < n) (hlt : n < 2 ^ 53) :
    ∃ m e, Normal n.toUInt64.toFloat.toModel.unpack m e ∧ -52 ≤ e ∧ e ≤ 1 ∧
      (m : ℚ) * 2 ^ e ≤ n * slack := by
  have hlog : n.log2 < 53 := (Nat.log2_lt hpos.ne').mpr hlt
  obtain ⟨m, e, hround, he, he', hvalue⟩ :=
    normal_round (e := -(52 - n.log2 : Nat)) (log2_aligned hpos) (by omega)
  refine ⟨m, e, ?_, by omega, by omega, ?_⟩
  · rw [model_toFloat (by omega), model_ofInt hpos]
    exact normal_unpack_pack hround (by omega) (by omega)
  · rwa [shiftLeft_mul_zpow] at hvalue

theorem normal_one : Normal (Float.ofBits 4607182418800017408).toModel.unpack (2 ^ 52) (-52) :=
  ⟨le_refl _, by norm_num, by norm_num, rfl⟩

theorem ofNat_eq_mul {n : Nat} (h : n < 2 ^ 53) :
    Float.ofNat n = n.toUInt64.toFloat * Float.ofBits 4607182418800017408 := by
  change Float.ofScientific n false 0 = _
  rw [Float.ofScientific, dif_pos ⟨h, by norm_num⟩]
  rfl

theorem model_ofNat {n : Nat} (h : 2 ^ 53 ≤ n) :
    (Float.ofNat n).toModel = Float.Model.pack
      (roundWithAccuracy Format.binary64 .positive (n <<< 53) (-(53 : Nat)) .exact) := by
  change (Float.ofScientific n false 0).toModel = _
  rw [Float.ofScientific, dif_neg (by omega)]
  change Float.Model.pack (UnpackedFloat.ofScientific Format.binary64 n 0) = _
  simp only [UnpackedFloat.ofScientific, dif_neg (by omega : n ≠ 0), UnpackedFloat.mul]
  rw [if_neg (by norm_num), if_neg (by push_cast; omega), if_pos (le_refl _)]
  simp only [Int.toNat_zero, pow_zero, mul_one, add_zero]
  rfl

theorem log2_long {n : Nat} (hlow : 2 ^ 53 ≤ n) (hhigh : n < 2 ^ 64) :
    ∃ l, l ≤ 10 ∧ (n <<< 53).log2 = 52 + (54 + l) := by
  have hlog : 53 ≤ n.log2 := (Nat.le_log2 (by omega)).mpr hlow
  have hlog' : n.log2 < 64 := (Nat.log2_lt (by omega)).mpr hhigh
  refine ⟨n.log2 - 53, by omega, ?_⟩
  rw [log2_shiftLeft (by omega)]
  omega

/-- A conversion may round twice: numbers of up to 53 bits are multiplied by one in
the end. -/
theorem normal_ofNat {n : Nat} (hpos : 0 < n) (hlt : n < 2 ^ 64) :
    ∃ m e, Normal (Float.ofNat n).toModel.unpack m e ∧ -52 ≤ e ∧ e ≤ 13 ∧
      (m : ℚ) * 2 ^ e ≤ n * slack ^ 2 := by
  by_cases hsmall : n < 2 ^ 53
  · obtain ⟨m, e, hnormal, he, he', hvalue⟩ := normal_toFloat hpos hsmall
    obtain ⟨m', e', hproduct, hlow, hhigh, hvalue'⟩ :=
      normal_mul hnormal normal_one (by omega) (by omega)
    refine ⟨m', e', ?_, by omega, by omega, ?_⟩
    · rwa [ofNat_eq_mul hsmall]
    · have hone : ((2 ^ 52 : Nat) : ℚ) * 2 ^ (-52 : Int) = 1 := by norm_num
      rw [hone, mul_one] at hvalue'
      calc (m' : ℚ) * 2 ^ e' ≤ m * 2 ^ e * slack := hvalue'
        _ ≤ n * slack * slack := mul_le_mul_of_nonneg_right hvalue slack_pos.le
        _ = n * slack ^ 2 := by ring
  · obtain ⟨l, hl, hlog⟩ := log2_long (not_lt.mp hsmall) hlt
    obtain ⟨m, e, hround, he, he', hvalue⟩ := normal_round (e := -(53 : Nat)) hlog (by omega)
    refine ⟨m, e, ?_, by omega, by omega, ?_⟩
    · rw [model_ofNat (not_lt.mp hsmall)]
      exact normal_unpack_pack hround (by omega) (by omega)
    · have hone : 1 ≤ slack := by norm_num [slack]
      calc (m : ℚ) * 2 ^ e ≤ n * slack := by rwa [shiftLeft_mul_zpow n 53] at hvalue
        _ ≤ n * slack ^ 2 := by
          gcongr
          exact le_self_pow₀ hone (by norm_num)

theorem toNat_toInt {m : Nat} (e : Int) (hpos : 0 < m) (low high : Int) :
    (toInt low high (.finite .positive m e hpos)).toNat = m * 2 ^ e.toNat / 2 ^ (-e).toNat := by
  simp only [toInt, roundToInt, decreaseExponent, shiftToExponent, mantissa_shiftRight,
    ExtendedMantissa.ofMantissaAndAccuracy, Sign.apply, Int.toNat_natCast, sub_zero,
    Nat.shiftLeft_eq]
  congr 2
  omega

theorem fraction_eq_zpow (m : Nat) (e : Int) :
    ((m * 2 ^ e.toNat : Nat) : ℚ) / (2 ^ (-e).toNat : Nat) = m * 2 ^ e := by
  calc ((m * 2 ^ e.toNat : Nat) : ℚ) / (2 ^ (-e).toNat : Nat)
      = m * 2 ^ ((e.toNat : Int) - (-e).toNat) := by
        rw [zpow_sub₀ (by norm_num), zpow_natCast, zpow_natCast]
        push_cast
        ring
    _ = m * 2 ^ e := by
        congr 2
        omega

theorem toNat_toUInt64_le {x : Float} {m : Nat} {e : Int} (h : Normal x.toModel.unpack m e) :
    (x.toUInt64.toNat : ℚ) ≤ m * 2 ^ e := by
  obtain ⟨-, -, hpos, hx⟩ := h
  have hclamp : x.toUInt64.toNat ≤ m * 2 ^ e.toNat / 2 ^ (-e).toNat := by
    rw [← toNat_toInt e hpos 0 (UInt64.size - 1), ← hx]
    change (UInt64.ofNatClamp _).toNat ≤ _
    unfold UInt64.ofNatClamp
    split_ifs with hsize
    · exact le_of_eq rfl
    · exact le_trans (le_of_eq rfl) (not_lt.mp hsize |>.trans' (Nat.sub_le ..))
  calc (x.toUInt64.toNat : ℚ) ≤ ((m * 2 ^ e.toNat / 2 ^ (-e).toNat : Nat) : ℚ) := by
        exact_mod_cast hclamp
    _ ≤ ((m * 2 ^ e.toNat : Nat) : ℚ) / (2 ^ (-e).toNat : Nat) := Nat.cast_div_le
    _ = m * 2 ^ e := fraction_eq_zpow m e

end CycleCount.Binary64
