import CycleCount.Proofs.ExactArithmetic
import Mathlib.Algebra.Group.Nat.Even

/-! Rounding to the nearest number with a mantissa of 53 bits, and to the one with an
even mantissa if two are equally near. Rounding so keeps order, and with it do the
conversion of integers and their division. -/

namespace CycleCount.Binary64

open Float.Model Float.Model.UnpackedFloat

def IsNearest (v : ℚ) (n : Nat) : Prop := |v - n| < 1 / 2 ∨ |v - n| = 1 / 2 ∧ n % 2 = 0

theorem isNearest_natCast (n : Nat) : IsNearest n n := by
  left
  rw [sub_self, abs_zero]
  norm_num

namespace IsNearest

variable {v w : ℚ} {n k : Nat}

theorem bounds (h : IsNearest v n) : n - 1 / 2 ≤ v ∧ v ≤ n + 1 / 2 := by
  have habs : |v - n| ≤ 1 / 2 := h.elim le_of_lt fun h => h.1.le
  rw [abs_le] at habs
  constructor <;> linarith

theorem even_of_half (h : IsNearest v n) (hhalf : |v - n| = 1 / 2) : n % 2 = 0 :=
  h.elim (fun hlt => absurd hhalf hlt.ne) fun h => h.2

theorem le_of_le (hv : IsNearest v n) (hw : IsNearest w k) (hle : v ≤ w) : n ≤ k := by
  by_contra hlt
  have hstep : (k : ℚ) + 1 ≤ n := by exact_mod_cast not_le.mp hlt
  have hlower := hv.bounds.1
  have hupper := hw.bounds.2
  -- Both stand in the middle between two neighbours, of which one is odd.
  have hv' : v - n = -(1 / 2) := by linarith
  have hw' : w - k = 1 / 2 := by linarith
  have hnext : n = k + 1 := by exact_mod_cast (by linarith : (n : ℚ) = k + 1)
  have heven := hv.even_of_half (by rw [hv', abs_neg]; norm_num)
  have heven' := hw.even_of_half (by rw [hw']; norm_num)
  omega

end IsNearest

/-- The mantissa, with what round and sticky bit tell of the places behind it,
stands for `v`. -/
inductive Stands : ExtendedMantissa → ℚ → Prop
  | whole (m : Nat) : Stands ⟨m, false, false⟩ m
  | low {m : Nat} {v : ℚ} (hlow : m < v) (hhigh : v < m + 1 / 2) : Stands ⟨m, false, true⟩ v
  | half (m : Nat) : Stands ⟨m, true, false⟩ (m + 1 / 2)
  | high {m : Nat} {v : ℚ} (hlow : m + 1 / 2 < v) (hhigh : v < m + 1) : Stands ⟨m, true, true⟩ v

namespace Stands

variable {em : ExtendedMantissa} {v : ℚ}

theorem bounds (h : Stands em v) : em.mantissa ≤ v ∧ v < em.mantissa + 1 := by
  cases h <;> constructor <;> simp only <;> linarith

theorem residue_iff (h : Stands em v) :
    (em.roundBit || em.stickyBit) = true ↔ v ≠ em.mantissa := by
  cases h with
  | whole m => simp
  | low hlow hhigh => simp [hlow.ne']
  | half m => simp
  | @high m v hlow hhigh =>
    have hlt : (m : ℚ) < v := by linarith
    simp [hlt.ne']

theorem shiftRightOne (h : Stands em v) : Stands em.shiftRightOne (v / 2) := by
  obtain ⟨hlow, hhigh⟩ := h.bounds
  have hresidue := h.residue_iff
  obtain ⟨m, round, sticky⟩ := em
  simp only at hlow hhigh hresidue
  obtain ⟨a, rfl | rfl⟩ := Nat.even_or_odd' m
  · have hshift : ExtendedMantissa.shiftRightOne ⟨2 * a, round, sticky⟩ =
        ⟨a, false, round || sticky⟩ := by
      simp [ExtendedMantissa.shiftRightOne]
    push_cast at hlow hhigh hresidue
    rw [hshift]
    by_cases hv : v = 2 * a
    · have hwhole : v / 2 = a := by linarith
      rw [Bool.eq_false_iff.mpr (hresidue.not.mpr (not_not.mpr hv)), hwhole]
      exact .whole a
    · have hlt := lt_of_le_of_ne hlow (Ne.symm hv)
      rw [hresidue.mpr hv]
      exact .low (by linarith) (by linarith)
  · have hshift : ExtendedMantissa.shiftRightOne ⟨2 * a + 1, round, sticky⟩ =
        ⟨a, true, round || sticky⟩ := by
      simp [ExtendedMantissa.shiftRightOne, Nat.add_mod]
      omega
    push_cast at hlow hhigh hresidue
    rw [hshift]
    by_cases hv : v = 2 * a + 1
    · have hhalf : v / 2 = a + 1 / 2 := by linarith
      rw [Bool.eq_false_iff.mpr (hresidue.not.mpr (not_not.mpr hv)), hhalf]
      exact .half a
    · have hlt := lt_of_le_of_ne hlow (Ne.symm hv)
      rw [hresidue.mpr hv]
      exact .high (by linarith) (by linarith)

theorem shiftRight (h : Stands em v) (k : Nat) : Stands (em >>> k) (v / 2 ^ k) := by
  change Stands (Nat.repeat ExtendedMantissa.shiftRightOne k em) _
  induction k with
  | zero => simpa [Nat.repeat] using h
  | succ k ih =>
    rw [Nat.repeat, pow_succ, ← div_div]
    exact ih.shiftRightOne

theorem isNearest (h : Stands em v) : IsNearest v em.roundedMantissa := by
  cases h with
  | whole m => exact isNearest_natCast m
  | @low m v hlow hhigh =>
    left
    change |v - m| < 1 / 2
    rw [abs_of_pos (by linarith)]
    linarith
  | half m =>
    right
    change |(m : ℚ) + 1 / 2 - (m + m % 2 : Nat)| = 1 / 2 ∧ (m + m % 2) % 2 = 0
    refine ⟨?_, by omega⟩
    rcases Nat.mod_two_eq_zero_or_one m with hm | hm
    · rw [hm, Nat.add_zero, add_sub_cancel_left]
      norm_num
    · have hdown : (m : ℚ) + 1 / 2 - (m + 1 : Nat) = -(1 / 2) := by
        push_cast
        ring
      rw [hm, hdown, abs_neg]
      norm_num
  | @high m v hlow hhigh =>
    left
    change |v - (m + 1 : Nat)| < 1 / 2
    push_cast
    rw [abs_of_neg (by linarith)]
    linarith

end Stands

/-- `y` is the number with a mantissa of 53 bits that is nearest to `q`, the one with
an even mantissa of two. -/
inductive Rounded : ℚ → ℚ → Prop
  | zero : Rounded 0 0
  | scaled {v : ℚ} {r : Nat} (t : Int) (hlow : 2 ^ 52 ≤ v) (hhigh : v < 2 ^ 53)
      (hnearest : IsNearest v r) : Rounded (v * 2 ^ t) (r * 2 ^ t)

theorem rounded_self {m : Nat} (hlow : 2 ^ 52 ≤ m) (hhigh : m < 2 ^ 53) (e : Int) :
    Rounded (m * 2 ^ e) (m * 2 ^ e) :=
  .scaled e (by exact_mod_cast hlow) (by exact_mod_cast hhigh) (isNearest_natCast m)

theorem IsNearest.mantissa_bounds {v : ℚ} {r : Nat} (h : IsNearest v r) (hlow : 2 ^ 52 ≤ v)
    (hhigh : v < 2 ^ 53) : (2 ^ 52 : ℚ) ≤ r ∧ (r : ℚ) ≤ 2 ^ 53 := by
  have hlow' := (isNearest_natCast (2 ^ 52)).le_of_le h (by exact_mod_cast hlow)
  have hhigh' := h.le_of_le (isNearest_natCast (2 ^ 53)) (by exact_mod_cast hhigh.le)
  exact ⟨by exact_mod_cast hlow', by exact_mod_cast hhigh'⟩

theorem two_pow_scale {t t' : Int} (h : t < t') : (2 ^ 53 : ℚ) * 2 ^ t ≤ 2 ^ 52 * 2 ^ t' := by
  calc (2 ^ 53 : ℚ) * 2 ^ t = 2 ^ 52 * 2 ^ (t + 1) := by
        rw [zpow_add_one₀ (by norm_num)]
        ring
    _ ≤ 2 ^ 52 * 2 ^ t' := by
        gcongr
        · norm_num
        · omega

theorem rounded_natCast {n : Nat} (hlt : n < 2 ^ 53) : Rounded n n := by
  rcases Nat.eq_zero_or_pos n with rfl | hpos
  · exact_mod_cast Rounded.zero
  · have hlog : n.log2 < 53 := (Nat.log2_lt hpos.ne').mpr hlt
    have haligned := log2_aligned hpos
    obtain ⟨hlow, hhigh⟩ := div_two_pow_bounds haligned
    have hself := rounded_self hlow hhigh (-(52 - n.log2 : Nat))
    rw [show n.log2 - 52 = 0 by omega, pow_zero, Nat.div_one, shiftLeft_mul_zpow] at hself
    exact hself

namespace Rounded

variable {p q x y : ℚ}

theorem nonneg (h : Rounded q y) : 0 ≤ y := by
  cases h with
  | zero => exact le_refl 0
  | scaled t hlow hhigh hnearest => positivity

theorem le_of_le (hp : Rounded p x) (hq : Rounded q y) (hle : p ≤ q) : x ≤ y := by
  cases hp with
  | zero => exact hq.nonneg
  | @scaled v r t hlow hhigh hnearest =>
    have hpos : 0 < v * 2 ^ t := mul_pos (by linarith) (by positivity)
    cases hq with
    | zero => linarith
    | @scaled v' r' t' hlow' hhigh' hnearest' =>
      rcases lt_trichotomy t t' with ht | rfl | ht
      · calc (r : ℚ) * 2 ^ t ≤ 2 ^ 53 * 2 ^ t := by
              gcongr
              exact (hnearest.mantissa_bounds hlow hhigh).2
          _ ≤ 2 ^ 52 * 2 ^ t' := two_pow_scale ht
          _ ≤ r' * 2 ^ t' := by
              gcongr
              exact (hnearest'.mantissa_bounds hlow' hhigh').1
      · have hv : v ≤ v' := le_of_mul_le_mul_right hle (by positivity)
        gcongr
        exact hnearest.le_of_le hnearest' hv
      · -- A higher last place would make the smaller number the larger one.
        have hlt : v' * 2 ^ t' < v * 2 ^ t :=
          calc v' * 2 ^ t' < 2 ^ 53 * 2 ^ t' := by gcongr
            _ ≤ 2 ^ 52 * 2 ^ t := two_pow_scale ht
            _ ≤ v * 2 ^ t := by gcongr
        linarith

theorem unique (hx : Rounded q x) (hy : Rounded q y) : x = y :=
  le_antisymm (hx.le_of_le hy le_rfl) (hy.le_of_le hx le_rfl)

theorem nonneg_left (h : Rounded q y) : 0 ≤ q := by
  cases h with
  | zero => exact le_refl 0
  | scaled t hlow hhigh hnearest => exact mul_nonneg (by linarith) (by positivity)

theorem pos (h : Rounded q y) (hq : 0 < q) : 0 < y := by
  cases h with
  | zero => exact hq
  | scaled t hlow hhigh hnearest =>
    exact mul_pos (by linarith [(hnearest.mantissa_bounds hlow hhigh).1]) (by positivity)

theorem eq_zero (h : Rounded q y) (hq : q = 0) : y = 0 := by
  subst hq
  exact h.unique .zero

theorem eq_intCast {n : Int} (h : Rounded n y) (hlt : |n| < 2 ^ 53) : y = n := by
  have hnonneg : 0 ≤ n := by exact_mod_cast h.nonneg_left
  lift n to Nat using hnonneg
  exact h.unique (by exact_mod_cast rounded_natCast (by simpa using hlt))

end Rounded

theorem stands_exact (m : Nat) : Stands (ExtendedMantissa.ofMantissaAndAccuracy m .exact) m :=
  .whole m

theorem aligned_bounds {m k : Nat} (hlog : m.log2 = 52 + k) :
    (2 : ℚ) ^ 52 * 2 ^ k ≤ m ∧ (m : ℚ) + 1 ≤ 2 ^ 53 * 2 ^ k := by
  have hm : 2 ^ 52 * 2 ^ k ≤ m ∧ m + 1 ≤ 2 ^ 53 * 2 ^ k := by
    rw [← pow_add, ← pow_add, show 53 + k = m.log2 + 1 by omega, ← hlog]
    exact ⟨Nat.log2_self_le (pos_of_log2 hlog).ne', Nat.lt_log2_self⟩
  exact_mod_cast hm

theorem normal_rounded {accuracy : Accuracy} {m k : Nat} {e : Int} {v : ℚ}
    (hstands : Stands (ExtendedMantissa.ofMantissaAndAccuracy m accuracy) v)
    (hlog : m.log2 = 52 + k) (he : -1074 ≤ e + k) :
    ∃ m' e', Normal (roundWithAccuracy Format.binary64 .positive m e accuracy) m' e' ∧
      e + k ≤ e' ∧ e' ≤ e + k + 1 ∧ Rounded (v * 2 ^ e) (m' * 2 ^ e') := by
  obtain ⟨m', e', hnormal, hlow, hhigh, hvalue⟩ := normal_roundWithAccuracy accuracy hlog he
  have hbounds := hstands.bounds
  rw [mantissa_ofMantissaAndAccuracy] at hbounds
  obtain ⟨hm, hm'⟩ := aligned_bounds hlog
  have hscale : v * 2 ^ e = v / 2 ^ k * 2 ^ (e + k) := by
    rw [zpow_add₀ (by norm_num), zpow_natCast]
    field_simp
  refine ⟨m', e', hnormal, hlow, hhigh, ?_⟩
  rw [hvalue, hscale]
  refine .scaled (e + k) ?_ ?_ (hstands.shiftRight k).isNearest
  · rw [le_div_iff₀ (by positivity)]
    linarith
  · rw [div_lt_iff₀ (by positivity)]
    linarith

theorem denotes_of_pack {x : Float} {u : UnpackedFloat} {m : Nat} {e : Int}
    (hx : x.toModel = Float.Model.pack u) (hu : Normal u m e) (hlow : -1074 ≤ e) (hhigh : e ≤ 971) :
    Exact x (m * 2 ^ e) := by
  rw [Exact, hx]
  exact (normal_unpack_pack hu hlow hhigh).denotes

theorem rounded_ofInt {x : Float} {n : Nat} (hx : x.toModel = Float.Model.ofInt n)
    (hlt : n < 2 ^ 64) : ∃ y, Exact x y ∧ Rounded n y := by
  rcases Nat.eq_zero_or_pos n with rfl | hpos
  · refine ⟨0, ?_, ?_⟩
    · exact_mod_cast exact_ofInt hx (by norm_num)
    · exact_mod_cast Rounded.zero
  · have hlog : n.log2 < 64 := (Nat.log2_lt hpos.ne').mpr hlt
    obtain ⟨m, e, hnormal, hlow, hhigh, hrounded⟩ :=
      normal_rounded (e := -(52 - n.log2 : Nat)) (stands_exact _) (log2_aligned hpos) (by omega)
    rw [shiftLeft_mul_zpow] at hrounded
    rw [model_ofInt hpos] at hx
    exact ⟨_, denotes_of_pack hx hnormal (by omega) (by omega), hrounded⟩

theorem mul_one_mantissa (s : Sign) {m : Nat} {e : Int} (hpos : 0 < m) (hlow : 2 ^ 52 ≤ m)
    (hhigh : m < 2 ^ 53) (he : -1074 ≤ e) :
    roundWithAccuracy Format.binary64 s (m * 2 ^ 52) (e - 52) .exact = .finite s m e hpos := by
  have hlog : (m * 2 ^ 52).log2 = 52 + 52 := by
    rw [← Nat.shiftLeft_eq, log2_shiftLeft hpos, log2_eq_of_normal hlow hhigh]
  obtain ⟨hpos', hround⟩ := roundWithAccuracy_of_dvd s (e := e - 52) hlog
    (Nat.dvd_mul_left _ _) (by omega)
  simp only [hround, Nat.mul_div_cancel _ (Nat.two_pow_pos 52), UnpackedFloat.finite.injEq, true_and]
  omega

theorem Exact.mul_one {x : Float} {q : ℚ} (hx : Exact x q) :
    Exact (x * Float.ofBits 4607182418800017408) q := by
  obtain ⟨-, -, hpos', hone⟩ := normal_one
  change Denotes (Float.Model.pack (UnpackedFloat.mul Format.binary64 x.toModel.unpack
    (Float.ofBits 4607182418800017408).toModel.unpack)).unpack q
  rw [hone]
  rw [Exact] at hx
  generalize hunpack : x.toModel.unpack = u at hx
  cases hx with
  | zero s =>
    rw [UnpackedFloat.mul, unpack_pack_zero]
    exact .zero _
  | @finite s m e hpos hlow hhigh =>
    obtain ⟨⟨he, he'⟩, -⟩ := shape_of_unpack hunpack
    have hmul : UnpackedFloat.mul Format.binary64 (.finite s m e hpos)
        (.finite .positive (2 ^ 52) (-52) hpos') =
        roundWithAccuracy Format.binary64 s (m * 2 ^ 52) (e - 52) .exact := by
      cases s <;> rfl
    rw [hmul, mul_one_mantissa s hpos hlow hhigh he, unpack_pack_finite s hpos hlow hhigh he he']
    exact .finite s hpos hlow hhigh

theorem rounded_ofNat {n : Nat} (hlt : n < 2 ^ 64) :
    ∃ y, Exact (Float.ofNat n) y ∧ Rounded n y := by
  rcases lt_or_ge n (2 ^ 53) with hsmall | hlarge
  · obtain ⟨y, hexact, hrounded⟩ := rounded_ofInt (model_toFloat hlt) hlt
    rw [ofNat_eq_mul hsmall]
    exact ⟨y, hexact.mul_one, hrounded⟩
  · obtain ⟨l, hl, hlog⟩ := log2_long hlarge hlt
    obtain ⟨m, e, hnormal, hlow, hhigh, hrounded⟩ :=
      normal_rounded (e := -(53 : Nat)) (stands_exact _) hlog (by omega)
    rw [shiftLeft_mul_zpow] at hrounded
    exact ⟨_, denotes_of_pack (model_ofNat hlarge) hnormal (by omega) (by omega), hrounded⟩

theorem stands_quotient (a : Nat) {b : Nat} (hb : 0 < b) :
    Stands (ExtendedMantissa.ofMantissaAndAccuracy (a / b) (accuracyOfFraction (a % b) b))
      (a / b : ℚ) := by
  have hb' : (0 : ℚ) < b := by exact_mod_cast hb
  have hlt : ((a % b : Nat) : ℚ) < b := by exact_mod_cast Nat.mod_lt a hb
  have hvalue : (a / b : ℚ) = (a / b : Nat) + (a % b : Nat) / b := by
    have hdiv : (a : ℚ) = b * (a / b : Nat) + (a % b : Nat) := by
      exact_mod_cast (Nat.div_add_mod a b).symm
    field_simp
    linarith
  rw [hvalue, accuracyOfFraction]
  generalize a / b = n at *
  generalize a % b = r at *
  split_ifs with hr
  · rw [hr, Nat.cast_zero, zero_div, add_zero]
    exact .whole n
  · have hpos : (0 : ℚ) < r / b := div_pos (by exact_mod_cast Nat.pos_of_ne_zero hr) hb'
    rcases lt_trichotomy (2 * r) b with hhalf | hhalf | hhalf
    · have hhalf' : (2 * r : ℚ) < b := by exact_mod_cast hhalf
      have hlow : (r / b : ℚ) < 1 / 2 := by
        rw [div_lt_iff₀ hb']
        linarith
      rw [Nat.compare_eq_lt.mpr hhalf]
      exact .low (by linarith) (by linarith)
    · have hhalf' : (2 * r : ℚ) = b := by exact_mod_cast hhalf
      have hmiddle : (r / b : ℚ) = 1 / 2 := by
        rw [div_eq_iff hb'.ne']
        linarith
      rw [Nat.compare_eq_eq.mpr hhalf, hmiddle]
      exact .half n
    · have hhalf' : (b : ℚ) < 2 * r := by exact_mod_cast hhalf
      have hhigh : (1 / 2 : ℚ) < r / b := by
        rw [lt_div_iff₀ hb']
        linarith
      have hone : (r / b : ℚ) < 1 := (div_lt_one hb').mpr hlt
      rw [Nat.compare_eq_gt.mpr hhalf]
      exact .high (by linarith) (by linarith)

theorem log2_quotient {m₁ m₂ : Nat} (h₁ : 2 ^ 52 ≤ m₁) (h₁' : m₁ < 2 ^ 53)
    (h₂ : 2 ^ 52 ≤ m₂) (h₂' : m₂ < 2 ^ 53) : ∃ k, k ≤ 1 ∧ (m₁ <<< 53 / m₂).log2 = 52 + k := by
  have hlow : 2 ^ 52 ≤ m₁ <<< 53 / m₂ := by
    rw [Nat.le_div_iff_mul_le (by omega), Nat.shiftLeft_eq]
    omega
  have hhigh : m₁ <<< 53 / m₂ < 2 ^ 54 := by
    rw [Nat.div_lt_iff_lt_mul (by omega), Nat.shiftLeft_eq]
    omega
  have hlog : 52 ≤ (m₁ <<< 53 / m₂).log2 := (Nat.le_log2 (by omega)).mpr hlow
  have hlog' : (m₁ <<< 53 / m₂).log2 < 54 := (Nat.log2_lt (by omega)).mpr hhigh
  exact ⟨(m₁ <<< 53 / m₂).log2 - 52, by omega⟩

theorem rounded_div {x y : Float} {m₁ m₂ : Nat} {e₁ e₂ : Int} (hx : Normal x.toModel.unpack m₁ e₁)
    (hy : Normal y.toModel.unpack m₂ e₂) (hlow : -900 ≤ e₁ - e₂) (hhigh : e₁ - e₂ ≤ 900) :
    ∃ z, Exact (x / y) z ∧ Rounded (m₁ * 2 ^ e₁ / (m₂ * 2 ^ e₂)) z := by
  obtain ⟨h₁, h₁', hpos₁, hx⟩ := hx
  obtain ⟨h₂, h₂', hpos₂, hy⟩ := hy
  obtain ⟨k, hk, hlog⟩ := log2_quotient h₁ h₁' h₂ h₂'
  obtain ⟨m, e, hnormal, he, he', hrounded⟩ := normal_rounded (e := e₁ - e₂ - 53)
    (stands_quotient (m₁ <<< 53) hpos₂) hlog (by omega)
  have hdiv : (x / y).toModel = Float.Model.pack (roundWithAccuracy Format.binary64 .positive
      (m₁ <<< 53 / m₂) (e₁ - e₂ - 53) (accuracyOfFraction (m₁ <<< 53 % m₂) m₂)) := by
    change Float.Model.pack (UnpackedFloat.div Format.binary64 x.toModel.unpack y.toModel.unpack) = _
    rw [hx, hy, UnpackedFloat.div, divCore_normal h₁ h₁' h₂ h₂' (by omega)]
    rfl
  have hvalue : ((m₁ <<< 53 : Nat) / m₂ : ℚ) * 2 ^ (e₁ - e₂ - 53) =
      m₁ * 2 ^ e₁ / (m₂ * 2 ^ e₂) := by
    rw [Nat.shiftLeft_eq, zpow_sub₀ (by norm_num), zpow_sub₀ (by norm_num)]
    push_cast
    field_simp
  rw [hvalue] at hrounded
  exact ⟨_, denotes_of_pack hdiv hnormal (by omega) (by omega), hrounded⟩

theorem Exact.normal {x : Float} {q : ℚ} (hx : Exact x q) (hlow : 1 ≤ q) (hhigh : q ≤ 2 ^ 64) :
    ∃ m e, Normal x.toModel.unpack m e ∧ q = m * 2 ^ e ∧ -53 ≤ e ∧ e ≤ 12 := by
  rw [Exact] at hx
  generalize x.toModel.unpack = u at hx
  cases hx with
  | zero s => norm_num at hlow
  | @finite s m e hpos hm hm' =>
    cases s with
    | negative =>
      have hvalue : (0 : ℚ) < m * 2 ^ e := by positivity
      simp only [Sign.apply, Int.cast_neg, Int.cast_natCast, neg_mul] at hlow
      linarith
    | positive =>
      simp only [Sign.apply, Int.cast_natCast] at hlow hhigh ⊢
      refine ⟨m, e, ⟨hm, hm', hpos, rfl⟩, rfl, ?_, ?_⟩
      · by_contra hlt
        have hscaled : (m * 2 ^ e : ℚ) < (2 ^ 52 : Nat) * 2 ^ (-52 : Int) :=
          scaled_lt hm' (le_refl _) (by omega)
        norm_num at hscaled
        linarith
      · by_contra hlt
        have hscaled : ((2 ^ 52 : Nat) * 2 ^ (12 : Int) : ℚ) < m * 2 ^ e :=
          scaled_lt (by norm_num) hm (by omega)
        norm_num at hscaled
        linarith

def Nearest (x : Float) (q : ℚ) : Prop := ∃ y, Exact x y ∧ (Rounded q y ∨ Rounded (-q) (-y))

theorem Nearest.le_of_le {x y : Float} {p q : ℚ} (hx : Nearest x p) (hy : Nearest y q)
    (hle : p ≤ q) : x ≤ y := by
  obtain ⟨a, hx, ha⟩ := hx
  obtain ⟨b, hy, hb⟩ := hy
  rw [hx.le_iff hy]
  rcases ha with ha | ha <;> rcases hb with hb | hb
  · exact ha.le_of_le hb hle
  · -- Only zero is neither positive nor negative.
    have hp := ha.nonneg_left
    have hq := hb.nonneg_left
    rw [ha.eq_zero (by linarith)]
    have := hb.eq_zero (by linarith)
    linarith
  · have := ha.nonneg
    have := hb.nonneg
    linarith
  · have := hb.le_of_le ha (by linarith)
    linarith

theorem nearest_ofInt {x : Float} {n : Nat} (hx : x.toModel = Float.Model.ofInt n)
    (hlt : n < 2 ^ 64) : Nearest x (n : Int) := by
  obtain ⟨y, hexact, hrounded⟩ := rounded_ofInt hx hlt
  exact ⟨y, hexact, .inl (by exact_mod_cast hrounded)⟩

theorem Nearest.exact {x : Float} {n : Int} (h : Nearest x n) (hlt : |n| < 2 ^ 53) :
    Exact x n := by
  obtain ⟨y, hexact, hrounded | hrounded⟩ := h
  · rwa [← hrounded.eq_intCast hlt]
  · have hnegated : Rounded (-n : Int) (-y) := by rwa [Int.cast_neg]
    have hvalue := hnegated.eq_intCast (by rwa [abs_neg])
    rw [Int.cast_neg, neg_inj] at hvalue
    rwa [← hvalue]

theorem Exact.div_of_zero {x y : Float} {m : Nat} {e : Int} (hx : Exact x 0)
    (hy : Normal y.toModel.unpack m e) : Exact (x / y) 0 := by
  obtain ⟨-, -, hpos, hy⟩ := hy
  change Denotes (Float.Model.pack
    (UnpackedFloat.div Format.binary64 x.toModel.unpack y.toModel.unpack)).unpack 0
  rw [hy]
  rw [Exact] at hx
  generalize x.toModel.unpack = u at hx
  generalize hzero : (0 : ℚ) = q at hx
  cases hx with
  | zero s =>
    rw [UnpackedFloat.div, unpack_pack_zero]
    exact .zero _
  | @finite s m' e' hpos' hm hm' =>
    have hvalue : (0 : ℚ) < m' * 2 ^ e' := by positivity
    cases s <;> simp only [Sign.apply, Int.cast_neg, Int.cast_natCast, neg_mul] at hzero <;> linarith

def IsCount (q : ℚ) : Prop := q = 0 ∨ 1 ≤ q ∧ q ≤ 2 ^ 64

theorem Rounded.isCount {n : Nat} {y : ℚ} (h : Rounded n y) (hlt : n < 2 ^ 64) : IsCount y := by
  have hone : Rounded ((2 ^ 52 : Nat) * 2 ^ (-52 : Int)) ((2 ^ 52 : Nat) * 2 ^ (-52 : Int)) :=
    rounded_self (le_refl _) (by norm_num) _
  have htop : Rounded ((2 ^ 52 : Nat) * 2 ^ (12 : Int)) ((2 ^ 52 : Nat) * 2 ^ (12 : Int)) :=
    rounded_self (le_refl _) (by norm_num) _
  norm_num at hone htop
  rcases Nat.eq_zero_or_pos n with rfl | hpos
  · exact .inl (h.eq_zero Nat.cast_zero)
  · have hhigh := h.le_of_le htop (by exact_mod_cast hlt.le)
    exact .inr ⟨hone.le_of_le h (by exact_mod_cast hpos), by linarith⟩

theorem Exact.rounded_div {x y : Float} {p q : ℚ} (hx : Exact x p) (hy : Exact y q)
    (hp : IsCount p) (hq : IsCount q) (hpos : 0 < q) :
    ∃ z, Exact (x / y) z ∧ Rounded (p / q) z := by
  obtain ⟨hq, hq'⟩ := hq.resolve_left hpos.ne'
  obtain ⟨m₂, e₂, hy, hvalue, hlow, hhigh⟩ := hy.normal hq hq'
  rcases hp with rfl | ⟨hp, hp'⟩
  · rw [zero_div]
    exact ⟨0, hx.div_of_zero hy, .zero⟩
  · obtain ⟨m₁, e₁, hx, hvalue', hlow', hhigh'⟩ := hx.normal hp hp'
    rw [hvalue, hvalue']
    exact Binary64.rounded_div hx hy (by omega) (by omega)

theorem rounded_quotient {k n : Nat} (hk : k < 2 ^ 64) (hn : 0 < n) (hn' : n < 2 ^ 64) :
    ∃ p q z, Rounded k p ∧ Rounded n q ∧ 0 < q ∧
      Exact (Float.ofNat k / Float.ofNat n) z ∧ Rounded (p / q) z := by
  obtain ⟨p, hp, hround⟩ := rounded_ofNat hk
  obtain ⟨q, hq, htotal⟩ := rounded_ofNat hn'
  have hpos : 0 < q := htotal.pos (by exact_mod_cast hn)
  obtain ⟨z, hz, hquotient⟩ :=
    hp.rounded_div hq (hround.isCount hk) (htotal.isCount hn') hpos
  exact ⟨p, q, z, hround, htotal, hpos, hz, hquotient⟩

theorem zero_le_quotient {k n : Nat} (hk : k < 2 ^ 64) (hn : 0 < n) (hn' : n < 2 ^ 64) :
    0 ≤ Float.ofNat k / Float.ofNat n := by
  obtain ⟨p, q, z, -, -, -, hz, hquotient⟩ := rounded_quotient hk hn hn'
  exact (exact_zero.le_iff hz).mpr hquotient.nonneg

theorem quotient_le_quotient {k k' n : Nat} (hk : k ≤ k') (hk' : k' < 2 ^ 64) (hn : 0 < n)
    (hn' : n < 2 ^ 64) : Float.ofNat k / Float.ofNat n ≤ Float.ofNat k' / Float.ofNat n := by
  obtain ⟨p, q, z, hp, hq, hpos, hz, hquotient⟩ := rounded_quotient (hk.trans_lt hk') hn hn'
  obtain ⟨p', q', z', hp', hq', -, hz', hquotient'⟩ := rounded_quotient hk' hn hn'
  obtain rfl : q = q' := hq.unique hq'
  have hle : p ≤ p' := hp.le_of_le hp' (by exact_mod_cast hk)
  rw [hz.le_iff hz']
  exact hquotient.le_of_le hquotient' (div_le_div_of_nonneg_right hle hpos.le)

end CycleCount.Binary64
