import CycleCount.Functions.Report
import CycleCount.Proofs.Binary64
import CycleCount.Proofs.FloatOrder

/-! The total order of floating-point values. Below the sign the bits of a number,
read as one natural number, grow with its place: the order of numbers is the order
of their signed magnitudes. The key refines it to an order in which different
values never tie, with negative zero before zero and NaN last. -/

namespace CycleCount.Binary64

open Float.Model Float.Model.UnpackedFloat

def magnitude (x : Float) : Nat := x.toBits.toNat % 2 ^ 63

def signOf (x : Float) : Sign := if x.toBits.toNat < 2 ^ 63 then .positive else .negative

def signed (s : Sign) (n : Nat) : ℤ :=
  match s with
  | .positive => n
  | .negative => -n

section Fields

variable (x : Float)

theorem toNat_unpackMantissa :
    (@unpackMantissa Format.binary64 x.toModel.toBits.toBitVec).toNat = magnitude x % 2 ^ 52 := by
  have hbits : (@unpackMantissa Format.binary64 x.toModel.toBits.toBitVec).toNat =
      x.toBits.toNat % 2 ^ 52 := by
    simp [unpackMantissa, Format.binary64, Float.toBits]
  rw [hbits, magnitude]
  omega

theorem toNat_unpackExponent :
    (@unpackExponent Format.binary64 x.toModel.toBits.toBitVec).toNat = magnitude x / 2 ^ 52 := by
  have hbits : (@unpackExponent Format.binary64 x.toModel.toBits.toBitVec).toNat =
      x.toBits.toNat / 2 ^ 52 % 2 ^ 11 := by
    simp [unpackExponent, Format.binary64, Nat.shiftRight_eq_div_pow, Float.toBits]
  rw [hbits, magnitude]
  omega

theorem ofBitVec_unpackSign :
    Sign.ofBitVec (@unpackSign Format.binary64 x.toModel.toBits.toBitVec) = signOf x := by
  have hbits : (@unpackSign Format.binary64 x.toModel.toBits.toBitVec).toNat =
      x.toBits.toNat / 2 ^ 63 % 2 := by
    simp [unpackSign, Format.binary64, Nat.shiftRight_eq_div_pow, Float.toBits]
  have hlt : x.toBits.toNat < 2 ^ 64 := x.toBits.toNat_lt
  have hzero : @unpackSign Format.binary64 x.toModel.toBits.toBitVec = 0#1 ↔
      x.toBits.toNat < 2 ^ 63 := by
    rw [← BitVec.toNat_inj, hbits, BitVec.toNat_ofNat]
    omega
  simp only [Sign.ofBitVec, signOf, hzero]

end Fields

/-- How bits below the sign spell a kind, an exponent and a mantissa. Only full
mantissas have a leading bit that is not written. -/
inductive Spells (bits : Nat) : ℤ → ℤ → ℤ → Prop
  | zero : bits = 0 → Spells bits 0 0 0
  | small : 0 < bits → bits < 2 ^ 52 → Spells bits 1 (-1074) bits
  | full : 2 ^ 52 ≤ bits → bits < 2047 * 2 ^ 52 →
      Spells bits 1 (bits / 2 ^ 52 - 1075) (2 ^ 52 + bits % 2 ^ 52)
  | infinite : bits = 2047 * 2 ^ 52 → Spells bits 2 0 0

theorem Spells.le {a : Nat} {k e m : ℤ} (h : Spells a k e m) : a ≤ 2047 * 2 ^ 52 := by
  cases h <;> omega

def signedRung (s : Sign) (k e m : ℤ) : WithBot (ℤ ×ₗ ℤ ×ₗ ℤ) :=
  match s with
  | .positive => rung k e m
  | .negative => rung (-k) (-e) (-m)

theorem place_zero (s : Sign) : place (.zero s) = signedRung s 0 0 0 := by
  cases s <;> rfl

theorem place_finite (s : Sign) (m : Nat) (e : Int) (h : 0 < m) :
    place (.finite s m e h) = signedRung s 1 e m := by
  cases s <;> rfl

theorem place_infinity (s : Sign) : place (.infinity s) = signedRung s 2 0 0 := by
  cases s <;> rfl

theorem height_cases (x : Float) :
    x.toBits.toNat = 2047 * 2 ^ 52 + 2 ^ 51 ∧ height x = ⊥ ∨
      ∃ k e m, Spells (magnitude x) k e m ∧ height x = signedRung (signOf x) k e m := by
  have hlt : magnitude x < 2 ^ 63 := Nat.mod_lt _ (by decide)
  have hspecial : @unpackExponent Format.binary64 x.toModel.toBits.toBitVec = -1#_ ↔
      magnitude x / 2 ^ 52 = 2047 := by
    rw [← BitVec.toNat_inj, toNat_unpackExponent]
    rfl
  have hsmall : @unpackExponent Format.binary64 x.toModel.toBits.toBitVec = 0#_ ↔
      magnitude x / 2 ^ 52 = 0 := by
    rw [← BitVec.toNat_inj, toNat_unpackExponent]
    rfl
  have hround : @unpackMantissa Format.binary64 x.toModel.toBits.toBitVec = 0#_ ↔
      magnitude x % 2 ^ 52 = 0 := by
    rw [← BitVec.toNat_inj, toNat_unpackMantissa]
    rfl
  have hfull : (1#1 ++ @unpackMantissa Format.binary64 x.toModel.toBits.toBitVec).toNat =
      2 ^ 52 + magnitude x % 2 ^ 52 := toNat_unpackMantissa x ▸ toNat_one_append _
  change _ ∧ place (UnpackedFloat.unpack Format.binary64 x.toModel.toBits.toBitVec) = ⊥ ∨
    ∃ k e m, _ ∧ place (UnpackedFloat.unpack Format.binary64 x.toModel.toBits.toBitVec) = _
  rw [UnpackedFloat.unpack, ofBitVec_unpackSign]
  -- The cases are those of `unpack`: infinity, NaN, zero, a small and a full mantissa.
  split_ifs with hlast hmantissa hfirst hmantissa
  · rw [hspecial] at hlast
    rw [hround] at hmantissa
    exact .inr ⟨2, 0, 0, .infinite (by omega), place_infinity _⟩
  · have hbits : x.toBits.toNat = (packedNaN Format.binary64).toNat :=
      congrArg BitVec.toNat (x.toModel.valid.eq_packedNaN hlast hmantissa)
    exact .inl ⟨hbits, rfl⟩
  · rw [hsmall] at hfirst
    rw [hround] at hmantissa
    exact .inr ⟨0, 0, 0, .zero (by omega), place_zero _⟩
  · rw [hsmall] at hfirst
    rw [hround] at hmantissa
    have hsame : magnitude x % 2 ^ 52 = magnitude x := by omega
    refine .inr ⟨_, _, _, ?_, place_finite ..⟩
    rw [toNat_unpackMantissa, toNat_unpackExponent, hfirst, hsame]
    exact .small (by omega) (by omega)
  · rw [hspecial] at hlast
    rw [hsmall] at hfirst
    refine .inr ⟨_, _, _, ?_, place_finite ..⟩
    rw [hfull, toNat_unpackExponent]
    exact .full (by omega) (by omega)

/-- Places compare as the bits that spell them, since an exponent stands above its
mantissa there too; a sign turns both around. -/
theorem Spells.lt_iff {a b : Nat} {k l e f m n : ℤ} (ha : Spells a k e m)
    (hb : Spells b l f n) (s t : Sign) :
    signedRung s k e m < signedRung t l f n ↔ signed s a < signed t b := by
  cases s <;> cases t <;>
    simp only [signedRung, signed, rung_lt_rung_iff] <;>
    cases ha <;> cases hb <;> omega

theorem lt_iff_signed {x y : Float} (hx : x.isNaN = false) (hy : y.isNaN = false) :
    x < y ↔ signed (signOf x) (magnitude x) < signed (signOf y) (magnitude y) := by
  have hx' := height_ne_bot_iff.mpr hx
  have hy' := height_ne_bot_iff.mpr hy
  obtain ⟨-, hbot⟩ | ⟨k, e, m, hspells, hheight⟩ := height_cases x
  · exact absurd hbot hx'
  obtain ⟨-, hbot⟩ | ⟨l, f, n, hspells', hheight'⟩ := height_cases y
  · exact absurd hbot hy'
  rw [lt_iff_height, hheight, hheight', hspells.lt_iff hspells', ← hheight]
  exact and_iff_right hx'

theorem magnitude_le_of_isNaN {x : Float} (h : x.isNaN = false) : magnitude x ≤ 2047 * 2 ^ 52 := by
  obtain ⟨-, hbot⟩ | ⟨k, e, m, hspells, -⟩ := height_cases x
  · exact absurd hbot (height_ne_bot_iff.mpr h)
  · exact hspells.le

theorem toBits_of_isNaN {x : Float} (h : x.isNaN = true) :
    x.toBits.toNat = 2047 * 2 ^ 52 + 2 ^ 51 := by
  obtain ⟨hbits, -⟩ | ⟨k, e, m, -, hheight⟩ := height_cases x
  · exact hbits
  · have hne : height x ≠ ⊥ := by
      rw [hheight]
      cases signOf x <;> exact WithBot.coe_ne_bot
    rw [height_ne_bot_iff.mp hne] at h
    cases h

end CycleCount.Binary64

namespace CycleCount

open Binary64

/-- The total order of IEEE 754, where all NaN are one positive value: as numbers
where these differ, negative zero before zero, numbers before NaN. -/
def TotallyLE (x y : Float) : Prop :=
  x < y ∨ x = y ∨ x = -0.0 ∧ y = 0.0 ∨ x.isNaN = false ∧ y.isNaN = true

theorem totalOrderKey_injective : Function.Injective totalOrderKey := by
  intro x y h
  have hx : x.toBits.toNat < 2 ^ 64 := x.toBits.toNat_lt
  have hy : y.toBits.toNat < 2 ^ 64 := y.toBits.toNat_lt
  have hbits : x.toBits.toNat = y.toBits.toNat := by
    simp only [totalOrderKey, UInt64.size] at h
    split_ifs at h <;> omega
  obtain ⟨⟨xbits, _⟩⟩ := x
  obtain ⟨⟨ybits, _⟩⟩ := y
  cases UInt64.toNat_inj.mp hbits
  rfl

theorem totalOrderKey_cases (x : Float) :
    signOf x = .positive ∧ totalOrderKey x = magnitude x ∨
      signOf x = .negative ∧ totalOrderKey x = -1 - magnitude x := by
  have hx : x.toBits.toNat < 2 ^ 64 := x.toBits.toNat_lt
  by_cases hsign : x.toBits.toNat < 2 ^ 63
  · have hkey : totalOrderKey x = x.toBits.toNat := if_pos hsign
    refine .inl ⟨if_pos hsign, ?_⟩
    rw [hkey, magnitude, Nat.mod_eq_of_lt hsign]
  · have hkey : totalOrderKey x = 2 ^ 63 - 1 - x.toBits.toNat := if_neg hsign
    refine .inr ⟨if_neg hsign, ?_⟩
    rw [hkey, magnitude]
    omega

theorem totalOrderKey_le_iff_of_isNaN {x y : Float} (hx : x.isNaN = false) (hy : y.isNaN = false) :
    totalOrderKey x ≤ totalOrderKey y ↔ x < y ∨ x = y ∨ x = -0.0 ∧ y = 0.0 := by
  have heq : x = y ↔ totalOrderKey x = totalOrderKey y := totalOrderKey_injective.eq_iff.symm
  have hnegative : x = -0.0 ↔ totalOrderKey x = -1 := by
    have hkey : totalOrderKey (-0.0) = -1 := by decide
    rw [← hkey, totalOrderKey_injective.eq_iff]
  have hzero : y = 0.0 ↔ totalOrderKey y = 0 := by
    have hkey : totalOrderKey 0.0 = 0 := by decide
    rw [← hkey, totalOrderKey_injective.eq_iff]
  rw [lt_iff_signed hx hy, heq, hnegative, hzero]
  obtain ⟨hsign, hkey⟩ | ⟨hsign, hkey⟩ := totalOrderKey_cases x <;>
    obtain ⟨hsign', hkey'⟩ | ⟨hsign', hkey'⟩ := totalOrderKey_cases y <;>
    simp only [hsign, hsign', signed] <;> omega

theorem totalOrderKey_lt_of_isNaN {x y : Float} (hx : x.isNaN = false) (hy : y.isNaN = true) :
    totalOrderKey x < totalOrderKey y := by
  have hlast : totalOrderKey y = 2047 * 2 ^ 52 + 2 ^ 51 := by
    rw [totalOrderKey, toBits_of_isNaN hy]
    rfl
  have hbelow := magnitude_le_of_isNaN hx
  obtain ⟨-, hkey⟩ | ⟨-, hkey⟩ := totalOrderKey_cases x <;> omega

theorem totalOrderKey_le_iff {x y : Float} :
    totalOrderKey x ≤ totalOrderKey y ↔ TotallyLE x y := by
  have hlt : x < y → x.isNaN = false := fun h => height_ne_bot_iff.mp (lt_iff_height.mp h).1
  unfold TotallyLE
  cases hx : x.isNaN <;> cases hy : y.isNaN
  · rw [totalOrderKey_le_iff_of_isNaN hx hy]
    simp
  · simp [(totalOrderKey_lt_of_isNaN hx hy).le]
  · refine iff_of_false (not_le.mpr (totalOrderKey_lt_of_isNaN hy hx)) ?_
    rintro (h | rfl | ⟨rfl, -⟩ | ⟨h, -⟩)
    · exact Bool.noConfusion (hx.symm.trans (hlt h))
    · exact Bool.noConfusion (hx.symm.trans hy)
    · exact absurd hx (by decide)
    · cases h
  · have hsame : x = y := totalOrderKey_injective <| by
      rw [totalOrderKey, totalOrderKey, toBits_of_isNaN hx, toBits_of_isNaN hy]
    simp [hsame]

section Sorting

structure Ascends (sorted xs : List Float) : Prop where
  perm : sorted.Perm xs
  pairwise : sorted.Pairwise TotallyLE

/-- Entries that are in order both ways are the same value, so that there is one
ascending list for all arrangements. -/
theorem Ascends.eq_iff_perm {sorted sorted' xs ys : List Float} (hx : Ascends sorted xs)
    (hy : Ascends sorted' ys) : sorted = sorted' ↔ xs.Perm ys := by
  constructor
  · rintro rfl
    exact hx.perm.symm.trans hy.perm
  · intro h
    have hperm : sorted.Perm sorted' := hx.perm.trans (h.trans hy.perm.symm)
    refine hperm.eq_of_pairwise (fun a b _ _ hab hba => ?_) hx.pairwise hy.pairwise
    rw [← totalOrderKey_le_iff] at hab hba
    exact totalOrderKey_injective (le_antisymm hab hba)

theorem ascends_sortedTotally (xs : List Float) : Ascends (sortedTotally xs) xs := by
  have hsorted : (sortedTotally xs).Pairwise fun a b =>
      decide (totalOrderKey a ≤ totalOrderKey b) = true :=
    List.pairwise_mergeSort (fun a b c => by simpa using le_trans)
      (fun a b => by simpa using le_total _ _) xs
  exact ⟨List.mergeSort_perm _ _,
    hsorted.imp fun h => totalOrderKey_le_iff.mp (decide_eq_true_iff.mp h)⟩

end Sorting
end CycleCount
