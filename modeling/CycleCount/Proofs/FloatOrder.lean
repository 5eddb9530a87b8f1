import Mathlib

/-! The order of floating point numbers. What is a number has a place in a linear
order, zeros of either sign the same; what is none stands below all places and
compares with nothing. -/

namespace CycleCount.Binary64

open Float.Model Float.Model.UnpackedFloat

/-- A place in the order: sign and kind come first, then the exponent, then the
mantissa. -/
def rung (kind e m : ℤ) : WithBot (ℤ ×ₗ ℤ ×ₗ ℤ) :=
  ((toLex (kind, toLex (e, m)) : ℤ ×ₗ ℤ ×ₗ ℤ) : WithBot (ℤ ×ₗ ℤ ×ₗ ℤ))

def place : UnpackedFloat → WithBot (ℤ ×ₗ ℤ ×ₗ ℤ)
  | .notANumber => ⊥
  | .infinity .negative => rung (-2) 0 0
  | .finite .negative m e _ => rung (-1) (-e) (-m)
  | .zero _ => rung 0 0 0
  | .finite .positive m e _ => rung 1 e m
  | .infinity .positive => rung 2 0 0

theorem rung_lt_rung_iff {k l e f m n : ℤ} :
    rung k e m < rung l f n ↔ k < l ∨ k = l ∧ (e < f ∨ e = f ∧ m < n) := by
  simp only [rung, WithBot.coe_lt_coe, Prod.Lex.toLex_lt_toLex]

theorem cmp_rung (k l e f m n : ℤ) :
    cmp (rung k e m) (rung l f n) = (compare k l).then ((compare e f).then (compare m n)) := by
  simp only [cmp, cmpUsing, rung_lt_rung_iff, Ordering.then, compare, compareOfLessAndEq]
  split_ifs <;> first | rfl | omega

theorem compare_natCast (m n : ℕ) : compare (m : ℤ) n = compare m n := by
  simp only [compare, compareOfLessAndEq, Int.ofNat_lt, Int.ofNat_inj]

theorem swap_then (e f m n : ℤ) :
    ((compare e f).then (compare m n)).swap = (compare (-e) (-f)).then (compare (-m) (-n)) := by
  simp only [Ordering.then, Ordering.swap, compare, compareOfLessAndEq]
  split_ifs <;> first | rfl | omega

theorem place_eq_bot_iff {x : UnpackedFloat} : place x = ⊥ ↔ x = .notANumber := by
  rcases x with (_ | _) | _ | _ | ⟨(_ | _), m, e, _⟩ <;> simp [place, rung]

theorem compare_eq_cmp {x y : UnpackedFloat} (hx : place x ≠ ⊥) (hy : place y ≠ ⊥) :
    x.compare y = some (cmp (place x) (place y)) := by
  rw [Ne, place_eq_bot_iff] at hx hy
  rcases x with (_ | _) | _ | _ | ⟨(_ | _), m, e, _⟩ <;>
    rcases y with (_ | _) | _ | _ | ⟨(_ | _), n, f, _⟩ <;>
    first
    | contradiction
    | simp only [UnpackedFloat.compare, place, cmp_rung, ← compare_natCast, swap_then]
      rfl

theorem compare_eq_none {x y : UnpackedFloat} (h : place x = ⊥ ∨ place y = ⊥) :
    x.compare y = none := by
  simp only [place_eq_bot_iff] at h
  rcases h with rfl | rfl
  · rfl
  · cases x <;> rfl

def height (x : Float) : WithBot (ℤ ×ₗ ℤ ×ₗ ℤ) := place x.toModel.unpack

theorem height_ne_bot_iff {x : Float} : height x ≠ ⊥ ↔ x.isNaN = false := by
  rw [height, Ne, place_eq_bot_iff]
  change _ ↔ x.toModel.unpack.isNaN = false
  cases x.toModel.unpack <;> simp [UnpackedFloat.isNaN]

section Order

variable {x y z : Float}

theorem compare_eq_some_iff {o : Ordering} :
    x.toModel.unpack.compare y.toModel.unpack = some o ↔
      height x ≠ ⊥ ∧ height y ≠ ⊥ ∧ cmp (height x) (height y) = o := by
  by_cases hx : height x = ⊥
  · rw [compare_eq_none (Or.inl hx)]
    simp [hx]
  by_cases hy : height y = ⊥
  · rw [compare_eq_none (Or.inr hy)]
    simp [hy]
  rw [compare_eq_cmp hx hy, Option.some_inj]
  exact ⟨fun h => ⟨hx, hy, h⟩, fun h => h.2.2⟩

theorem le_iff_height : x ≤ y ↔ height x ≠ ⊥ ∧ height x ≤ height y := by
  change decide ((x.toModel.unpack.compare y.toModel.unpack).any (·.isLE) = true) = true ↔ _
  simp only [decide_eq_true_iff, Option.any_eq_true, compare_eq_some_iff]
  constructor
  · rintro ⟨o, ⟨hx, hy, rfl⟩, hle⟩
    rw [Ordering.isLE_iff_ne_gt, cmp_eq_gt_iff, not_lt] at hle
    exact ⟨hx, hle⟩
  · rintro ⟨hx, hle⟩
    refine ⟨_, ⟨hx, ne_bot_of_le_ne_bot hx hle, rfl⟩, ?_⟩
    rwa [Ordering.isLE_iff_ne_gt, cmp_eq_gt_iff, not_lt]

theorem lt_iff_height : x < y ↔ height x ≠ ⊥ ∧ height x < height y := by
  change decide ((x.toModel.unpack.compare y.toModel.unpack == some .lt) = true) = true ↔ _
  rw [decide_eq_true_iff, beq_iff_eq, compare_eq_some_iff, cmp_eq_lt_iff]
  exact ⟨fun ⟨hx, _, hlt⟩ => ⟨hx, hlt⟩, fun ⟨hx, hlt⟩ => ⟨hx, ne_bot_of_gt hlt, hlt⟩⟩

theorem beq_iff_height : (x == y) = true ↔ height x ≠ ⊥ ∧ height x = height y := by
  change (x.toModel.unpack.compare y.toModel.unpack == some .eq) = true ↔ _
  rw [beq_iff_eq, compare_eq_some_iff, cmp_eq_eq_iff]
  exact ⟨fun ⟨hx, _, heq⟩ => ⟨hx, heq⟩, fun ⟨hx, heq⟩ => ⟨hx, heq ▸ hx, heq⟩⟩

theorem le_trans_float (hxy : x ≤ y) (hyz : y ≤ z) : x ≤ z := by
  rw [le_iff_height] at hxy hyz ⊢
  exact ⟨hxy.1, hxy.2.trans hyz.2⟩

end Order
end CycleCount.Binary64
