import CycleCount.Decimal.Binary
import CycleCount.Proofs.StepFunction
import Mathlib.Data.List.Nodup

/-! The values of a distribution ascend. They differ as long as no two samples round to
the same number, which samples up to `2 ^ 53` do not. -/

namespace CycleCount

open Binary64
open Float.Model Float.Model.UnpackedFloat

namespace Decimal.Quotient

theorem round_eq {q : Quotient} (hden : 0 < q.den) :
    q.round = (ExtendedMantissa.ofMantissaAndAccuracy (q.num / q.den)
      (accuracyOfFraction (q.num % q.den) q.den)).roundedMantissa := by
  rw [round, accuracyOfFraction]
  generalize q.num / q.den = whole
  generalize q.num % q.den = rest
  by_cases hrest : rest = 0
  · subst hrest
    rw [if_pos rfl]
    simp only [mul_zero]
    rw [if_pos hden]
    rfl
  · rw [if_neg hrest]
    rcases lt_trichotomy (2 * rest) q.den with hhalf | hhalf | hhalf
    · rw [Nat.compare_eq_lt.mpr hhalf]
      simp only [if_pos hhalf]
      rfl
    · rw [Nat.compare_eq_eq.mpr hhalf]
      simp only [hhalf, lt_irrefl, if_false]
      change _ = whole + whole % 2
      split_ifs <;> omega
    · rw [Nat.compare_eq_gt.mpr hhalf]
      simp only [if_neg hhalf.not_gt, gt_iff_lt, if_pos hhalf]
      rfl

theorem isNearest_round {q : Quotient} (hden : 0 < q.den) : IsNearest (q.num / q.den) q.round := by
  rw [round_eq hden]
  exact (stands_quotient q.num hden).isNearest

end Decimal.Quotient

namespace Binary64

/-- The nearest integer with a significand of 53 bits, the one with an even significand of two. -/
def stored (n : Nat) : Nat :=
  let place := 2 ^ (n.log2 - 52)
  Decimal.Quotient.round ⟨n, place⟩ * place

theorem rounded_stored (n : Nat) : Rounded n (stored n) := by
  rcases le_or_gt n.log2 52 with hshort | hlong
  · -- The last place is that of the units, so nothing is rounded off.
    have hlt : n < 2 ^ 53 :=
      Nat.lt_log2_self.trans_le (Nat.pow_le_pow_right (by norm_num) (by omega))
    have hstored : stored n = n := by
      simp [stored, Nat.sub_eq_zero_of_le hshort, Decimal.Quotient.round, Nat.mod_one]
    rw [hstored]
    exact rounded_natCast hlt
  · obtain ⟨k, hk⟩ := Nat.exists_eq_add_of_le hlong.le
    obtain ⟨hlow, hhigh⟩ := aligned_bounds hk
    have hnearest := Decimal.Quotient.isNearest_round (q := ⟨n, 2 ^ k⟩) (Nat.two_pow_pos k)
    rw [Nat.cast_pow, Nat.cast_two] at hnearest
    have hrounded := Rounded.scaled k ((le_div_iff₀ (by positivity)).mpr hlow)
      ((div_lt_iff₀ (by positivity)).mpr (by linarith)) hnearest
    rw [zpow_natCast, div_mul_cancel₀ _ (by positivity)] at hrounded
    rw [stored, hk, Nat.add_sub_cancel_left]
    exact_mod_cast hrounded

theorem stored_le_stored {m n : Nat} (h : m ≤ n) : stored m ≤ stored n := by
  exact_mod_cast (rounded_stored m).le_of_le (rounded_stored n) (by exact_mod_cast h)

theorem stored_of_le {n : Nat} (h : n ≤ 2 ^ 53) : stored n = n := by
  rcases h.lt_or_eq with hlt | rfl
  · exact_mod_cast (rounded_stored n).unique (rounded_natCast hlt)
  · rfl

theorem exact_stored (n : UInt64) : Exact n.toFloat (stored n.toNat) := by
  obtain ⟨y, hexact, hrounded⟩ := rounded_ofInt (x := n.toFloat) rfl n.toNat_lt
  rwa [(rounded_stored n.toNat).unique hrounded]

theorem toFloat_le_toFloat {a b : UInt64} :
    a.toFloat ≤ b.toFloat ↔ stored a.toNat ≤ stored b.toNat := by
  rw [(exact_stored a).le_iff (exact_stored b), Nat.cast_le]

theorem toFloat_lt_toFloat {a b : UInt64} :
    a.toFloat < b.toFloat ↔ stored a.toNat < stored b.toNat := by
  rw [(exact_stored a).lt_iff (exact_stored b), Nat.cast_lt]

end Binary64

namespace Ecdf

variable {samples support : List UInt64}

theorem values_of_support (samples support : List UInt64) :
    values ⟨support.map (stepAt samples)⟩ = support.map UInt64.toFloat :=
  List.map_map

theorem ascending_of_support (h : IsSupport samples support) :
    support.Pairwise fun a b => a.toNat < b.toNat :=
  h.ascending.imp fun hlt => Int.ofNat_lt.mp hlt

theorem strict_of_support_iff (h : IsSupport samples support) :
    (support.map UInt64.toFloat).Pairwise (· < ·) ↔
      ∀ a ∈ samples, ∀ b ∈ samples, stored a.toNat = stored b.toNat → a = b := by
  rw [List.pairwise_map]
  constructor
  · intro hpairs a ha b hb
    have hnodup : (support.map fun a => stored a.toNat).Nodup :=
      List.pairwise_map.mpr (hpairs.imp fun hlt => (toFloat_lt_toFloat.mp hlt).ne)
    exact List.inj_on_of_nodup_map hnodup ((h.mem_iff a).mpr ha) ((h.mem_iff b).mpr hb)
  · intro hdistinct
    refine (ascending_of_support h).imp_of_mem fun {a b} ha hb hlt => toFloat_lt_toFloat.mpr ?_
    refine (stored_le_stored hlt.le).lt_of_ne fun hsame => hlt.ne ?_
    rw [hdistinct a ((h.mem_iff a).mp ha) b ((h.mem_iff b).mp hb) hsame]

/-- Each value is the number nearest to a sample, one for each different sample, and the values
ascend. They are all different if and only if no two different samples have the same nearest
number, which samples up to `2 ^ 53` never have. -/
theorem values_ascending (hne : samples ≠ []) :
    ∃ e support, ofSamples? samples = some e ∧ IsSupport samples support ∧
      List.Forall₂ (fun value a => Exact value (stored a.toNat)) e.values support ∧
      e.values.Pairwise (· ≤ ·) ∧
      (e.values.Pairwise (· < ·) ↔
        ∀ a ∈ samples, ∀ b ∈ samples, stored a.toNat = stored b.toNat → a = b) ∧
      ((∀ a ∈ samples, a.toNat ≤ 2 ^ 53) → e.values.Pairwise (· < ·)) := by
  obtain ⟨support, hsupport, hpoints⟩ := exists_support hne
  have hstrict := strict_of_support_iff hsupport
  refine ⟨_, support, hpoints, hsupport, ?_⟩
  rw [values_of_support]
  refine ⟨?_, ?_, hstrict, fun hsmall => hstrict.mpr fun a ha b hb hsame => ?_⟩
  · rw [List.forall₂_map_left_iff, List.forall₂_same]
    exact fun a _ => exact_stored a
  · rw [List.pairwise_map]
    exact (ascending_of_support hsupport).imp fun hlt =>
      toFloat_le_toFloat.mpr (stored_le_stored hlt.le)
  · rw [stored_of_le (hsmall a ha), stored_of_le (hsmall b hb)] at hsame
    exact UInt64.toNat_inj.mp hsame

theorem values_ascending_apart :
    ∃ e, ofSamples? ([9007199254740994, 3, 9007199254740992] : List UInt64) = some e ∧
      e.values.Pairwise (· < ·) := by
  obtain ⟨e, support, he, -, -, -, hstrict, -⟩ :=
    values_ascending (List.cons_ne_nil (9007199254740994 : UInt64) [3, 9007199254740992])
  have hnodup : (([9007199254740994, 3, 9007199254740992] : List UInt64).map
      fun a => stored a.toNat).Nodup := by decide +kernel
  exact ⟨e, he, hstrict.mpr fun a ha b hb => List.inj_on_of_nodup_map hnodup ha hb⟩

theorem values_not_distinct :
    ∃ e, ofSamples? ([9007199254740992, 9007199254740993] : List UInt64) = some e ∧
      ¬e.values.Pairwise (· < ·) := by
  obtain ⟨support, hsupport, hpoints⟩ :=
    exists_support (List.cons_ne_nil (9007199254740992 : UInt64) [9007199254740993])
  refine ⟨_, hpoints, ?_⟩
  rw [values_of_support, strict_of_support_iff hsupport]
  intro hdistinct
  have hsame : stored 9007199254740992 = stored 9007199254740993 := by decide +kernel
  have hequal := hdistinct 9007199254740992 List.mem_cons_self 9007199254740993
    (List.mem_cons_of_mem _ List.mem_cons_self) hsame
  exact absurd hequal (by decide)

end Ecdf

end CycleCount
