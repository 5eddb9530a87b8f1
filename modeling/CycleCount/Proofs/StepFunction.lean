import CycleCount.Proofs.Distribution
import CycleCount.Proofs.FloatOrder
import CycleCount.Proofs.Retention

/-! Looking up an empirical distribution is counting: the step found by bisection is as high
as the fraction of samples that convert to a number not above the one looked up. -/

namespace CycleCount

open Binary64
open IntegerSample (toInt toInt_le_toInt)
open NearestSample (nearest_value)

section Bisection

variable {α : Type} {p : α → Bool}

def Partitioned (p : α → Bool) (xs : List α) : Prop :=
  xs.Pairwise fun a b => p b = true → p a = true

namespace Partitioned

theorem countP_of_pos {front back : List α} {x : α} (h : Partitioned p (front ++ x :: back))
    (hx : p x = true) : (front ++ x :: back).countP p = front.length + 1 + back.countP p := by
  have hfront : front.countP p = front.length :=
    List.countP_eq_length.mpr fun a ha =>
      (List.pairwise_append.mp h).2.2 a ha x List.mem_cons_self hx
  rw [List.countP_append, hfront, List.countP_cons_of_pos hx]
  omega

theorem countP_of_neg {front back : List α} {x : α} (h : Partitioned p (front ++ x :: back))
    (hx : ¬p x = true) : (front ++ x :: back).countP p = front.countP p := by
  have hback : back.countP p = 0 :=
    List.countP_eq_zero.mpr fun b hb hpb =>
      hx ((List.pairwise_cons.mp (List.pairwise_append.mp h).2.1).1 b hb hpb)
  rw [List.countP_append, List.countP_cons_of_neg hx, hback, Nat.add_zero]

theorem partitionPoint_eq {xs : List α} (h : Partitioned p xs) :
    partitionPoint p xs = xs.countP p := by
  fun_induction partitionPoint p xs with
  | case1 xs hback =>
    have hlength := congrArg List.length hback
    rw [List.length_drop, List.length_nil] at hlength
    obtain rfl : xs = [] := List.length_eq_zero_iff.mp (by omega)
    rfl
  | case2 xs x back hback hx ih =>
    have hsplit : xs.take (xs.length / 2) ++ x :: back = xs := by
      rw [← hback, List.take_append_drop]
    rw [← hsplit] at h
    have hcount := h.countP_of_pos hx
    rw [hsplit, List.length_take] at hcount
    rw [hcount, ih (List.pairwise_cons.mp (List.pairwise_append.mp h).2.1).2]
    omega
  | case3 xs x back hback hx ih =>
    have hsplit : xs.take (xs.length / 2) ++ x :: back = xs := by
      rw [← hback, List.take_append_drop]
    rw [← hsplit] at h
    have hcount := h.countP_of_neg hx
    rw [hsplit] at hcount
    rw [hcount, ih (List.pairwise_append.mp h).1]

theorem getElem_iff {xs : List α} (h : Partitioned p xs) {i : Nat} (hi : i < xs.length) :
    p xs[i] = true ↔ i < xs.countP p := by
  have hsplit : xs.take i ++ xs[i] :: xs.drop (i + 1) = xs := by
    rw [List.getElem_cons_drop, List.take_append_drop]
  have hlength : (xs.take i).length = i := List.length_take_of_le hi.le
  constructor
  · intro hx
    have hcount := (hsplit.symm ▸ h : Partitioned p _).countP_of_pos hx
    rw [hsplit, hlength] at hcount
    omega
  · contrapose
    intro hx
    have hcount := (hsplit.symm ▸ h : Partitioned p _).countP_of_neg hx
    rw [hsplit] at hcount
    have := List.countP_le_length (p := p) (l := xs.take i)
    omega

end Partitioned

end Bisection

namespace Ecdf

theorem evaluate_cases {e : Ecdf} {x : Float} (h : Partitioned (fun point => point.1 ≤ x) e.points) :
    (e.points.countP (fun point => point.1 ≤ x) = 0 ∧ e.evaluate x = 0) ∨
      ∃ i, ∃ hi : i < e.points.length,
        e.points.countP (fun point => point.1 ≤ x) = i + 1 ∧ e.evaluate x = e.points[i].2 := by
  rw [← h.partitionPoint_eq, evaluate]
  split
  · next hpoint => exact .inl ⟨hpoint, rfl⟩
  · next i hpoint =>
    have hi := partitionPoint_le (fun point => decide (point.1 ≤ x)) e.points
    exact .inr ⟨i, by omega, hpoint, rfl⟩

variable {α : Type} [Sample α Float]

def countNotAbove (samples : List α) (x : Float) : Nat :=
  samples.countP fun s => (Sample.value s : Float) ≤ x

theorem countNotAbove_mono (samples : List α) {x y : Float} (h : x ≤ y) :
    countNotAbove samples x ≤ countNotAbove samples y :=
  List.countP_mono_left fun _ _ hle => decide_eq_true (le_trans_float (of_decide_eq_true hle) h)

variable [LE α] [IntegerSample α] [NearestSample α]

theorem value_le_of_toInt_le {a b : α} (h : toInt a ≤ toInt b) :
    (Sample.value a : Float) ≤ Sample.value b :=
  (nearest_value a).le_of_le (nearest_value b) (by exact_mod_cast h)

variable {samples support : List α}

theorem partitioned_support (h : IsSupport samples support) (x : Float) :
    Partitioned (fun s => (Sample.value s : Float) ≤ x) support :=
  h.ascending.imp fun hlt hle => decide_eq_true
    (le_trans_float (value_le_of_toInt_le hlt.le) (of_decide_eq_true hle))

theorem le_getElem_iff (h : IsSupport samples support) {x : Float} {i : Nat}
    (hi : i < support.length) (hcount : countNotAbove support x = i + 1) {s : α}
    (hs : s ∈ samples) : s ≤ support[i] ↔ (Sample.value s : Float) ≤ x := by
  obtain ⟨j, hj, rfl⟩ := List.getElem_of_mem ((h.mem_iff s).mpr hs)
  have hbelow := (partitioned_support h x).getElem_iff hj
  rw [decide_eq_true_eq, ← countNotAbove, hcount] at hbelow
  have hascending := List.pairwise_iff_getElem.mp h.ascending
  rw [hbelow, ← toInt_le_toInt, Nat.lt_succ_iff]
  constructor
  · intro hle
    by_contra hlt
    exact absurd hle (not_le.mpr (hascending i j hi hj (not_le.mp hlt)))
  · intro hle
    rcases hle.lt_or_eq with hlt | rfl
    · exact (hascending j i hj hi hlt).le
    · exact le_rfl

variable [DecidableLE α]

theorem evaluate_of_support (h : IsSupport samples support) (x : Float) :
    evaluate ⟨support.map (stepAt samples)⟩ x =
      if countNotAbove samples x = 0 then 0
      else Float.ofNat (countNotAbove samples x) / Float.ofNat samples.length := by
  have hpart : Partitioned (fun point => point.1 ≤ x) (support.map (stepAt samples)) :=
    List.pairwise_map.mpr (partitioned_support h x)
  have hcounts : (support.map (stepAt samples)).countP (fun point => point.1 ≤ x) =
      countNotAbove support x := List.countP_map
  obtain ⟨hcount, hvalue⟩ | ⟨i, hi, hcount, hvalue⟩ := evaluate_cases (e := ⟨_⟩) hpart
  · rw [hcounts] at hcount
    have hnone : countNotAbove samples x = 0 :=
      List.countP_eq_zero.mpr fun s hs =>
        List.countP_eq_zero.mp hcount s ((h.mem_iff s).mpr hs)
    rw [hvalue, if_pos hnone]
  · -- The step found belongs to a sample, and no other is counted than those up to it.
    rw [hcounts] at hcount
    rw [List.length_map] at hi
    have hmem := (h.mem_iff _).mp (List.getElem_mem hi)
    have hcount' : countUpTo samples support[i] = countNotAbove samples x :=
      List.countP_congr fun s hs => by
        rw [decide_eq_true_eq, decide_eq_true_eq]
        exact le_getElem_iff h hi hcount hs
    have hpos : 0 < countNotAbove samples x :=
      List.countP_pos_iff.mpr ⟨_, hmem, decide_eq_true
        ((le_getElem_iff h hi hcount hmem).mp (toInt_le_toInt.mp le_rfl))⟩
    rw [hvalue, if_neg hpos.ne', ← hcount', List.getElem_map, stepAt]

variable [BEq α] [LawfulBEq α]

/-- The height looked up is the fraction of samples that convert to a number not above the one
looked up, and zero for want of such samples. It never falls. -/
theorem evaluate_counts {samples : List α} (hne : samples ≠ []) :
    ∃ e, ofSamples? samples = some e ∧
      (∀ x, e.evaluate x = if countNotAbove samples x = 0 then 0
        else Float.ofNat (countNotAbove samples x) / Float.ofNat samples.length) ∧
      (samples.length < 2 ^ 64 → ∀ x y, x ≤ y → e.evaluate x ≤ e.evaluate y) := by
  obtain ⟨support, hsupport, hpoints⟩ := exists_support hne
  refine ⟨_, hpoints, evaluate_of_support hsupport, fun hlength x y hle => ?_⟩
  have hpos : 0 < samples.length := List.length_pos_of_ne_nil hne
  have hmono := countNotAbove_mono samples hle
  have hbound : countNotAbove samples y ≤ samples.length := List.countP_le_length
  rw [evaluate_of_support hsupport, evaluate_of_support hsupport]
  split_ifs with hx hy hy
  · exact (exact_zero.le_iff exact_zero).mpr le_rfl
  · exact zero_le_quotient (hbound.trans_lt hlength) hpos hlength
  · omega
  · exact quotient_le_quotient hmono (hbound.trans_lt hlength) hpos hlength

theorem evaluate_counts_close :
    ∃ e, ofSamples? ([9007199254740993, 5, 9007199254740992] : List UInt64) = some e ∧
      e.evaluate (Sample.value (9007199254740992 : UInt64)) = Float.ofNat 3 / Float.ofNat 3 ∧
      e.evaluate (0 / 0) = 0 ∧ ∀ x y, x ≤ y → e.evaluate x ≤ e.evaluate y := by
  obtain ⟨e, he, hvalue, hmono⟩ :=
    evaluate_counts (List.cons_ne_nil (9007199254740993 : UInt64) [5, 9007199254740992])
  have hclose : countNotAbove ([9007199254740993, 5, 9007199254740992] : List UInt64)
      (Sample.value (9007199254740992 : UInt64)) = 3 := by decide +kernel
  have hnone : countNotAbove ([9007199254740993, 5, 9007199254740992] : List UInt64)
      (0 / 0) = 0 := by decide +kernel
  refine ⟨e, he, ?_, ?_, hmono (by simp)⟩
  · rw [hvalue, hclose]
    rfl
  · rw [hvalue, if_pos hnone]

end Ecdf

end CycleCount
