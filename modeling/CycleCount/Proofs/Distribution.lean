import CycleCount.Proofs.MiddleHalf
import CycleCount.Statistics.Ecdf

/-! The steps of an empirical distribution. The runs of equal samples in ascending
order are the different samples, and what was read up to the end of a run are the
samples not above it. -/

namespace CycleCount

open IntegerSample (toInt toInt_injective toInt_le_toInt)

section Runs

variable {α : Type} [BEq α] [LawfulBEq α]

theorem mem_runEndsFrom (a x : α) (seen : Nat) (ys : List α) :
    a ∈ (runEndsFrom x seen ys).map (·.1) ↔ a ∈ x :: ys := by
  induction ys generalizing x seen with
  | nil => simp [runEndsFrom]
  | cons y ys ih =>
    rw [runEndsFrom]
    split_ifs with hy
    · rw [ih, eq_of_beq hy]
      simp
    · rw [List.map_cons, List.mem_cons, ih, ← List.mem_cons]

variable [LE α] [IntegerSample α]

theorem lt_of_le_of_beq {x y : α} (hle : toInt x ≤ toInt y) (hne : ¬(y == x) = true) :
    toInt x < toInt y :=
  lt_of_le_of_ne hle fun heq => hne (beq_iff_eq.mpr (toInt_injective heq.symm))

theorem ascending_runEndsFrom {x : α} {ys : List α} (seen : Nat)
    (h : (x :: ys).Pairwise fun a b => toInt a ≤ toInt b) :
    ((runEndsFrom x seen ys).map (·.1)).Pairwise fun a b => toInt a < toInt b := by
  induction ys generalizing x seen with
  | nil => exact List.pairwise_singleton _ x
  | cons y ys ih =>
    obtain ⟨hx, htail⟩ := List.pairwise_cons.mp h
    rw [runEndsFrom]
    split_ifs with hy
    · exact ih (seen + 1) (eq_of_beq hy ▸ htail)
    · have hxy := lt_of_le_of_beq (hx y List.mem_cons_self) hy
      refine List.pairwise_cons.mpr ⟨fun a ha => ?_, ih (seen + 1) htail⟩
      rcases List.mem_cons.mp ((mem_runEndsFrom a y (seen + 1) ys).mp ha) with rfl | ha
      · exact hxy
      · exact hxy.trans_le ((List.pairwise_cons.mp htail).1 a ha)

end Runs

section Counts

variable {α : Type} [LE α] [DecidableLE α]

def countUpTo (samples : List α) (x : α) : Nat := samples.countP fun y => y ≤ x

theorem countUpTo_eq_of_perm {samples samples' : List α} (h : samples.Perm samples') (x : α) :
    countUpTo samples x = countUpTo samples' x := h.countP_eq _

variable [IntegerSample α]

theorem countUpTo_cons_of_le {x y : α} (h : toInt y ≤ toInt x) (ys : List α) :
    countUpTo (y :: ys) x = countUpTo ys x + 1 :=
  List.countP_cons_of_pos (decide_eq_true (toInt_le_toInt.mp h))

theorem countUpTo_eq_zero {x : α} {ys : List α} (h : ∀ y ∈ ys, toInt x < toInt y) :
    countUpTo ys x = 0 := by
  refine List.countP_eq_zero.mpr fun y hy hle => ?_
  have := toInt_le_toInt.mpr (of_decide_eq_true hle)
  have := h y hy
  omega

theorem countUpTo_mono (samples : List α) {a b : α} (h : toInt a ≤ toInt b) :
    countUpTo samples a ≤ countUpTo samples b := by
  refine List.countP_mono_left fun y _ hy => decide_eq_true (toInt_le_toInt.mp ?_)
  exact (toInt_le_toInt.mpr (of_decide_eq_true hy)).trans h

theorem countUpTo_lt {samples : List α} {a b : α} (h : toInt a < toInt b) (hb : b ∈ samples) :
    countUpTo samples a < countUpTo samples b := by
  obtain ⟨front, back, rfl⟩ := List.append_of_mem hb
  have hfront := countUpTo_mono front h.le
  have hback := countUpTo_mono back h.le
  have hcounted := countUpTo_cons_of_le (le_refl (toInt b)) back
  have hskipped : countUpTo (b :: back) a = countUpTo back a :=
    List.countP_cons_of_neg fun hle => by
      have := toInt_le_toInt.mpr (of_decide_eq_true hle)
      omega
  simp only [countUpTo, List.countP_append] at *
  omega

theorem countUpTo_eq_length {samples : List α} {x : α} (h : ∀ y ∈ samples, toInt y ≤ toInt x) :
    countUpTo samples x = samples.length :=
  List.countP_eq_length.mpr fun y hy => decide_eq_true (toInt_le_toInt.mp (h y hy))

variable [BEq α] [LawfulBEq α]

theorem count_runEndsFrom {x : α} {ys : List α} {seen : Nat}
    (h : (x :: ys).Pairwise fun a b => toInt a ≤ toInt b) {stop : α × Nat}
    (hstop : stop ∈ runEndsFrom x seen ys) : stop.2 = seen + countUpTo ys stop.1 := by
  induction ys generalizing x seen with
  | nil =>
    rw [runEndsFrom, List.mem_singleton] at hstop
    rw [hstop]
    rfl
  | cons y ys ih =>
    obtain ⟨hx, htail⟩ := List.pairwise_cons.mp h
    have hreached {z : α} (hz : z ∈ y :: ys) : toInt y ≤ toInt z := by
      rcases List.mem_cons.mp hz with rfl | hz
      · exact le_refl _
      · exact (List.pairwise_cons.mp htail).1 z hz
    have hstep (hmem : stop ∈ runEndsFrom y (seen + 1) ys) :
        stop.2 = seen + countUpTo (y :: ys) stop.1 := by
      have hy := hreached ((mem_runEndsFrom stop.1 y (seen + 1) ys).mp (List.mem_map_of_mem hmem))
      rw [ih htail hmem, countUpTo_cons_of_le hy]
      omega
    rw [runEndsFrom] at hstop
    split_ifs at hstop with hy
    · rw [← eq_of_beq hy] at hstop
      exact hstep hstop
    · rcases List.mem_cons.mp hstop with rfl | hstop
      · have hxy := lt_of_le_of_beq (hx y List.mem_cons_self) hy
        rw [countUpTo_eq_zero fun z hz => hxy.trans_le (hreached hz), Nat.add_zero]
      · exact hstep hstop

end Counts

section Support

variable {α : Type} [LE α] [IntegerSample α]

structure IsSupport (samples support : List α) : Prop where
  ascending : support.Pairwise fun a b => toInt a < toInt b
  mem_iff (x : α) : x ∈ support ↔ x ∈ samples

namespace IsSupport

variable {samples support : List α}

theorem of_perm {samples' : List α} (h : IsSupport samples support)
    (hperm : samples.Perm samples') : IsSupport samples' support :=
  ⟨h.ascending, fun x => (h.mem_iff x).trans hperm.mem_iff⟩

theorem unique {support' : List α} (h : IsSupport samples support)
    (h' : IsSupport samples support') : support = support' := by
  have hne {a b : α} (hlt : toInt a < toInt b) : a ≠ b := by
    rintro rfl
    exact lt_irrefl _ hlt
  have hsame (x : α) : x ∈ support ↔ x ∈ support' := (h.mem_iff x).trans (h'.mem_iff x).symm
  have hperm : support.Perm support' :=
    (List.perm_ext_iff_of_nodup (h.ascending.imp hne) (h'.ascending.imp hne)).mpr hsame
  exact hperm.eq_of_pairwise (fun a b _ _ hab hba => absurd (hab.trans hba) (lt_irrefl _))
    h.ascending h'.ascending

theorem ne_nil (h : IsSupport samples support) (hne : samples ≠ []) : support ≠ [] := by
  rintro rfl
  obtain ⟨x, xs, rfl⟩ := List.exists_cons_of_ne_nil hne
  exact List.not_mem_nil ((h.mem_iff x).mpr List.mem_cons_self)

theorem le_getLast (h : IsSupport samples support) {last : α} (hlast : support.getLast? = some last)
    {x : α} (hx : x ∈ samples) : toInt x ≤ toInt last := by
  obtain ⟨front, rfl⟩ := List.getLast?_eq_some_iff.mp hlast
  rcases List.mem_append.mp ((h.mem_iff x).mpr hx) with hx | hx
  · exact ((List.pairwise_append.mp h.ascending).2.2 x hx last (List.mem_singleton_self last)).le
  · rw [List.mem_singleton.mp hx]

variable [DecidableLE α]

theorem counts_ascending (h : IsSupport samples support) :
    (support.map (countUpTo samples)).Pairwise (· < ·) :=
  List.pairwise_map.mpr (h.ascending.imp_of_mem fun _ hb hlt =>
    countUpTo_lt hlt ((h.mem_iff _).mp hb))

theorem getLast?_counts (h : IsSupport samples support) (hne : samples ≠ []) :
    (support.map (countUpTo samples)).getLast? = some samples.length := by
  have hlast := List.getLast?_eq_some_getLast (h.ne_nil hne)
  rw [List.getLast?_map, hlast, Option.map_some,
    countUpTo_eq_length fun x hx => h.le_getLast hlast hx]

end IsSupport

variable [DecidableLE α] [BEq α] [LawfulBEq α]

theorem runEnds_ascending {samples : List α} (hne : samples ≠ []) :
    ∃ support, IsSupport samples support ∧
      runEnds (ascending samples) = support.map fun x => (x, countUpTo samples x) := by
  have hperm := perm_ascending samples
  have hsorted : (ascending samples).Pairwise fun a b => toInt a ≤ toInt b :=
    (climbs_ascending samples).imp fun h => toInt_le_toInt.mpr (value_le_value.mp h)
  obtain ⟨x, xs, hcase⟩ := List.exists_cons_of_ne_nil (ascending_ne_nil hne)
  rw [hcase] at hperm hsorted ⊢
  have hsupport : IsSupport (x :: xs) ((runEnds (x :: xs)).map (·.1)) :=
    ⟨ascending_runEndsFrom 1 hsorted, fun a => mem_runEndsFrom a x 1 xs⟩
  refine ⟨_, hsupport.of_perm hperm, ?_⟩
  rw [List.map_map]
  refine (List.map_id _).symm.trans (List.map_congr_left fun stop hstop => Prod.ext rfl ?_)
  have hfirst : toInt x ≤ toInt stop.1 := by
    rcases List.mem_cons.mp ((hsupport.mem_iff stop.1).mp (List.mem_map_of_mem hstop)) with h | h
    · rw [h]
    · exact (List.pairwise_cons.mp hsorted).1 _ h
  calc stop.2 = 1 + countUpTo xs stop.1 := count_runEndsFrom hsorted hstop
    _ = countUpTo (x :: xs) stop.1 := by rw [countUpTo_cons_of_le hfirst, Nat.add_comm]
    _ = countUpTo samples stop.1 := countUpTo_eq_of_perm hperm _

end Support

namespace Ecdf

variable {α : Type} [LE α] [DecidableLE α] [IntegerSample α] [BEq α] [LawfulBEq α] [Sample α Float]

def stepAt (samples : List α) (x : α) : Float × Float :=
  (Sample.value x, Float.ofNat (countUpTo samples x) / Float.ofNat samples.length)

theorem exists_support {samples : List α} (hne : samples ≠ []) :
    ∃ support, IsSupport samples support ∧
      ofSamples? samples = some ⟨support.map (stepAt samples)⟩ := by
  obtain ⟨support, hsupport, hruns⟩ := runEnds_ascending hne
  refine ⟨support, hsupport, ?_⟩
  rw [ofSamples?, if_neg (by simpa using hne), hruns]
  simp only [List.map_map]
  rfl

/-- There is one step for each different sample, in ascending order, as high as the
fraction of samples not above it. The counts of these samples ascend to the number of
all. Drawn, the first step starts at height zero. -/
theorem steps_of_samples {samples : List α} (hne : samples ≠ []) :
    ∃ e support, ofSamples? samples = some e ∧ IsSupport samples support ∧
      e.points = support.map (fun x => (Sample.value x,
        Float.ofNat (countUpTo samples x) / Float.ofNat samples.length)) ∧
      (support.map (countUpTo samples)).Pairwise (· < ·) ∧
      (support.map (countUpTo samples)).getLast? = some samples.length ∧
      ∃ first, e.points.head? = some first ∧ e.stepPoints = (first.1, 0) :: e.points := by
  obtain ⟨support, hsupport, hpoints⟩ := exists_support hne
  refine ⟨_, support, hpoints, hsupport, rfl, hsupport.counts_ascending,
    hsupport.getLast?_counts hne, ?_⟩
  obtain ⟨x, xs, rfl⟩ := List.exists_cons_of_ne_nil (hsupport.ne_nil hne)
  exact ⟨stepAt samples x, rfl, rfl⟩

theorem steps_of_samples_signed :
    ∃ e, ofSamples? ([3, -1, 3] : List Int64) = some e ∧
      e.points = [(Sample.value (-1 : Int64), Float.ofNat 1 / Float.ofNat 3),
        (Sample.value (3 : Int64), Float.ofNat 3 / Float.ofNat 3)] := by
  obtain ⟨e, support, he, hsupport, hpoints, -⟩ :=
    steps_of_samples (List.cons_ne_nil (3 : Int64) [-1, 3])
  have hdistinct : IsSupport ([3, -1, 3] : List Int64) [-1, 3] := by
    refine ⟨by decide, fun x => ?_⟩
    simp only [List.mem_cons, List.not_mem_nil]
    tauto
  refine ⟨e, he, ?_⟩
  rw [hpoints, hsupport.unique hdistinct]
  rfl

end Ecdf
end CycleCount
