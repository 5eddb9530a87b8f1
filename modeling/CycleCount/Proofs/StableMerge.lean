import CycleCount.Proofs.Trend
import CycleCount.Proofs.FloatOrder

/-! Merging is a stable sort. An entry that settles passes only entries of a higher
level, so that entries of one level keep their order; averages that are numbers are
compared by such levels. -/

namespace CycleCount

open Binary64

section Settling

variable {α K : Type} [LinearOrder K] (level : α → K)

def belowBy (a b : α) : Bool := decide (level a < level b)

theorem settle_congr {below below' : α → α → Bool} {x : α} {ys : List α}
    (h : ∀ y ∈ ys, below x y = below' x y) : settle below x ys = settle below' x ys := by
  induction ys with
  | nil => rfl
  | cons y ys ih =>
    have htail := ih fun z hz => h z (List.mem_cons_of_mem y hz)
    rw [settle, settle, h y List.mem_cons_self, htail]

theorem settleAll_congr {below below' : α → α → Bool} {xs : List α}
    (h : ∀ a ∈ xs, ∀ b ∈ xs, below a b = below' a b) : settleAll below xs = settleAll below' xs := by
  have key : ∀ ys sorted : List α, ys ⊆ xs → sorted ⊆ xs →
      ys.foldl (fun sorted x => settle below x sorted) sorted =
        ys.foldl (fun sorted x => settle below' x sorted) sorted := by
    intro ys
    induction ys with
    | nil => exact fun _ _ _ => rfl
    | cons y ys ih =>
      intro sorted hys hsorted
      have hy := hys List.mem_cons_self
      have hstep : settle below y sorted = settle below' y sorted :=
        settle_congr fun z hz => h y hy z (hsorted hz)
      have hnext : settle below' y sorted ⊆ xs := fun z hz => by
        rcases List.mem_cons.mp ((settle_perm below' y sorted).mem_iff.mp hz) with rfl | hz
        · exact hy
        · exact hsorted hz
      rw [List.foldl_cons, List.foldl_cons, hstep]
      exact ih _ (fun z hz => hys (List.mem_cons_of_mem y hz)) hnext
  rw [settleAll, settleAll, key xs [] (List.Subset.refl xs) (List.nil_subset xs)]

theorem pairwise_settle {x : α} {ys : List α} (h : ys.Pairwise fun a b => level b ≤ level a) :
    (settle (belowBy level) x ys).Pairwise fun a b => level b ≤ level a := by
  induction ys with
  | nil => exact List.pairwise_singleton _ x
  | cons y ys ih =>
    obtain ⟨hy, hys⟩ := List.pairwise_cons.mp h
    rw [settle]
    split_ifs with hbelow
    · have hxy : level x < level y := of_decide_eq_true hbelow
      refine List.pairwise_cons.mpr ⟨fun z hz => ?_, ih hys⟩
      rcases List.mem_cons.mp ((settle_perm _ x ys).mem_iff.mp hz) with rfl | hz
      · exact hxy.le
      · exact hy z hz
    · have hyx : level y ≤ level x := not_lt.mp fun hlt => hbelow (decide_eq_true hlt)
      refine List.pairwise_cons.mpr ⟨fun z hz => ?_, h⟩
      rcases List.mem_cons.mp hz with rfl | hz
      · exact hyx
      · exact (hy z hz).trans hyx

theorem pairwise_settleAll (xs : List α) :
    (settleAll (belowBy level) xs).Pairwise fun a b => level a ≤ level b := by
  have key : ∀ sorted : List α, (sorted.Pairwise fun a b => level b ≤ level a) →
      (xs.foldl (fun sorted x => settle (belowBy level) x sorted) sorted).Pairwise
        fun a b => level b ≤ level a := by
    induction xs with
    | nil => exact fun _ h => h
    | cons x xs ih => exact fun _ h => ih _ (pairwise_settle level h)
  exact List.pairwise_reverse.mpr (key [] List.Pairwise.nil)

theorem filter_settle (k : K) (x : α) (ys : List α) :
    (settle (belowBy level) x ys).filter (fun a => level a = k) =
      (x :: ys).filter fun a => level a = k := by
  induction ys with
  | nil => rfl
  | cons y ys ih =>
    rw [settle]
    split_ifs with hbelow
    · have hxy : level x < level y := of_decide_eq_true hbelow
      rw [List.filter_cons, ih]
      by_cases hx : level x = k
      · have hy : level y ≠ k := hx ▸ hxy.ne'
        simp [hx, hy]
      · simp [List.filter_cons, hx]
    · rfl

theorem filter_settleAll (k : K) (xs : List α) :
    (settleAll (belowBy level) xs).filter (fun a => level a = k) = xs.filter fun a => level a = k := by
  have key : ∀ sorted : List α,
      (xs.foldl (fun sorted x => settle (belowBy level) x sorted) sorted).filter
          (fun a => level a = k) = (xs.reverse ++ sorted).filter fun a => level a = k := by
    induction xs with
    | nil => exact fun _ => rfl
    | cons x xs ih =>
      intro sorted
      rw [List.foldl_cons, ih, List.filter_append, filter_settle, ← List.filter_append,
        List.reverse_cons, List.append_assoc, List.singleton_append]
  rw [settleAll, List.filter_reverse, key [], List.append_nil, List.filter_reverse,
    List.reverse_reverse]

theorem settleAll_of_pairwise {xs : List α} (h : xs.Pairwise fun a b => level a ≤ level b) :
    settleAll (belowBy level) xs = xs := by
  have key : ∀ sorted : List α, ((sorted.reverse ++ xs).Pairwise fun a b => level a ≤ level b) →
      xs.foldl (fun sorted x => settle (belowBy level) x sorted) sorted = xs.reverse ++ sorted := by
    clear h
    induction xs with
    | nil => exact fun _ _ => rfl
    | cons x xs ih =>
      intro sorted h
      have hfront : settle (belowBy level) x sorted = x :: sorted := by
        cases sorted with
        | nil => rfl
        | cons y ys =>
          have hyx : level y ≤ level x :=
            (List.pairwise_append.mp h).2.2 y (by simp) x List.mem_cons_self
          rw [settle, belowBy, if_neg (by simpa using hyx)]
      rw [List.foldl_cons, hfront, ih (x :: sorted) (by simpa using h), List.reverse_cons,
        List.append_assoc, List.singleton_append]
  rw [settleAll, key [] h, List.append_nil, List.reverse_reverse]

end Settling

/-- The pairs of `input` by ascending average, those of one average as they stood. -/
structure SortedByAverage (input sorted : List (Float × Float)) : Prop where
  perm : sorted.Perm input
  ascending : sorted.Pairwise fun a b => pairAverage a ≤ pairAverage b
  stable : ∀ average : Float, sorted.filter (fun pair => pairAverage pair == average) =
    input.filter fun pair => pairAverage pair == average

def Averaged (pairs : List (Float × Float)) : Prop :=
  ∀ pair ∈ pairs, (pairAverage pair).isNaN = false

instance (pairs : List (Float × Float)) : Decidable (Averaged pairs) :=
  inferInstanceAs (Decidable (∀ pair ∈ pairs, _))

section Averages

variable {pairs : List (Float × Float)}

theorem Averaged.of_perm {pairs' : List (Float × Float)} (h : Averaged pairs)
    (hperm : pairs'.Perm pairs) : Averaged pairs' :=
  fun pair hpair => h pair (hperm.mem_iff.mp hpair)

theorem Averaged.height_ne_bot (h : Averaged pairs) {pair : Float × Float} (hpair : pair ∈ pairs) :
    height (pairAverage pair) ≠ ⊥ := height_ne_bot_iff.mpr (h pair hpair)

theorem Averaged.settleAll_eq (h : Averaged pairs) :
    settleAll (fun a b => pairAverage a < pairAverage b) pairs =
      settleAll (belowBy fun pair => height (pairAverage pair)) pairs := by
  refine settleAll_congr fun a ha b _ => decide_eq_decide.mpr ?_
  rw [lt_iff_height]
  exact and_iff_right (h.height_ne_bot ha)

theorem Averaged.filter_eq (h : Averaged pairs) (average : Float) :
    pairs.filter (fun pair => pairAverage pair == average) =
      pairs.filter fun pair => height (pairAverage pair) = height average := by
  refine List.filter_congr fun pair hpair => Bool.eq_iff_iff.mpr ?_
  rw [beq_iff_height, decide_eq_true_iff]
  exact and_iff_right (h.height_ne_bot hpair)

theorem Averaged.sortedByAverage (h : Averaged pairs) : SortedByAverage pairs
    (settleAll (fun a b => pairAverage a < pairAverage b) pairs) := by
  have hperm := settleAll_perm (fun a b => pairAverage a < pairAverage b) pairs
  have hsorted := h.of_perm hperm
  refine ⟨hperm, ?_, fun average => ?_⟩
  · rw [h.settleAll_eq] at hsorted ⊢
    refine (pairwise_settleAll _ pairs).imp_of_mem fun ha _ hle => ?_
    exact le_iff_height.mpr ⟨hsorted.height_ne_bot ha, hle⟩
  · rw [hsorted.filter_eq, h.filter_eq, h.settleAll_eq, filter_settleAll]

theorem SortedByAverage.settleAll_eq {sorted : List (Float × Float)} (h : Averaged pairs)
    (hsorted : SortedByAverage pairs sorted) :
    settleAll (fun a b => pairAverage a < pairAverage b) sorted = sorted := by
  rw [(h.of_perm hsorted.perm).settleAll_eq]
  exact settleAll_of_pairwise _ (hsorted.ascending.imp fun hle => (le_iff_height.mp hle).2)

end Averages

theorem mergeAndSort_of_length {baseline treatment : List Float}
    (h : baseline.length = treatment.length) : mergeAndSort baseline treatment =
      .ok (settleAll (fun a b => pairAverage a < pairAverage b) (baseline.zip treatment)) :=
  if_neg (not_not.mpr h)

theorem mergeAndSort_unzip (pairs : List (Float × Float)) :
    mergeAndSort (pairs.map (·.1)) (pairs.map (·.2)) =
      .ok (settleAll (fun a b => pairAverage a < pairAverage b) pairs) := by
  rw [mergeAndSort_of_length (by simp), ← List.zip_of_prod rfl rfl]

/-- Merging fails for lists of different lengths only. While all averages are numbers
it sorts stably, has nothing to change in what it has sorted, and the pairs of a
trend are the pairs it gives. -/
theorem mergeAndSort_stable (baseline treatment : List Float) :
    (∀ error, mergeAndSort baseline treatment = .error error ↔
      baseline.length ≠ treatment.length ∧
        error = .lengthMismatch baseline.length treatment.length) ∧
    (baseline.length = treatment.length → Averaged (baseline.zip treatment) →
      ∃ pairs, mergeAndSort baseline treatment = .ok pairs ∧
        SortedByAverage (baseline.zip treatment) pairs ∧
        mergeAndSort (pairs.map (·.1)) (pairs.map (·.2)) = .ok pairs ∧
        ∃ trend, Trend.ofMeans baseline treatment = .ok trend ∧ trend.pairs = pairs) := by
  refine ⟨fun error => ?_, fun hlength haveraged => ?_⟩
  · by_cases hlength : baseline.length = treatment.length
    · simp [mergeAndSort_of_length hlength, hlength]
    · rw [mergeAndSort, if_pos hlength, Except.error.injEq, eq_comm]
      exact (and_iff_right hlength).symm
  · have hmerge := mergeAndSort_of_length hlength
    have hsorted := haveraged.sortedByAverage
    refine ⟨_, hmerge, hsorted, ?_, ⟨_, _⟩, by rw [Trend.ofMeans, hmerge]; rfl, ?_⟩
    · rw [mergeAndSort_unzip, hsorted.settleAll_eq haveraged]
    · exact (List.zip_of_prod rfl rfl).symm

theorem mergeAndSort_stable_ties :
    Averaged ([5, 4, 1].zip [1, 0, 3]) ∧
      mergeAndSort [5, 4, 1] [1, 0, 3] = .ok [(4, 0), (1, 3), (5, 1)] ∧
      SortedByAverage ([5, 4, 1].zip [1, 0, 3]) [(4, 0), (1, 3), (5, 1)] ∧
      mergeAndSort [4, 1, 5] [0, 3, 1] = .ok [(4, 0), (1, 3), (5, 1)] := by
  have haveraged : Averaged ([5, 4, 1].zip [1, 0, 3]) := by decide +kernel
  have hlength : ([5, 4, 1] : List Float).length = ([1, 0, 3] : List Float).length := by simp
  have hmerge : mergeAndSort [5, 4, 1] [1, 0, 3] = .ok [(4, 0), (1, 3), (5, 1)] := by
    rw [mergeAndSort_of_length hlength, Except.ok.injEq]
    decide +kernel
  obtain ⟨pairs, hpairs, hsorted, hagain, -⟩ :=
    (mergeAndSort_stable [5, 4, 1] [1, 0, 3]).2 hlength haveraged
  rw [hmerge, Except.ok.injEq] at hpairs
  rw [← hpairs] at hsorted hagain
  simp only [List.map_cons, List.map_nil] at hagain
  exact ⟨haveraged, hmerge, hsorted, hagain⟩

end CycleCount
