import CycleCount.Proofs.RunRecord

/-! The first insertion for a count wins. Insertions come in any order and may repeat
counts. Each later one for a count is refused, so that what a record holds can be read off
the insertions, and the order of those with different counts does not matter. -/

namespace CycleCount.RunRecord

variable {record : RunRecord} {n : UInt64} {conditions : Conditions} {run : UInt64 × Conditions}
  {inserts others : List (UInt64 × Conditions)}

theorem mem_inserted_iff : run ∈ (record.inserted n conditions).runs ↔
    run ∈ record.runs ∨ n ∉ record.repetitions ∧ run = (n, conditions) := by
  by_cases h : n ∈ record.repetitions
  · simp [inserted_of_mem h, h]
  · simp [inserted_of_not_mem h, h, (perm_insertRun n conditions record.runs).mem_iff, or_comm]

theorem mem_repetitions_inserted_iff {m : UInt64} :
    m ∈ (record.inserted n conditions).repetitions ↔ m = n ∨ m ∈ record.repetitions := by
  by_cases h : n ∈ record.repetitions
  · rw [inserted_of_mem h]
    exact ⟨.inr, fun hm => hm.elim (· ▸ h) id⟩
  · rw [inserted_of_not_mem h, mem_repetitions_insertRun, RunRecord.repetitions]

theorem mem_foldl_inserted_iff : run ∈ (inserts.foldl (fun record (repetitions, conditions) =>
      record.inserted repetitions conditions) record).runs ↔
    run ∈ record.runs ∨ run.1 ∉ record.repetitions ∧ inserts.lookup run.1 = some run.2 := by
  -- The record stays general: a run that it holds hides all later ones for its count.
  induction inserts generalizing record with
  | nil => simp
  | cons first inserts ih =>
    rw [List.foldl_cons, ih, mem_inserted_iff, mem_repetitions_inserted_iff, List.lookup_cons]
    by_cases hcount : run.1 = first.1
    · by_cases hpresent : first.1 ∈ record.repetitions
      · simp [hcount, hpresent]
      · simp [hcount, hpresent, Prod.ext_iff, eq_comm]
    · have hne : run ≠ first := fun heq => hcount (congrArg Prod.fst heq)
      simp [hcount, hne, beq_false_of_ne hcount]

theorem mem_ofInserts_iff :
    run ∈ (ofInserts inserts).runs ↔ inserts.lookup run.1 = some run.2 := by
  rw [ofInserts, mem_foldl_inserted_iff]
  simp [RunRecord.repetitions]

theorem lookup_ofInserts (inserts : List (UInt64 × Conditions)) (n : UInt64) :
    (ofInserts inserts).runs.lookup n = inserts.lookup n := by
  refine Option.ext fun conditions => ?_
  rw [lookup_eq_some_iff_mem (ascending_ofInserts inserts).nodup, mem_ofInserts_iff]

theorem mem_repetitions_ofInserts_iff :
    n ∈ (ofInserts inserts).repetitions ↔ n ∈ inserts.map (·.1) := by
  rw [RunRecord.repetitions, ← isSome_lookup_iff, ← isSome_lookup_iff, lookup_ofInserts]

theorem series?_ofInserts_eq_some_iff {label : String} {series : Series} :
    (ofInserts inserts).series? n label = some series ↔
      ∃ conditions, IsFirst inserts n conditions ∧ IsLast conditions label series := by
  simp only [series?, labelled?, lookup_ofInserts, Option.bind_eq_bind, Option.bind_eq_some_iff,
    lookup_eq_some_iff_isFirst, isFirst_reverse_iff]

theorem ofInserts_eq_of_perm (hperm : inserts.Perm others) (h : (inserts.map (·.1)).Nodup) :
    ofInserts inserts = ofInserts others := by
  have hothers : (others.map (·.1)).Nodup := (hperm.map _).nodup_iff.mp h
  have hruns : (ofInserts inserts).runs.Perm (ofInserts others).runs :=
    (perm_ofInserts h).trans (hperm.trans (perm_ofInserts hothers).symm)
  -- The order sees counts only, but as they ascend strictly, no two runs stand either way.
  refine congrArg RunRecord.mk (hruns.eq_of_pairwise ?_ (ascending_ofInserts inserts)
    (ascending_ofInserts others))
  intro first second _ _ hlt hgt
  exact absurd hgt (UInt64.lt_asymm hlt)

def insertAll (inserts : List (UInt64 × Conditions)) : StateM RunRecord (List Bool) :=
  inserts.mapM fun (repetitions, conditions) => insert repetitions conditions

theorem run_insert_eq_inserted (record : RunRecord) (n : UInt64) (conditions : Conditions) :
    Id.run ((insert n conditions).run record) =
      (decide (n ∉ record.repetitions), record.inserted n conditions) := by
  rw [run_insert]
  split_ifs with h
  · simp [h, inserted_of_mem h]
  · simp [h, inserted_of_not_mem h]

theorem run_insertAll_cons (record : RunRecord) (first : UInt64 × Conditions)
    (inserts : List (UInt64 × Conditions)) :
    Id.run ((insertAll (first :: inserts)).run record) =
      let rest := Id.run ((insertAll inserts).run (record.inserted first.1 first.2))
      (decide (first.1 ∉ record.repetitions) :: rest.1, rest.2) := by
  have hfirst := run_insert_eq_inserted record first.1 first.2
  rw [insertAll, List.mapM_cons, StateT.run_bind, Id.run_bind, hfirst]
  rfl

theorem run_insertAll (record : RunRecord) (inserts : List (UInt64 × Conditions)) :
    ∃ answers, Id.run ((insertAll inserts).run record) =
        (answers, inserts.foldl (fun record (repetitions, conditions) =>
          record.inserted repetitions conditions) record) ∧
      answers.length = inserts.length ∧
      ∀ (i : Nat) (run : UInt64 × Conditions), inserts[i]? = some run →
        (answers[i]? = some true ↔
          run.1 ∉ record.repetitions ∧ run.1 ∉ (inserts.take i).map (·.1)) := by
  induction inserts generalizing record with
  | nil => exact ⟨[], rfl, rfl, nofun⟩
  | cons first inserts ih =>
    obtain ⟨answers, hrun, hlength, hanswers⟩ := ih (record.inserted first.1 first.2)
    refine ⟨decide (first.1 ∉ record.repetitions) :: answers, ?_, congrArg Nat.succ hlength, ?_⟩
    · rw [run_insertAll_cons, hrun]
      rfl
    · intro i run hi
      cases i with
      | zero =>
        cases hi
        simp
      | succ i =>
        rw [List.getElem?_cons_succ] at hi ⊢
        rw [hanswers i run hi, mem_repetitions_inserted_iff, List.take_succ_cons, List.map_cons,
          List.mem_cons]
        tauto

/-- However a record is filled, an insertion is accepted exactly if it is the first for its
count, and a refused one leaves the record as it was. The record then has the counts that
were inserted, in ascending order, and under each of them, for a label, the last series
that the first insertion for the count gives the label. The series of a label come by
ascending count, one for every count that has one. Insertions with different counts lead
to the same record in any order. -/
theorem first_insertion_wins (inserts : List (UInt64 × Conditions)) :
    ∃ answers record, Id.run ((insertAll inserts).run {}) = (answers, record) ∧
      answers.length = inserts.length ∧
      (∀ (i : Nat) (run : UInt64 × Conditions), inserts[i]? = some run →
        (answers[i]? = some true ↔ run.1 ∉ (inserts.take i).map (·.1))) ∧
      (∀ (n : UInt64) (conditions : Conditions), ∃ answer next,
        Id.run ((insert n conditions).run record) = (answer, next) ∧
        (answer = true ↔ n ∉ inserts.map (·.1)) ∧ (answer = false → next = record)) ∧
      record.repetitions.Pairwise (· < ·) ∧
      (∀ n, n ∈ record.repetitions ↔ n ∈ inserts.map (·.1)) ∧
      (∀ n label series, record.series? n label = some series ↔
        ∃ conditions, IsFirst inserts n conditions ∧ IsLast conditions label series) ∧
      (∀ label, ((record.labelSeries label).map (·.1)).Pairwise (· < ·)) ∧
      (∀ label n series,
        (n, series) ∈ record.labelSeries label ↔ record.series? n label = some series) ∧
      ∀ others, inserts.Perm others → (inserts.map (·.1)).Nodup →
        (Id.run ((insertAll others).run {})).2 = record := by
  obtain ⟨answers, hrun, hlength, hanswers⟩ := run_insertAll {} inserts
  have hascending := ascending_ofInserts inserts
  refine ⟨answers, ofInserts inserts, hrun, hlength, fun i run hi => ?_, fun n conditions => ?_,
    List.pairwise_map.mpr hascending, fun n => mem_repetitions_ofInserts_iff,
    fun n label series => series?_ofInserts_eq_some_iff, pairwise_labelSeries hascending,
    fun label n series => mem_labelSeries_iff hascending, fun others hperm hnodup => ?_⟩
  · rw [hanswers i run hi, RunRecord.repetitions]
    exact and_iff_right List.not_mem_nil
  · refine ⟨_, _, run_insert_eq_inserted _ n conditions, ?_, fun hrefused => ?_⟩
    · rw [decide_eq_true_iff, mem_repetitions_ofInserts_iff]
    · exact inserted_of_mem (not_not.mp (of_decide_eq_false hrefused)) conditions
  · obtain ⟨_, hothers, -⟩ := run_insertAll {} others
    rw [hothers, ofInserts_eq_of_perm hperm hnodup]
    rfl

def repeatedRuns : List (UInt64 × Conditions) :=
  [(300, [("safe", [3])]), (100, [("safe", [1]), ("fast", [7]), ("safe", [2])]),
    (300, [("safe", [9])])]

theorem first_insertion_wins_repeatedRuns :
    ∃ answers record, Id.run ((insertAll repeatedRuns).run {}) = (answers, record) ∧
      repeatedRuns[2]? = some (300, [("safe", [9])]) ∧ answers[2]? ≠ some true ∧
      record.labelSeries "safe" = [(100, [2]), (300, [3])] ∧
      (repeatedRuns.take 2).Perm (repeatedRuns.take 2).reverse ∧
      ((repeatedRuns.take 2).map (·.1)).Nodup ∧
      (Id.run ((insertAll (repeatedRuns.take 2)).run {})).2 =
        (Id.run ((insertAll (repeatedRuns.take 2).reverse).run {})).2 := by
  obtain ⟨answers, record, hrun, -, hanswers, -⟩ := first_insertion_wins repeatedRuns
  obtain ⟨_, kept, hkept, -, -, -, -, -, -, -, -, horder⟩ :=
    first_insertion_wins (repeatedRuns.take 2)
  have hrefused : answers[2]? ≠ some true := mt (hanswers 2 _ rfl).mp (by decide)
  have hrecord : (Id.run ((insertAll repeatedRuns).run {})).2 = record := by rw [hrun]
  have hperm := (List.reverse_perm (repeatedRuns.take 2)).symm
  have hnodup : ((repeatedRuns.take 2).map (·.1)).Nodup := by decide
  refine ⟨answers, record, hrun, rfl, hrefused, ?_, hperm, hnodup, ?_⟩
  · rw [← hrecord]
    decide
  · rw [horder _ hperm hnodup, hkept]

end CycleCount.RunRecord
