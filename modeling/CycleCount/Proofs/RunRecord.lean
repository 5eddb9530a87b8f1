import Mathlib.Data.List.Sort
import CycleCount.Dataset.RunRecord
import CycleCount.Proofs.Lookup

/-! Run records as maps. However a record was filled, its repetition counts
ascend, so each occurs once and a look-up by count finds the one run there
is. -/

namespace CycleCount.RunRecord

def inserted (record : RunRecord) (repetitions : UInt64) (conditions : Conditions) : RunRecord :=
  (record.insert? repetitions conditions).getD record

def ofInserts (inserts : List (UInt64 × Conditions)) : RunRecord :=
  inserts.foldl (fun record (repetitions, conditions) => record.inserted repetitions conditions) {}

def Ascending (record : RunRecord) : Prop := record.runs.Pairwise fun a b => a.1 < b.1

theorem perm_insertRun (repetitions : UInt64) (conditions : Conditions)
    (runs : List (UInt64 × Conditions)) :
    (insertRun repetitions conditions runs).Perm ((repetitions, conditions) :: runs) := by
  induction runs with
  | nil => exact .refl _
  | cons other runs ih =>
    rw [insertRun]
    split_ifs
    · exact .refl _
    · exact (ih.cons other).trans (.swap ..)

theorem mem_insertRun {repetitions : UInt64} {conditions : Conditions}
    {run : UInt64 × Conditions} {runs : List (UInt64 × Conditions)}
    (h : run ∈ insertRun repetitions conditions runs) :
    run = (repetitions, conditions) ∨ run ∈ runs :=
  List.mem_cons.mp ((perm_insertRun repetitions conditions runs).mem_iff.mp h)

theorem pairwise_insertRun {repetitions : UInt64} (conditions : Conditions)
    {runs : List (UInt64 × Conditions)} (h : runs.Pairwise fun a b => a.1 < b.1)
    (hnew : ∀ run ∈ runs, run.1 ≠ repetitions) :
    (insertRun repetitions conditions runs).Pairwise fun a b => a.1 < b.1 := by
  induction runs with
  | nil => simp [insertRun]
  | cons other runs ih =>
    rw [List.pairwise_cons] at h
    rw [insertRun]
    split_ifs with hlt
    · refine .cons (fun run hr => ?_) (.cons h.1 h.2)
      rcases List.mem_cons.mp hr with rfl | hr
      · exact hlt
      · exact UInt64.lt_trans hlt (h.1 run hr)
    · have hlast : other.1 < repetitions :=
        UInt64.lt_of_le_of_ne (UInt64.not_lt.mp hlt) (hnew other (List.mem_cons_self ..))
      refine .cons (fun run hr => ?_) (ih h.2 fun run hr => hnew run (List.mem_cons_of_mem _ hr))
      rcases mem_insertRun hr with rfl | hr
      · exact hlast
      · exact h.1 run hr

theorem contains_iff {record : RunRecord} {repetitions : UInt64} :
    record.contains repetitions = true ↔ repetitions ∈ record.repetitions := by
  simp [contains, RunRecord.repetitions]

theorem run_insert (record : RunRecord) (repetitions : UInt64) (conditions : Conditions) :
    Id.run ((insert repetitions conditions).run record) =
      if repetitions ∈ record.repetitions then (false, record)
      else (true, ⟨insertRun repetitions conditions record.runs⟩) := by
  by_cases h : repetitions ∈ record.repetitions
  · have hpresent := contains_iff.mpr h
    simp [insert, h, hpresent]
  · have habsent : record.contains repetitions = false := by
      rwa [← contains_iff, Bool.not_eq_true] at h
    simp [insert, h, habsent]

theorem insert?_eq_some_iff {record record' : RunRecord} {repetitions : UInt64}
    {conditions : Conditions} :
    record.insert? repetitions conditions = some record' ↔
      repetitions ∉ record.repetitions ∧
        record' = ⟨insertRun repetitions conditions record.runs⟩ := by
  rw [insert?, run_insert]
  split_ifs with h
  · simp [h]
  · simp [h, eq_comm]

theorem inserted_of_mem {record : RunRecord} {repetitions : UInt64}
    (h : repetitions ∈ record.repetitions) (conditions : Conditions) :
    record.inserted repetitions conditions = record := by
  rw [inserted, insert?, run_insert, if_pos h, Option.getD_none]

theorem inserted_of_not_mem {record : RunRecord} {repetitions : UInt64}
    (h : repetitions ∉ record.repetitions) (conditions : Conditions) :
    record.inserted repetitions conditions =
      ⟨insertRun repetitions conditions record.runs⟩ := by
  rw [inserted, insert?_eq_some_iff.mpr ⟨h, rfl⟩, Option.getD_some]

theorem mem_repetitions_insertRun {repetitions n : UInt64} {conditions : Conditions}
    {runs : List (UInt64 × Conditions)} :
    n ∈ RunRecord.repetitions ⟨insertRun repetitions conditions runs⟩ ↔
      n = repetitions ∨ n ∈ runs.map (·.1) := by
  have hcounts := (perm_insertRun repetitions conditions runs).map (·.1)
  rw [RunRecord.repetitions, hcounts.mem_iff, List.map_cons, List.mem_cons]

theorem ascending_inserted {record : RunRecord} (h : record.Ascending) (repetitions : UInt64)
    (conditions : Conditions) : (record.inserted repetitions conditions).Ascending := by
  by_cases hc : repetitions ∈ record.repetitions
  · rwa [inserted_of_mem hc]
  · rw [inserted_of_not_mem hc]
    exact pairwise_insertRun conditions h fun run hr heq => hc (heq ▸ List.mem_map_of_mem hr)

theorem ascending_ofInserts (inserts : List (UInt64 × Conditions)) :
    (ofInserts inserts).Ascending := by
  have key : ∀ (record : RunRecord), record.Ascending →
      (inserts.foldl (fun record (repetitions, conditions) =>
        record.inserted repetitions conditions) record).Ascending := by
    induction inserts with
    | nil => exact fun _ h => h
    | cons insert inserts ih => exact fun _ h => ih _ (ascending_inserted h insert.1 insert.2)
  exact key {} .nil

def Fresh (record : RunRecord) (inserts : List (UInt64 × Conditions)) : Prop :=
  (inserts.map (·.1)).Nodup ∧ ∀ run ∈ inserts, run.1 ∉ record.repetitions

theorem fresh_cons_iff {record : RunRecord} {run : UInt64 × Conditions}
    {inserts : List (UInt64 × Conditions)} :
    record.Fresh (run :: inserts) ↔ run.1 ∉ record.repetitions ∧
      Fresh ⟨insertRun run.1 run.2 record.runs⟩ inserts := by
  simp only [Fresh, List.map_cons, List.nodup_cons, List.forall_mem_cons,
    mem_repetitions_insertRun, not_or]
  constructor
  · rintro ⟨⟨hnot, hnodup⟩, hnew, hrest⟩
    refine ⟨hnew, hnodup, fun other hother => ⟨fun heq => ?_, hrest other hother⟩⟩
    exact hnot (heq ▸ List.mem_map_of_mem hother)
  · rintro ⟨hnew, hnodup, hrest⟩
    refine ⟨⟨fun hmem => ?_, hnodup⟩, hnew, fun other hother => (hrest other hother).2⟩
    obtain ⟨other, hother, heq⟩ := List.mem_map.mp hmem
    exact (hrest other hother).1 heq

theorem perm_foldl_inserted {record : RunRecord} {inserts : List (UInt64 × Conditions)}
    (h : record.Fresh inserts) :
    (inserts.foldl (fun record (repetitions, conditions) =>
      record.inserted repetitions conditions) record).runs.Perm (record.runs ++ inserts) := by
  induction inserts generalizing record with
  | nil => simp
  | cons run inserts ih =>
    obtain ⟨hnew, hrest⟩ := fresh_cons_iff.mp h
    rw [List.foldl_cons]
    simp only [inserted_of_not_mem hnew]
    have hinsert := (perm_insertRun run.1 run.2 record.runs).append_right inserts
    exact (ih hrest).trans (hinsert.trans List.perm_middle.symm)

theorem perm_ofInserts {inserts : List (UInt64 × Conditions)}
    (h : (inserts.map (·.1)).Nodup) : (ofInserts inserts).runs.Perm inserts :=
  perm_foldl_inserted ⟨h, fun _ _ => List.not_mem_nil⟩

theorem Ascending.nodup {record : RunRecord} (h : record.Ascending) :
    (record.runs.map (·.1)).Nodup := by
  refine (List.pairwise_map.mpr h).imp ?_
  rintro a _ hlt rfl
  exact UInt64.lt_irrefl a hlt

theorem mem_labelSeries_iff {record : RunRecord} (h : record.Ascending) {label : String}
    {repetitions : UInt64} {series : Series} :
    (repetitions, series) ∈ record.labelSeries label ↔
      record.series? repetitions label = some series := by
  simp only [labelSeries, series?, List.mem_filterMap, Option.map_eq_some_iff,
    Option.bind_eq_bind, Option.bind_eq_some_iff, lookup_eq_some_iff_mem h.nodup, Prod.mk.injEq]
  constructor
  · rintro ⟨⟨n, conditions⟩, hm, s, hs, rfl, rfl⟩
    exact ⟨conditions, hm, hs⟩
  · rintro ⟨conditions, hm, hs⟩
    exact ⟨(repetitions, conditions), hm, series, hs, rfl, rfl⟩

theorem pairwise_labelSeries {record : RunRecord} (h : record.Ascending) (label : String) :
    ((record.labelSeries label).map (·.1)).Pairwise (· < ·) := by
  rw [List.pairwise_map, labelSeries, List.pairwise_filterMap]
  refine h.imp fun hlt a ha b hb => ?_
  obtain ⟨s, -, rfl⟩ := Option.map_eq_some_iff.mp ha
  obtain ⟨t, -, rfl⟩ := Option.map_eq_some_iff.mp hb
  exact hlt

end CycleCount.RunRecord
