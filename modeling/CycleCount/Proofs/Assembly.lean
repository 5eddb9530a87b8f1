import CycleCount.Dataset.Assembly
import CycleCount.Proofs.Outcome
import CycleCount.Proofs.RunRecord

/-! What assembling a data set reads: for every key the sample files of its
directory, at least one, and from each of them a series for every column. -/

namespace CycleCount

theorem Records.length_of_sampleColumns {origin : Path} {columns : Nat}
    {input : List (Except Error Records.Line)} {series : List (List UInt64)}
    (h : sampleColumns origin columns input = .ok series) : series.length = columns := by
  obtain ⟨rows, -, h⟩ := bind_eq_ok_iff.mp h
  split_ifs at h
  cases h
  simp

theorem Records.ne_nil_of_mem_sampleColumns {origin : Path} {columns : Nat}
    {input : List (Except Error Records.Line)} {series : List (List UInt64)}
    (h : sampleColumns origin columns input = .ok series) {s : Series} (hs : s ∈ series) :
    s ≠ [] := by
  obtain ⟨rows, hrows, h⟩ := bind_eq_ok_iff.mp h
  split_ifs at h with hempty
  cases h
  simp only [Bool.or_eq_true, not_or, List.isEmpty_iff] at hempty
  obtain ⟨row, hrow⟩ := List.exists_mem_of_ne_nil rows hempty.1
  obtain ⟨j, hj, rfl⟩ := List.mem_map.mp hs
  obtain ⟨line, -, hline⟩ := exists_left_of_forall₂ (mapM_eq_ok_iff.mp hrows) hrow
  obtain ⟨line, -, hline⟩ := bind_eq_ok_iff.mp hline
  unfold sampleRow at hline
  split_ifs at hline with hcount
  have hlength : row.length = columns := by
    rw [← (mapM_eq_ok_iff.mp hline).length_eq]
    exact not_not.mp hcount
  have hentry : row[j]? = some (row.get ⟨j, hlength ▸ List.mem_range.mp hj⟩) := by simp
  exact List.ne_nil_of_mem (List.mem_filterMap.mpr ⟨row, hrow, hentry⟩)

theorem RunRecord.isSome_labelled?_iff {conditions : Conditions} {label : String} :
    (labelled? conditions label).isSome ↔ label ∈ conditions.map (·.1) := by
  rw [labelled?, isSome_lookup_iff, List.map_reverse, List.mem_reverse]

namespace Experiment

variable {e : Experiment} {disk : Disk}

theorem labels_of_readSamples {path : Path} {conditions : Conditions}
    (h : e.readSamples disk path = .ok conditions) : conditions.map (·.1) = e.columns := by
  obtain ⟨lines, -, h⟩ := bind_eq_ok_iff.mp h
  obtain ⟨series, hseries, h⟩ := bind_eq_ok_iff.mp h
  cases h
  exact List.map_fst_zip (Records.length_of_sampleColumns hseries).ge

theorem addFile_eq_ok_iff {record record' : RunRecord} {path : Path} :
    e.addFile disk record path = .ok record' ↔
      ∃ repetitions conditions, repetitionCount path = .ok repetitions ∧
        e.readSamples disk path = .ok conditions ∧
        record.insert? repetitions conditions = some record' := by
  simp only [addFile, bind_eq_ok_iff]
  constructor
  · rintro ⟨repetitions, hrepetitions, conditions, hconditions, h⟩
    refine ⟨repetitions, conditions, hrepetitions, hconditions, ?_⟩
    split at h
    · rename_i hinsert
      cases h
      exact hinsert
    · cases h
  · rintro ⟨repetitions, conditions, hrepetitions, hconditions, hinsert⟩
    exact ⟨repetitions, hrepetitions, conditions, hconditions, by rw [hinsert]; rfl⟩

theorem leafFiles_eq_ok_iff {directory : Path} {files : List Path} :
    leafFiles disk directory = .ok files ↔
      files ≠ [] ∧ ∃ names, disk.list directory = .ok names ∧
        files = ((names.mergeSort fun a b => !decide (b < a)).map fun name =>
          directory.join ⟨name⟩).filter (isSampleFile disk) := by
  unfold leafFiles
  split
  · rename_i hlist
    simp [hlist]
  · rename_i hlist
    simp [hlist]
  · rename_i names hlist
    simp only [hlist, Except.ok.injEq, exists_eq_left']
    split
    · rename_i hnil
      rw [hnil]
      constructor
      · intro h
        cases h
      · rintro ⟨hne, hfiles⟩
        exact absurd hfiles hne
    · rename_i hne
      rw [Except.ok.injEq]
      constructor
      · rintro rfl
        exact ⟨hne, rfl⟩
      · rintro ⟨-, rfl⟩
        rfl

structure Reads (e : Experiment) (disk : Disk) (path : Path) (run : UInt64 × Conditions) : Prop where
  count : repetitionCount path = .ok run.1
  conditions : e.readSamples disk path = .ok run.2

theorem foldlM_addFile_eq_ok_iff {files : List Path} {record record' : RunRecord} :
    files.foldlM (e.addFile disk) record = .ok record' ↔
      ∃ runs, List.Forall₂ (e.Reads disk) files runs ∧ record.Fresh runs ∧
        record' = runs.foldl (fun record (repetitions, conditions) =>
          record.inserted repetitions conditions) record := by
  induction files generalizing record with
  | nil => simp [RunRecord.Fresh, eq_comm]
  | cons file files ih =>
    simp only [foldlM_cons_eq_ok_iff, addFile_eq_ok_iff, ih, List.forall₂_cons_left_iff,
      RunRecord.insert?_eq_some_iff]
    constructor
    · rintro ⟨_, ⟨repetitions, conditions, hcount, hread, hnew, rfl⟩, runs, hruns, hfresh, rfl⟩
      refine ⟨(repetitions, conditions) :: runs, ⟨_, runs, ⟨hcount, hread⟩, hruns, rfl⟩,
        RunRecord.fresh_cons_iff.mpr ⟨hnew, hfresh⟩, ?_⟩
      rw [List.foldl_cons, RunRecord.inserted_of_not_mem hnew]
    · rintro ⟨_, ⟨run, runs, hread, hruns, rfl⟩, hfresh, rfl⟩
      obtain ⟨hnew, hfresh⟩ := RunRecord.fresh_cons_iff.mp hfresh
      refine ⟨_, ⟨run.1, run.2, hread.count, hread.conditions, hnew, rfl⟩, runs, hruns, hfresh, ?_⟩
      rw [List.foldl_cons, RunRecord.inserted_of_not_mem hnew]

theorem readLeaf_eq_ok_iff {directory : Path} {record : RunRecord} :
    e.readLeaf disk directory = .ok record ↔
      ∃ files runs, leafFiles disk directory = .ok files ∧
        List.Forall₂ (e.Reads disk) files runs ∧ (runs.map (·.1)).Nodup ∧
        record = .ofInserts runs := by
  simp only [readLeaf, bind_eq_ok_iff, foldlM_addFile_eq_ok_iff]
  constructor
  · rintro ⟨files, hfiles, runs, hruns, hfresh, rfl⟩
    exact ⟨files, runs, hfiles, hruns, hfresh.1, rfl⟩
  · rintro ⟨files, runs, hfiles, hruns, hnodup, rfl⟩
    exact ⟨files, hfiles, runs, hruns, ⟨hnodup, fun _ _ => List.not_mem_nil⟩, rfl⟩

theorem reads_of_mem_readLeaf {directory : Path} {record : RunRecord}
    (h : e.readLeaf disk directory = .ok record) :
    ∀ run ∈ record.runs, ∃ path, e.Reads disk path run := by
  obtain ⟨files, runs, -, hruns, hnodup, rfl⟩ := readLeaf_eq_ok_iff.mp h
  intro run hrun
  have hmem := (RunRecord.perm_ofInserts hnodup).mem_iff.mp hrun
  obtain ⟨path, -, hreads⟩ := exists_left_of_forall₂ hruns hmem
  exact ⟨path, hreads⟩

structure Complete (e : Experiment) (record : RunRecord) : Prop where
  runs : record.runs ≠ []
  columns : ∀ run ∈ record.runs, run.2.map (·.1) = e.columns

theorem complete_of_readLeaf {directory : Path} {record : RunRecord}
    (h : e.readLeaf disk directory = .ok record) : e.Complete record := by
  constructor
  · obtain ⟨files, runs, hfiles, hruns, hnodup, rfl⟩ := readLeaf_eq_ok_iff.mp h
    obtain ⟨hne, -⟩ := leafFiles_eq_ok_iff.mp hfiles
    intro hnil
    have hperm := RunRecord.perm_ofInserts hnodup
    rw [hnil, List.nil_perm] at hperm
    rw [hperm, List.forall₂_nil_right_iff] at hruns
    exact hne hruns
  · intro run hrun
    obtain ⟨path, hreads⟩ := reads_of_mem_readLeaf h run hrun
    exact labels_of_readSamples hreads.conditions

theorem series_ne_nil_of_readSamples {path : Path} {conditions : Conditions}
    (h : e.readSamples disk path = .ok conditions) : ∀ condition ∈ conditions, condition.2 ≠ [] := by
  obtain ⟨lines, -, h⟩ := bind_eq_ok_iff.mp h
  obtain ⟨series, hseries, h⟩ := bind_eq_ok_iff.mp h
  cases h
  exact fun condition hcondition =>
    Records.ne_nil_of_mem_sampleColumns hseries (List.of_mem_zip hcondition).2

theorem series_ne_nil_of_readLeaf {directory : Path} {record : RunRecord}
    (h : e.readLeaf disk directory = .ok record) :
    ∀ run ∈ record.runs, ∀ condition ∈ run.2, condition.2 ≠ [] := by
  intro run hrun
  obtain ⟨path, hreads⟩ := reads_of_mem_readLeaf h run hrun
  exact series_ne_nil_of_readSamples hreads.conditions

theorem exists_inserts_of_readLeaf {directory : Path} {record : RunRecord}
    (h : e.readLeaf disk directory = .ok record) : ∃ inserts, record = .ofInserts inserts := by
  obtain ⟨-, runs, -, -, -, hrecord⟩ := readLeaf_eq_ok_iff.mp h
  exact ⟨runs, hrecord⟩

theorem Complete.counts_labelSeries {record : RunRecord} (h : e.Complete record) {label : String}
    (hlabel : label ∈ e.columns) :
    (record.labelSeries label).map (·.1) = record.runs.map (·.1) := by
  refine keys_filterMap fun run hrun => ?_
  have hsome : (RunRecord.labelled? run.2 label).isSome := by
    rw [RunRecord.isSome_labelled?_iff, h.columns run hrun]
    exact hlabel
  obtain ⟨series, hseries⟩ := Option.isSome_iff_exists.mp hsome
  simp only [hseries, Option.map_some]

theorem Complete.labelSeries_ne_nil {record : RunRecord} (h : e.Complete record) {label : String}
    (hlabel : label ∈ e.columns) : record.labelSeries label ≠ [] := by
  intro hnil
  have hcounts := h.counts_labelSeries hlabel
  rw [hnil] at hcounts
  exact h.runs (List.map_eq_nil_iff.mp hcounts.symm)

structure Assembles (e : Experiment) (disk : Disk) (dataset : Dataset) : Prop where
  name : dataset.name = e.name
  axes : dataset.axes = e.axisNames
  labels : dataset.labels = e.columns
  records : List.Forall₂ (fun key entry => entry.1 = key ∧
    e.readLeaf disk (e.leafDirectory key) = .ok entry.2) e.keys dataset.records

theorem assemble_eq_ok_iff {dataset : Dataset} :
    e.assemble disk = .ok dataset ↔ e.Assembles disk dataset := by
  have hrecord : ∀ (key : Key) (entry : Key × RunRecord),
      (∃ record, e.readLeaf disk (e.leafDirectory key) = .ok record ∧ (key, record) = entry) ↔
        entry.1 = key ∧ e.readLeaf disk (e.leafDirectory key) = .ok entry.2 := by
    intro key entry
    constructor
    · rintro ⟨record, hread, rfl⟩
      exact ⟨rfl, hread⟩
    · rintro ⟨rfl, hread⟩
      exact ⟨entry.2, hread, rfl⟩
  simp only [assemble, bind_eq_ok_iff, mapM_eq_ok_iff, pure_eq_ok, Except.ok.injEq, hrecord]
  constructor
  · rintro ⟨records, hrecords, rfl⟩
    exact ⟨rfl, rfl, rfl, hrecords⟩
  · obtain ⟨name, axes, labels, records⟩ := dataset
    rintro ⟨rfl, rfl, rfl, hrecords⟩
    exact ⟨records, hrecords, rfl⟩

theorem Assembles.keys {dataset : Dataset} (h : e.Assembles disk dataset) :
    dataset.records.map (·.1) = e.keys := by
  rw [← List.map_id e.keys]
  exact map_eq_map_iff_forall₂.mpr (h.records.flip.imp fun _ _ hentry => hentry.1)

theorem Assembles.complete {dataset : Dataset} (h : e.Assembles disk dataset)
    {entry : Key × RunRecord} (hentry : entry ∈ dataset.records) : e.Complete entry.2 := by
  obtain ⟨key, -, -, hread⟩ := exists_left_of_forall₂ h.records hentry
  exact complete_of_readLeaf hread

end Experiment
end CycleCount
