import CycleCount.Proofs.LayoutSafety
import CycleCount.Proofs.Sources

/-! Assembling a data set loses nothing and mixes nothing. It succeeds exactly
where every directory of the layout can be read, and then each record holds the
files of its own directory, each under its count, column by column. -/

namespace CycleCount

theorem RunRecord.labelled?_zip {labels : List String} (hlabels : labels.Nodup)
    {columns : List Series} (hlength : columns.length = labels.length) {j : Nat} {label : String}
    (hj : labels[j]? = some label) : labelled? (labels.zip columns) label = columns[j]? := by
  have hlt : j < columns.length := hlength ▸ (List.getElem?_eq_some_iff.mp hj).1
  have hseries := List.getElem?_eq_getElem hlt
  have hpair : (label, columns[j]) ∈ labels.zip columns :=
    List.mem_of_getElem? (List.getElem?_zip_eq_some.mpr ⟨hj, hseries⟩)
  have hkeys : ((labels.zip columns).reverse.map (·.1)).Nodup := by
    rw [List.map_reverse, List.map_fst_zip hlength.ge, List.nodup_reverse]
    exact hlabels
  rw [labelled?, hseries, lookup_eq_some_iff_mem hkeys, List.mem_reverse]
  exact hpair

namespace Experiment

variable {e : Experiment} {disk : Disk} {directory path : Path}

def SampleIn (disk : Disk) (directory path : Path) : Prop :=
  ∃ names name, disk.list directory = .ok names ∧ name ∈ names ∧
    path = directory.join ⟨name⟩ ∧ isSampleFile disk path = true

def HoldsColumns (e : Experiment) (disk : Disk) (path : Path) (columns : List Series) : Prop :=
  ∃ content modified, disk.find path = .ok (.file content modified) ∧
    Records.sampleColumns path e.columns.length (Records.lines path content) = .ok columns

structure Readable (e : Experiment) (disk : Disk) (directory : Path) : Prop where
  found : ∃ about, disk.find directory = .ok (.directory about) ∧ about.readable = true
  sample : ∃ path, SampleIn disk directory path
  counted : ∀ path, SampleIn disk directory path → ∃ n, repetitionCount path = .ok n
  apart : ∀ first second n, SampleIn disk directory first → SampleIn disk directory second →
    repetitionCount first = .ok n → repetitionCount second = .ok n → first = second
  sound : ∀ path, SampleIn disk directory path → ∃ columns, e.HoldsColumns disk path columns

structure Gathers (e : Experiment) (disk : Disk) (directory : Path) (record : RunRecord) : Prop where
  ascending : record.repetitions.Pairwise (· < ·)
  counts : ∀ n, n ∈ record.repetitions ↔
    ∃ path, SampleIn disk directory path ∧ repetitionCount path = .ok n
  series : ∀ path n, SampleIn disk directory path → repetitionCount path = .ok n →
    ∃ columns, e.HoldsColumns disk path columns ∧ columns.length = e.columns.length ∧
      ∀ (j : Nat) (label : String), e.columns[j]? = some label → record.series? n label = columns[j]?

theorem mem_leafFiles_iff {files : List Path} (h : leafFiles disk directory = .ok files) :
    path ∈ files ↔ SampleIn disk directory path := by
  obtain ⟨-, names, hlist, rfl⟩ := leafFiles_eq_ok_iff.mp h
  rw [List.mem_filter, List.mem_map]
  constructor
  · rintro ⟨⟨name, hname, rfl⟩, hsample⟩
    exact ⟨names, name, hlist, List.mem_mergeSort.mp hname, rfl, hsample⟩
  · rintro ⟨_, name, hlist', hname, rfl, hsample⟩
    rw [hlist] at hlist'
    cases hlist'
    exact ⟨⟨name, List.mem_mergeSort.mpr hname, rfl⟩, hsample⟩

theorem exists_leafFiles_iff :
    (∃ files, leafFiles disk directory = .ok files) ↔ ∃ path, SampleIn disk directory path := by
  constructor
  · rintro ⟨files, hfiles⟩
    obtain ⟨path, hpath⟩ := List.exists_mem_of_ne_nil files (leafFiles_eq_ok_iff.mp hfiles).1
    exact ⟨path, (mem_leafFiles_iff hfiles).mp hpath⟩
  · rintro ⟨path, names, name, hlist, hname, rfl, hsample⟩
    refine ⟨_, leafFiles_eq_ok_iff.mpr ⟨?_, names, hlist, rfl⟩⟩
    exact List.ne_nil_of_mem (List.mem_filter.mpr
      ⟨List.mem_map.mpr ⟨name, List.mem_mergeSort.mpr hname, rfl⟩, hsample⟩)

theorem find_of_sampleIn (h : SampleIn disk directory path) :
    ∃ about, disk.find directory = .ok (.directory about) ∧ about.readable = true := by
  obtain ⟨names, name, hlist, -⟩ := h
  obtain ⟨location, about, hlocate, hdirectory, hreadable, -⟩ := Disk.list_eq_ok_iff.mp hlist
  exact ⟨about, Disk.find_eq_ok_iff.mpr ⟨location, hlocate, hdirectory⟩, hreadable⟩

theorem nodup_leafFiles (hdisk : disk.WellFormed) {files : List Path}
    (h : leafFiles disk directory = .ok files) : files.Nodup := by
  rw [leafFiles_eq hdisk h]
  refine (hdisk.nodup_sampleNames _).map_on fun first hfirst second hsecond heq => ?_
  have hname := congrArg Path.fileName? heq
  rw [Path.fileName?_join _ (hdisk.isName_of_mem_sampleNames hfirst),
    Path.fileName?_join _ (hdisk.isName_of_mem_sampleNames hsecond)] at hname
  exact String.toList_injective (Option.some.inj hname)

theorem Reads.holdsColumns {run : UInt64 × Conditions} (h : e.Reads disk path run)
    (hsample : isSampleFile disk path = true) :
    ∃ columns, e.HoldsColumns disk path columns ∧ run.2 = e.columns.zip columns := by
  obtain ⟨content, modified, readable, hfind⟩ := file_of_isSampleFile hsample
  obtain rfl := readable_of_readSamples hfind h.conditions
  obtain ⟨columns, hcolumns, hzip⟩ := (readSamples_eq_ok_iff hfind).mp h.conditions
  exact ⟨columns, ⟨content, modified, hfind, hcolumns⟩, hzip⟩

theorem counts_of_reads {files : List Path} {runs : List (UInt64 × Conditions)}
    (h : List.Forall₂ (e.Reads disk) files runs) :
    files.map repetitionCount = (runs.map (·.1)).map .ok := by
  rw [List.map_map]
  exact map_eq_map_iff_forall₂.mpr (h.imp fun _ _ hreads => hreads.count)

theorem nodup_counts_iff {files : List Path} {runs : List (UInt64 × Conditions)}
    (hfiles : files.Nodup) (h : List.Forall₂ (e.Reads disk) files runs) :
    (runs.map (·.1)).Nodup ↔ ∀ first ∈ files, ∀ second ∈ files,
      repetitionCount first = repetitionCount second → first = second := by
  have hok : Function.Injective (Except.ok : UInt64 → Except Error UInt64) :=
    fun _ _ => Except.ok.inj
  rw [← List.nodup_map_iff hok, ← counts_of_reads h, List.nodup_map_iff_inj_on hfiles]

theorem exists_readLeaf_iff (hdisk : disk.WellFormed) :
    (∃ record, e.readLeaf disk directory = .ok record) ↔ e.Readable disk directory := by
  simp only [readLeaf_eq_ok_iff]
  constructor
  · rintro ⟨_, files, runs, hfiles, hruns, hnodup, rfl⟩
    obtain ⟨path, hsample⟩ := exists_leafFiles_iff.mp ⟨files, hfiles⟩
    have hmem : ∀ path, SampleIn disk directory path → path ∈ files :=
      fun path => (mem_leafFiles_iff hfiles).mpr
    refine ⟨find_of_sampleIn hsample, ⟨path, hsample⟩, ?_, ?_, ?_⟩
    · intro path hpath
      obtain ⟨run, -, hreads⟩ := exists_right_of_forall₂ hruns (hmem path hpath)
      exact ⟨run.1, hreads.count⟩
    · intro first second n hfirst hsecond hcount hcount'
      exact (nodup_counts_iff (nodup_leafFiles hdisk hfiles) hruns).mp hnodup first
        (hmem first hfirst) second (hmem second hsecond) (hcount.trans hcount'.symm)
    · intro path hpath
      obtain ⟨run, -, hreads⟩ := exists_right_of_forall₂ hruns (hmem path hpath)
      obtain ⟨-, -, -, -, -, hfile⟩ := hpath
      obtain ⟨columns, hcolumns, -⟩ := hreads.holdsColumns hfile
      exact ⟨columns, hcolumns⟩
  · intro h
    obtain ⟨files, hfiles⟩ := exists_leafFiles_iff.mpr h.sample
    have hmem : ∀ path ∈ files, SampleIn disk directory path :=
      fun path => (mem_leafFiles_iff hfiles).mp
    have hreads : ∀ path ∈ files, ∃ run, e.Reads disk path run := by
      intro path hpath
      obtain ⟨n, hcount⟩ := h.counted path (hmem path hpath)
      obtain ⟨columns, content, modified, hfind, hcolumns⟩ := h.sound path (hmem path hpath)
      exact ⟨(n, _), hcount, (readSamples_eq_ok_iff hfind).mpr ⟨columns, hcolumns, rfl⟩⟩
    obtain ⟨runs, hruns⟩ := exists_forall₂ hreads
    refine ⟨_, files, runs, hfiles, hruns, ?_, rfl⟩
    refine (nodup_counts_iff (nodup_leafFiles hdisk hfiles) hruns).mpr ?_
    intro first hfirst second hsecond heq
    obtain ⟨n, hcount⟩ := h.counted first (hmem first hfirst)
    exact h.apart first second n (hmem first hfirst) (hmem second hsecond) hcount (heq ▸ hcount)

theorem perm_repetitions_of_readLeaf {record : RunRecord} {files : List Path}
    (h : e.readLeaf disk directory = .ok record) (hfiles : leafFiles disk directory = .ok files) :
    (files.map repetitionCount).Perm (record.repetitions.map .ok) := by
  obtain ⟨files', runs, hfiles', hruns, hnodup, rfl⟩ := readLeaf_eq_ok_iff.mp h
  rw [hfiles] at hfiles'
  cases hfiles'
  rw [counts_of_reads hruns]
  exact (((RunRecord.perm_ofInserts hnodup).map _).map _).symm

theorem gathers_of_readLeaf (hcolumns : e.columns.Nodup) {record : RunRecord}
    (h : e.readLeaf disk directory = .ok record) : e.Gathers disk directory record := by
  obtain ⟨files, runs, hfiles, hruns, hnodup, rfl⟩ := readLeaf_eq_ok_iff.mp h
  have hascending := RunRecord.ascending_ofInserts runs
  have hperm := RunRecord.perm_ofInserts hnodup
  refine ⟨List.pairwise_map.mpr hascending, ?_, ?_⟩
  · intro n
    have hcounts := (perm_repetitions_of_readLeaf h hfiles).mem_iff (a := .ok n)
    simp only [List.mem_map, Except.ok.injEq, exists_eq_right] at hcounts
    rw [← hcounts]
    exact exists_congr fun path => and_congr_left fun _ => mem_leafFiles_iff hfiles
  · intro path n hsample hcount
    obtain ⟨run, hrun, hreads⟩ :=
      exists_right_of_forall₂ hruns ((mem_leafFiles_iff hfiles).mpr hsample)
    obtain ⟨-, -, -, -, -, hfile⟩ := hsample
    obtain ⟨columns, hholds, hzip⟩ := hreads.holdsColumns hfile
    have hlength : columns.length = e.columns.length := by
      obtain ⟨content, modified, -, hsamples⟩ := hholds
      exact Records.length_of_sampleColumns hsamples
    refine ⟨columns, hholds, hlength, fun j label hlabel => ?_⟩
    have hlookup : (RunRecord.ofInserts runs).runs.lookup n = some run.2 := by
      rw [lookup_eq_some_iff_mem hascending.nodup, hperm.mem_iff]
      have heq : run.1 = n := Except.ok.inj (hreads.count.symm.trans hcount)
      rw [← heq]
      exact hrun
    rw [RunRecord.series?, hlookup, Option.bind_eq_bind, Option.bind_some, hzip]
    exact RunRecord.labelled?_zip hcolumns hlength hlabel

theorem exists_assemble_iff : (∃ dataset, e.assemble disk = .ok dataset) ↔
    ∀ key ∈ e.keys, ∃ record, e.readLeaf disk (e.leafDirectory key) = .ok record := by
  simp only [assemble_eq_ok_iff]
  constructor
  · rintro ⟨dataset, hdataset⟩ key hkey
    obtain ⟨entry, -, -, hread⟩ := exists_right_of_forall₂ hdataset.records hkey
    exact ⟨entry.2, hread⟩
  · intro h
    have hentry : ∀ key ∈ e.keys, ∃ entry : Key × RunRecord, entry.1 = key ∧
        e.readLeaf disk (e.leafDirectory key) = .ok entry.2 := by
      intro key hkey
      obtain ⟨record, hread⟩ := h key hkey
      exact ⟨(key, record), rfl, hread⟩
    obtain ⟨records, hrecords⟩ := exists_forall₂ hentry
    exact ⟨⟨e.name, e.axisNames, e.columns, records⟩, rfl, rfl, rfl, hrecords⟩

theorem sourceFiles_of_entries {dataset : Dataset} (h : e.Assembles disk dataset) :
    ∃ groups : List (List Path), e.sourceFiles disk = .ok groups.flatten ∧
      List.Forall₂ (fun entry files => leafFiles disk (e.leafDirectory entry.1) = .ok files)
        dataset.entries groups := by
  have hleaf : ∀ entry ∈ dataset.entries, ∃ files,
      leafFiles disk (e.leafDirectory entry.1) = .ok files := by
    intro entry hentry
    obtain ⟨-, hread⟩ := h.readLeaf_of_get? (mem_entries_iff.mp hentry)
    obtain ⟨files, -, hfiles, -⟩ := readLeaf_eq_ok_iff.mp hread
    exact ⟨files, hfiles⟩
  obtain ⟨groups, hgroups⟩ := exists_forall₂ hleaf
  refine ⟨groups, sourceFiles_eq_ok_iff.mpr ⟨groups, rfl, ?_⟩, hgroups⟩
  rw [← h.keys_entries, List.forall₂_map_left_iff]
  exact hgroups

/-- A data set can be assembled exactly if every directory of the layout is there and
can be listed, and its sample files can be read, are sound and are told apart by
their counts. Then it has one record per key, in order, with every file of the
directory of that key and no other, and the files that were read are one for each
key and count. -/
theorem assemble_exact (e : Experiment) (disk : Disk) (hvalid : e.validate = .ok ())
    (hdisk : disk.WellFormed) :
    ((∃ dataset, e.assemble disk = .ok dataset) ↔
      ∀ key ∈ e.keys, e.Readable disk (e.leafDirectory key)) ∧
    ∀ dataset, e.assemble disk = .ok dataset →
      dataset.entries.map (·.1) = e.keys ∧
      (∀ entry ∈ dataset.entries, e.Gathers disk (e.leafDirectory entry.1) entry.2) ∧
      ∃ groups : List (List Path), e.sourceFiles disk = .ok groups.flatten ∧
        List.Forall₂ (fun entry files =>
          (∀ path, path ∈ files ↔ SampleIn disk (e.leafDirectory entry.1) path) ∧
            (files.map repetitionCount).Perm (entry.2.repetitions.map .ok))
          dataset.entries groups := by
  constructor
  · rw [exists_assemble_iff]
    exact forall₂_congr fun key _ => exists_readLeaf_iff hdisk
  · intro dataset hdataset
    have hassembles := assemble_eq_ok_iff.mp hdataset
    have hread : ∀ entry ∈ dataset.entries,
        e.readLeaf disk (e.leafDirectory entry.1) = .ok entry.2 :=
      fun entry hentry => (hassembles.readLeaf_of_get? (mem_entries_iff.mp hentry)).2
    obtain ⟨groups, hsources, hgroups⟩ := sourceFiles_of_entries hassembles
    refine ⟨hassembles.keys_entries, fun entry hentry => ?_, groups, hsources, ?_⟩
    · exact gathers_of_readLeaf (valid_of_validate hvalid).columnNames (hread entry hentry)
    · refine ((List.forall₂_and_left _ _).mpr ⟨hread, hgroups⟩).imp fun entry files h => ?_
      exact ⟨fun path => mem_leafFiles_iff h.2, perm_repetitions_of_readLeaf h.1 h.2⟩

def lockingClash : Disk :=
  lockingDisk.install ⟨"data/0/off/0_010.csv"⟩ (Text.encode "3,5\n") ⟨2, 0⟩

theorem sampleIn_lockingClash {name : String} (h : name ∈ ["10.csv", "0_010.csv"]) :
    SampleIn lockingClash ⟨"data/0/off"⟩ (Path.join ⟨"data/0/off"⟩ ⟨name⟩) := by
  have hlist : lockingClash.list ⟨"data/0/off"⟩ = .ok ["10.csv", "0_010.csv"] :=
    toOption_eq_some_iff.mp (by decide +kernel)
  refine ⟨_, name, hlist, h, rfl, ?_⟩
  simp only [List.mem_cons, List.not_mem_nil, or_false] at h
  rcases h with rfl | rfl
  · decide +kernel
  · decide +kernel

theorem assemble_exact_locking :
    ∃ dataset, locking.validate = .ok () ∧ lockingDisk.WellFormed ∧
      locking.assemble lockingDisk = .ok dataset ∧
      dataset.entries.map (·.1) = [⟨["0", "off"]⟩, ⟨["0", "on"]⟩, ⟨["1", "off"]⟩, ⟨["1", "on"]⟩] ∧
      (∀ entry ∈ dataset.entries,
        locking.Gathers lockingDisk (locking.leafDirectory entry.1) entry.2) ∧
      lockingClash.WellFormed ∧ ¬ ∃ other, locking.assemble lockingClash = .ok other := by
  have hdisk : lockingDisk.WellFormed := by decide +kernel
  have hclash : lockingClash.WellFormed := by decide +kernel
  have hsome : (locking.assemble lockingDisk).toOption.isSome := by decide +kernel
  obtain ⟨dataset, hdataset⟩ := Option.isSome_iff_exists.mp hsome
  have hassemble := toOption_eq_some_iff.mp hdataset
  obtain ⟨-, hexact⟩ := assemble_exact locking lockingDisk rfl hdisk
  obtain ⟨hkeys, hgathers, -⟩ := hexact dataset hassemble
  refine ⟨dataset, rfl, hdisk, hassemble, hkeys, hgathers, hclash, ?_⟩
  rw [(assemble_exact locking lockingClash rfl hclash).1]
  intro hreadable
  have happart := (hreadable ⟨["0", "off"]⟩ (by decide)).apart _ _ 10
    (sampleIn_lockingClash (by simp : "10.csv" ∈ _))
    (sampleIn_lockingClash (by simp : "0_010.csv" ∈ _))
    (toOption_eq_some_iff.mp (by decide +kernel)) (toOption_eq_some_iff.mp (by decide +kernel))
  revert happart
  decide +kernel

end Experiment
end CycleCount
