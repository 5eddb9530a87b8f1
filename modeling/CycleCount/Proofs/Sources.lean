import CycleCount.Proofs.Leaves

/-! What assembling depends on: the layout, the components of the sample files
and their contents. The wording of a path matters to errors only. -/

namespace CycleCount

namespace Records

theorem account_origin (first second : Path) (terminated : Bool) (trailing start : Nat)
    (previous : Option (Nat × Nat)) (chunks : List Chunk) :
    List.Forall₂ (fun a b => ∀ line, a = .ok line → b = .ok line)
      (account first terminated trailing start previous chunks)
      (account second terminated trailing start previous chunks) := by
  induction chunks generalizing start previous with
  | nil =>
    cases previous with
    | none => exact .nil
    | some lines =>
      rw [account, account]
      split_ifs
      · exact .cons nofun .nil
      · exact .cons nofun .nil
      · exact .nil
  | cons chunk chunks ih =>
    rw [account, account]
    split
    · exact .cons nofun .nil
    · split_ifs
      · exact .cons nofun .nil
      · exact .cons (fun _ h => h) (ih _ _)

theorem cycles_origin {first : Path} (second : Path) {line : Nat} {field : String} {n : UInt64}
    (h : cycles first line field = .ok n) : cycles second line field = .ok n := by
  unfold cycles at h ⊢
  split at h
  · exact h
  · cases h

theorem sampleRow_origin {first : Path} (second : Path) {columns : Nat} {line : Line}
    {row : List UInt64} (h : sampleRow first columns line = .ok row) :
    sampleRow second columns line = .ok row := by
  unfold sampleRow at h ⊢
  split_ifs at h ⊢
  rw [mapM_eq_ok_iff] at h ⊢
  exact h.imp fun _ _ => cycles_origin second

theorem sampleColumns_origin {first : Path} (second : Path) {columns : Nat} {content : Bytes}
    {series : List (List UInt64)}
    (h : sampleColumns first columns (lines first content) = .ok series) :
    sampleColumns second columns (lines second content) = .ok series := by
  obtain ⟨rows, hrows, h⟩ := bind_eq_ok_iff.mp h
  refine bind_eq_ok_iff.mpr ⟨rows, ?_, ?_⟩
  · rw [mapM_eq_ok_iff] at hrows ⊢
    refine forall₂_of_forall₂ (fun a b row hab ha => ?_) (account_origin first second ..) hrows
    obtain ⟨line, rfl, hrow⟩ := bind_eq_ok_iff.mp ha
    rw [hab line rfl, ok_bind]
    exact sampleRow_origin second hrow
  · split_ifs at h ⊢
    exact h

end Records

theorem Disk.lines_eq_ok_iff {disk : Disk} {path : Path}
    {lines : List (Except Error Records.Line)} :
    disk.lines path = .ok lines ↔
      ∃ entry, disk.opened path = .ok entry ∧ lines = entry.lines path := by
  unfold Disk.lines Disk.openEntry
  cases disk.opened path with
  | error fault => exact ⟨nofun, nofun⟩
  | ok entry => simp [eq_comm]

theorem Disk.lines_of_find {disk : Disk} {path : Path} {content : Bytes} {modified : Instant}
    (h : disk.find path = .ok (.file content modified)) :
    disk.lines path = .ok (Records.lines path content) :=
  lines_eq_ok_iff.mpr ⟨_, opened_eq_ok_iff.mpr ⟨h, rfl⟩, rfl⟩

theorem Disk.lines_of_opened {disk : Disk} {path : Path} {fault : Disk.Fault}
    (h : disk.opened path = .error fault) : disk.lines path = .error (.io path fault) := by
  rw [Disk.lines, Disk.openEntry, h]
  rfl

theorem repetitionCount_eq_ok {first second : Path} (hname : first.fileName? = second.fileName?)
    {n : UInt64} (h : repetitionCount first = .ok n) : repetitionCount second = .ok n := by
  have hstem : first.stem? = second.stem? := by rw [Path.stem?, Path.stem?, hname]
  unfold repetitionCount at h ⊢
  rw [hstem] at h
  simp only at h ⊢
  split at h
  · exact h
  · cases h

namespace Experiment

variable {e c : Experiment} {disk other : Disk}

structure SameFile (disk other : Disk) (first second : Path) : Prop where
  name : first.fileName? = second.fileName?
  content : ∃ content modified modified', disk.find first = .ok (.file content modified) ∧
    other.find second = .ok (.file content modified')

theorem readSamples_eq_ok_iff {path : Path} {content : Bytes} {modified : Instant}
    (hfind : disk.find path = .ok (.file content modified)) {conditions : Conditions} :
    e.readSamples disk path = .ok conditions ↔
      ∃ columns, Records.sampleColumns path e.columns.length (Records.lines path content) =
        .ok columns ∧ conditions = e.columns.zip columns := by
  rw [readSamples, Disk.lines_of_find hfind, ok_bind, bind_eq_ok_iff]
  simp only [pure_eq_ok, Except.ok.injEq, eq_comm]

theorem readable_of_readSamples {path : Path} {content : Bytes} {modified : Instant}
    {readable : Bool} (hfind : disk.find path = .ok (.file content modified readable))
    {conditions : Conditions} (h : e.readSamples disk path = .ok conditions) : readable = true := by
  obtain ⟨lines, hlines, -⟩ := bind_eq_ok_iff.mp h
  obtain ⟨entry, hopened, -⟩ := Disk.lines_eq_ok_iff.mp hlines
  obtain ⟨hfound, hreadable⟩ := Disk.opened_eq_ok_iff.mp hopened
  cases hfind.symm.trans hfound
  exact hreadable

theorem Reads.of_sameFile (hcolumns : e.columns = c.columns) {first second : Path}
    (h : SameFile disk other first second) {run : UInt64 × Conditions}
    (hreads : e.Reads disk first run) : c.Reads other second run := by
  obtain ⟨content, modified, modified', hfirst, hsecond⟩ := h.content
  refine ⟨repetitionCount_eq_ok h.name hreads.count, ?_⟩
  obtain ⟨columns, hsamples, hconditions⟩ := (readSamples_eq_ok_iff hfirst).mp hreads.conditions
  rw [hcolumns] at hsamples hconditions
  exact (readSamples_eq_ok_iff hsecond).mpr
    ⟨columns, Records.sampleColumns_origin second hsamples, hconditions⟩

theorem readLeaf_eq_ok (hcolumns : e.columns = c.columns) {first second : Path}
    {files files' : List Path} (hfirst : leafFiles disk first = .ok files)
    (hsecond : leafFiles other second = .ok files')
    (hfiles : List.Forall₂ (SameFile disk other) files files') {record : RunRecord}
    (h : e.readLeaf disk first = .ok record) : c.readLeaf other second = .ok record := by
  obtain ⟨read, runs, hread, hruns, hnodup, rfl⟩ := readLeaf_eq_ok_iff.mp h
  obtain rfl : files = read := Except.ok.inj (hfirst.symm.trans hread)
  have hsame : List.Forall₂ (c.Reads other) files' runs :=
    forall₂_of_forall₂ (fun _ _ _ hfile hreads => hreads.of_sameFile hcolumns hfile) hfiles hruns
  exact readLeaf_eq_ok_iff.mpr ⟨files', runs, hsecond, hsame, hnodup, rfl⟩

theorem Assembles.readSamples_of_mem {dataset : Dataset} (h : e.Assembles disk dataset)
    {inputs : List Path} (hinputs : e.sourceFiles disk = .ok inputs) {path : Path}
    (hpath : path ∈ inputs) : ∃ conditions, e.readSamples disk path = .ok conditions := by
  obtain ⟨key, hkey, files, hfiles, hpath⟩ := leaf_of_mem_sourceFiles hinputs hpath
  obtain ⟨entry, -, -, hread⟩ := exists_right_of_forall₂ h.records hkey
  obtain ⟨read, runs, hother, hruns, -⟩ := readLeaf_eq_ok_iff.mp hread
  obtain rfl : files = read := Except.ok.inj (hfiles.symm.trans hother)
  obtain ⟨run, -, hreads⟩ := exists_right_of_forall₂ hruns hpath
  exact ⟨run.2, hreads.conditions⟩

theorem sampleNames_of_directory (h : disk.WellFormed) {inputs : List Path}
    (hinputs : e.sourceFiles disk = .ok inputs) :
    ∀ front ∈ e.keys.map (fun key => (e.leafDirectory key).components),
      disk.sampleNames (Disk.placeOf disk.here front) ≠ [] ∧
        (disk.sampleNames (Disk.placeOf disk.here front)).Nodup := by
  intro front hfront
  obtain ⟨key, hkey, rfl⟩ := List.mem_map.mp hfront
  exact ⟨sampleNames_ne_nil h hinputs hkey, h.nodup_sampleNames _⟩

theorem same_leaves (hdisk : disk.WellFormed) (hother : other.WellFormed)
    (hkeys : e.keys = c.keys) {inputs inputs' : List Path}
    (hinputs : e.sourceFiles disk = .ok inputs) (hinputs' : c.sourceFiles other = .ok inputs')
    (hsame : inputs.map Path.components = inputs'.map Path.components) {key : Key}
    (hkey : key ∈ e.keys) :
    (e.leafDirectory key).components = (c.leafDirectory key).components ∧
      disk.sampleNames (disk.place (e.leafDirectory key)) =
        other.sampleNames (other.place (c.leafDirectory key)) := by
  have hinjective : Function.Injective
      fun member : List Path.Component × String => member.1 ++ [.name member.2] := by
    rintro ⟨front, name⟩ ⟨front', name'⟩ heq
    obtain ⟨rfl, hlast⟩ := List.append_inj' heq rfl
    cases hlast
    rfl
  rw [components_sourceFiles hdisk hinputs, components_sourceFiles hother hinputs'] at hsame
  -- The list of all files does not say where one directory ends and the next
  -- begins; that is told by the names, of which no directory has one twice.
  obtain ⟨hdirectories, hnames⟩ := groups_eq_of_flatMap_eq
    (sampleNames_of_directory hdisk hinputs) (sampleNames_of_directory hother hinputs')
    (List.map_injective_iff.mpr hinjective (by
      simpa only [List.flatMap_map, List.map_flatMap, List.map_map, Function.comp_def, Disk.place]
        using hsame))
  rw [← hkeys] at hdirectories
  have hdirectory := List.map_inj_left.mp hdirectories key hkey
  refine ⟨hdirectory, ?_⟩
  rw [Disk.place, Disk.place, ← hdirectory]
  exact hnames _ (List.mem_map_of_mem hkey)

theorem Assembles.of_same_files {dataset : Dataset} (h : e.Assembles disk dataset)
    (hdisk : disk.WellFormed) (hother : other.WellFormed) (hname : e.name = c.name)
    (haxes : e.axisNames = c.axisNames) (hcolumns : e.columns = c.columns)
    (hkeys : e.keys = c.keys) {inputs inputs' : List Path}
    (hinputs : e.sourceFiles disk = .ok inputs) (hinputs' : c.sourceFiles other = .ok inputs')
    (hsame : inputs.map Path.components = inputs'.map Path.components)
    (hcontent : ∀ path ∈ inputs, ∀ path' ∈ inputs', path.components = path'.components →
      ∃ content modified modified', disk.find path = .ok (.file content modified) ∧
        other.find path' = .ok (.file content modified')) :
    c.Assembles other dataset := by
  refine ⟨h.name.trans hname, h.axes.trans haxes, h.labels.trans hcolumns, ?_⟩
  rw [← hkeys]
  -- Leaf by leaf, the files agree in name and content.
  have hread : ∀ key ∈ e.keys, ∀ record, e.readLeaf disk (e.leafDirectory key) = .ok record →
      c.readLeaf other (c.leafDirectory key) = .ok record := by
    intro key hkey record hrecord
    obtain ⟨files, hfiles, hsub⟩ := leafFiles_of_sourceFiles hinputs hkey
    obtain ⟨files', hfiles', hsub'⟩ := leafFiles_of_sourceFiles hinputs' (hkeys ▸ hkey)
    obtain ⟨hdirectory, hnames⟩ := same_leaves hdisk hother hkeys hinputs hinputs' hsame hkey
    refine readLeaf_eq_ok hcolumns hfiles hfiles' ?_ hrecord
    obtain rfl := leafFiles_eq hdisk hfiles
    obtain rfl := leafFiles_eq hother hfiles'
    rw [← hnames] at hsub' ⊢
    rw [List.forall₂_map_left_iff, List.forall₂_map_right_iff, List.forall₂_same]
    intro name hname
    have hisName := hdisk.isName_of_mem_sampleNames hname
    constructor
    · rw [Path.fileName?_join _ hisName, Path.fileName?_join _ hisName]
    · refine hcontent _ (hsub (List.mem_map_of_mem hname)) _ (hsub' (List.mem_map_of_mem hname)) ?_
      rw [Path.components_join _ hisName, Path.components_join _ hisName, hdirectory]
  refine ((List.forall₂_and_left _ _).mpr ⟨hread, h.records⟩).imp fun key entry hentry => ?_
  exact ⟨hentry.2.1, hentry.1 entry.2 hentry.2.2⟩

end Experiment
end CycleCount
