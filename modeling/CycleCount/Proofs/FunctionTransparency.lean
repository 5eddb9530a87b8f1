import CycleCount.Proofs.FunctionSnapshots
import CycleCount.Proofs.Grouping
import CycleCount.Proofs.LockStep
import CycleCount.Proofs.Transparency

/-! Snapshots of functions are transparent as well. A snapshot gives back the
collection it was made of, and it is used only where the two files are what they
were, so that reading them would give the same collection. -/

namespace CycleCount

inductive FunctionRecord.Built : FunctionRecord → Prop
  | measured {index : Nat} {name : String} {baseline treatment : Series} {record : FunctionRecord}
      (h : ofSeries index name baseline treatment = .ok record) : Built record
  | restored {entry : FunctionEntry} {record : FunctionRecord}
      (h : FunctionSnapshot.toRecord entry = .ok record) : Built record

theorem FunctionRecord.hasPoints_of_ofSeries {index : Nat} {name : String}
    {baseline treatment : Series} {record : FunctionRecord}
    (h : ofSeries index name baseline treatment = .ok record) :
    record.baseline.HasPoints ∧ record.treatment.HasPoints := by
  obtain ⟨first, hfirst, h⟩ := bind_eq_ok_iff.mp h
  obtain ⟨second, hsecond, h⟩ := bind_eq_ok_iff.mp h
  obtain ⟨rawOverhead, -, h⟩ := bind_eq_ok_iff.mp h
  obtain ⟨filteredOverhead, -, h⟩ := bind_eq_ok_iff.mp h
  cases h
  have hbaseline := SeriesAnalysis.describes_of_ofSeries hfirst
  have htreatment := SeriesAnalysis.describes_of_ofSeries hsecond
  exact ⟨⟨hbaseline.rawPoints, hbaseline.filteredPoints⟩,
    ⟨htreatment.rawPoints, htreatment.filteredPoints⟩⟩

theorem FunctionRecord.Built.hasPoints {record : FunctionRecord} (h : record.Built) :
    record.baseline.HasPoints ∧ record.treatment.HasPoints := by
  cases h with
  | measured h => exact hasPoints_of_ofSeries h
  | restored h =>
    obtain ⟨baseline, hbaseline, h⟩ := bind_eq_ok_iff.mp h
    obtain ⟨treatment, htreatment, h⟩ := bind_eq_ok_iff.mp h
    cases h
    exact ⟨(SeriesValues.eq_of_toAnalysis hbaseline).2,
      (SeriesValues.eq_of_toAnalysis htreatment).2⟩

theorem FunctionSnapshot.toRecord_entryOf {record : FunctionRecord} (h : record.Built) :
    toRecord (entryOf record) = .ok record := by
  obtain ⟨hbaseline, htreatment⟩ := h.hasPoints
  rw [toRecord, entryOf, SeriesValues.toAnalysis_ofAnalysis hbaseline.1 hbaseline.2, ok_bind,
    SeriesValues.toAnalysis_ofAnalysis htreatment.1 htreatment.2, ok_bind]
  rfl

theorem inSnapshot_eq_ok_iff {α : Type} {path : Path} {x : Except SnapshotFault α} {a : α} :
    inSnapshot path x = .ok a ↔ x = .ok a := by
  cases x with
  | ok b => rw [inSnapshot, Except.ok.injEq, Except.ok.injEq]
  | error fault =>
    constructor
    · intro h
      cases h
    · intro h
      cases h

namespace FunctionCollection

inductive Built : FunctionCollection → Prop
  | loaded {disk : Disk} {baseline treatment : Path} {collection : FunctionCollection}
      (h : load disk baseline treatment = .ok collection) : Built collection
  | collected {records : List FunctionRecord} {collection : FunctionCollection}
      (hrecords : ∀ record ∈ records, record.Built) (h : ofRecords records = .ok collection) :
      Built collection
  | restored {snapshot : FunctionSnapshot} {path : Path} {collection : FunctionCollection}
      (h : snapshot.toCollection path = .ok collection) : Built collection

theorem AllPaired.built {start : Nat} {as bs : List (Except Error FunctionRow)}
    {records : List FunctionRecord} (h : AllPaired start as bs records) :
    ∀ record ∈ records, record.Built := by
  intro record hrecord
  obtain ⟨i, hi⟩ := List.getElem?_of_mem hrecord
  obtain ⟨a, b, -, -, -, hmeasured⟩ := h.paired i record hi
  exact .measured hmeasured

theorem Built.records {collection : FunctionCollection} (h : collection.Built) :
    collection.records.map (·.index) = List.range collection.records.length ∧
      ∀ record ∈ collection.records, record.Built := by
  cases h with
  | loaded h =>
    obtain ⟨first, -, h⟩ := bind_eq_ok_iff.mp h
    obtain ⟨second, -, h⟩ := bind_eq_ok_iff.mp h
    obtain ⟨sequence, hsequence, h⟩ := bind_eq_ok_iff.mp h
    cases h
    obtain ⟨records, hrecords, rfl⟩ := pairRows_eq_ok_iff.mp hsequence
    rw [List.range_eq_range']
    exact ⟨hrecords.indices, hrecords.built⟩
  | collected hrecords h =>
    obtain ⟨hindices, rfl⟩ := ofRecords_eq_ok_iff.mp h
    exact ⟨hindices, hrecords⟩
  | restored h =>
    obtain ⟨records, hrecords, h⟩ := bind_eq_ok_iff.mp h
    obtain ⟨hindices, rfl⟩ := ofRecords_eq_ok_iff.mp h
    refine ⟨hindices, fun record hrecord => ?_⟩
    have hentries := mapM_eq_ok_iff.mp (inSnapshot_eq_ok_iff.mp hrecords)
    obtain ⟨entry, -, hentry⟩ := exists_left_of_forall₂ hentries hrecord
    exact .restored hentry

theorem Built.toCollection_ofCollection {collection : FunctionCollection} (h : collection.Built)
    (inputs : List InputStamp) (path : Path) :
    (FunctionSnapshot.ofCollection collection inputs).toCollection path = .ok collection := by
  obtain ⟨hindices, hrecords⟩ := h.records
  have hentries : (collection.records.map FunctionSnapshot.entryOf).mapM FunctionSnapshot.toRecord =
      .ok collection.records := by
    rw [mapM_eq_ok_iff, List.forall₂_map_left_iff, List.forall₂_same]
    exact fun record hrecord => FunctionSnapshot.toRecord_entryOf (hrecords record hrecord)
  rw [FunctionSnapshot.toCollection, FunctionSnapshot.ofCollection, hentries, inSnapshot, ok_bind]
  exact ofRecords_eq_ok_iff.mpr ⟨hindices, rfl⟩

end FunctionCollection

section SameFiles

def Keeps {α : Type} (x y : Except Error α) : Prop := ∀ a, x = .ok a → y = .ok a

theorem FunctionRow.ofLine_origin {first : Path} (second : Path) {line : Records.Line}
    {row : FunctionRow} (h : ofLine first line = .ok row) : ofLine second line = .ok row := by
  unfold ofLine at h ⊢
  split at h
  · cases h
  · split_ifs at h ⊢ with hname
    obtain ⟨cycles, hcycles, h⟩ := bind_eq_ok_iff.mp h
    refine bind_eq_ok_iff.mpr ⟨cycles, ?_, ?_⟩
    · rw [mapM_eq_ok_iff] at hcycles ⊢
      exact hcycles.imp fun _ _ => Records.cycles_origin second
    · split_ifs at h ⊢
      exact h

theorem FunctionRow.read_origin (first second : Path) (content : Bytes) :
    List.Forall₂ Keeps (read first (Records.lines first content))
      (read second (Records.lines second content)) := by
  have hlines : List.Forall₂ Keeps (Records.lines first content) (Records.lines second content) :=
    Records.account_origin first second ..
  rw [read, read, List.forall₂_map_left_iff, List.forall₂_map_right_iff]
  apply hlines.imp
  intro a b hab row hrow
  obtain ⟨line, rfl, hline⟩ := bind_eq_ok_iff.mp hrow
  rw [hab line rfl, ok_bind]
  exact ofLine_origin second hline

namespace FunctionCollection

theorem AllPaired.of_keeps {start : Nat} {as bs as' bs' : List (Except Error FunctionRow)}
    {records : List FunctionRecord} (h : AllPaired start as bs records)
    (has : List.Forall₂ Keeps as as') (hbs : List.Forall₂ Keeps bs bs') :
    AllPaired start as' bs' records := by
  refine ⟨has.length_eq ▸ h.first, hbs.length_eq ▸ h.second, fun i record hrecord => ?_⟩
  obtain ⟨a, b, ha, hb, hmade⟩ := h.paired i record hrecord
  obtain ⟨a', ha', hkeeps⟩ := getElem?_of_forall₂ has ha
  obtain ⟨b', hb', hkeeps'⟩ := getElem?_of_forall₂ hbs hb
  rw [hkeeps a rfl] at ha'
  rw [hkeeps' b rfl] at hb'
  exact ⟨a, b, ha', hb', hmade⟩

theorem load_eq_ok_iff {disk : Disk} {baseline treatment : Path}
    {collection : FunctionCollection} :
    load disk baseline treatment = .ok collection ↔
      ∃ first second changed changed', disk.find baseline = .ok (.file first changed) ∧
        disk.find treatment = .ok (.file second changed') ∧
        AllPaired 0 (FunctionRow.read baseline (Records.lines baseline first))
          (FunctionRow.read treatment (Records.lines treatment second)) collection.records := by
  constructor
  · intro h
    obtain ⟨_, hfirst, hrest⟩ := bind_eq_ok_iff.mp h
    obtain ⟨_, hsecond, -⟩ := bind_eq_ok_iff.mp hrest
    have hrecords := (load_eq_ok_iff_allPaired (rows_of_lines hfirst) (rows_of_lines hsecond)).mp h
    obtain ⟨first, hopened, rfl⟩ := Disk.lines_eq_ok_iff.mp hfirst
    obtain ⟨second, hopened', rfl⟩ := Disk.lines_eq_ok_iff.mp hsecond
    obtain ⟨hbaseline, hreadable⟩ := Disk.opened_eq_ok_iff.mp hopened
    obtain ⟨htreatment, hreadable'⟩ := Disk.opened_eq_ok_iff.mp hopened'
    -- A directory can be opened, but its rows begin with an error.
    obtain ⟨hsound, hsound'⟩ := hrecords.sound
    cases first with
    | directory about =>
      obtain ⟨row, hrow⟩ := hsound _ (List.mem_cons_self ..)
      cases hrow
    | file first changed readable =>
      obtain rfl : readable = true := hreadable
      cases second with
      | directory about =>
        obtain ⟨row, hrow⟩ := hsound' _ (List.mem_cons_self ..)
        cases hrow
      | file second changed' readable' =>
        obtain rfl : readable' = true := hreadable'
        exact ⟨first, second, changed, changed', hbaseline, htreatment, hrecords⟩
  · rintro ⟨first, second, changed, changed', hbaseline, htreatment, hrecords⟩
    exact (load_eq_ok_iff_allPaired (rows_of_lines (Disk.lines_of_find hbaseline))
      (rows_of_lines (Disk.lines_of_find htreatment))).mpr hrecords

theorem load_of_same_files {earlier disk : Disk} {baseline treatment baseline' treatment' : Path}
    {collection : FunctionCollection}
    (hload : load earlier baseline treatment = .ok collection)
    (hbaseline : ∀ content changed, earlier.find baseline = .ok (.file content changed) →
      disk.find baseline' = .ok (.file content changed))
    (htreatment : ∀ content changed, earlier.find treatment = .ok (.file content changed) →
      disk.find treatment' = .ok (.file content changed)) :
    load disk baseline' treatment' = .ok collection := by
  obtain ⟨first, second, changed, changed', hfirst, hsecond, hrows⟩ := load_eq_ok_iff.mp hload
  have hrows' := hrows.of_keeps (FunctionRow.read_origin baseline baseline' first)
    (FunctionRow.read_origin treatment treatment' second)
  exact load_eq_ok_iff.mpr ⟨first, second, changed, changed', hbaseline _ _ hfirst,
    htreatment _ _ hsecond, hrows'⟩

end FunctionCollection
end SameFiles

/-- A stamp is never used again for something else, except at `place`. -/
def StampsIdentify (place : Disk.Location) (states : List Disk) : Prop :=
  ∀ disk ∈ states, ∀ other ∈ states, ∀ old ∈ disk.entries, ∀ new ∈ other.entries,
    old.1 = new.1 → old.1 ≠ place → old.2.stamp = new.2.stamp → old.2.content = new.2.content

instance (place : Disk.Location) (states : List Disk) : Decidable (StampsIdentify place states) :=
  inferInstanceAs (Decidable (∀ disk ∈ states, ∀ other ∈ states, ∀ old ∈ disk.entries,
    ∀ new ∈ other.entries, old.1 = new.1 → old.1 ≠ place → old.2.stamp = new.2.stamp →
      old.2.content = new.2.content))

theorem StampsIdentify.find_eq {states : List Disk} {place : Disk.Location}
    (h : StampsIdentify place states) {earlier disk : Disk} (hearlier : earlier ∈ states)
    (hdisk : disk ∈ states) (hsuccessor : earlier.Successor disk) {path path' : Path}
    {old new : InputStamp} (hold : InputStamp.take earlier path = .ok old)
    (hnew : InputStamp.take disk path' = .ok new) (hagrees : old.agrees new = true)
    (hplace : disk.place path' ≠ place) {content : Bytes} {changed : Instant}
    (hfind : earlier.find path = .ok (.file content changed)) :
    disk.find path' = .ok (.file content changed) := by
  obtain ⟨entry, hentry, rfl⟩ := InputStamp.take_eq_ok_iff.mp hnew
  obtain ⟨_, hfile, rfl⟩ := InputStamp.take_eq_ok_iff.mp hold
  obtain rfl := Except.ok.inj (hfind.symm.trans hfile)
  obtain ⟨hcomponents, hlength, htime⟩ := InputStamp.agrees_iff.mp hagrees
  have hsame : earlier.place path = disk.place path' := by
    rw [Disk.place, Disk.place, hsuccessor.here]
    exact congrArg _ hcomponents
  have hfirst := Disk.entry?_of_find hfind
  have hsecond := Disk.entry?_of_find hentry
  have hne := Disk.ne_nil_of_entry?_file hfirst
  rw [hsame] at hfirst hne
  have hcontent : .ok content = entry.content :=
    h earlier hearlier disk hdisk _ (Disk.mem_entries_of_entry?_eq_some hne hfirst) _
      (Disk.mem_entries_of_entry?_eq_some hne hsecond) rfl hplace
      (Prod.ext hlength (Option.some.inj htime))
  cases entry with
  | directory about => cases hcontent
  | file content' changed' readable =>
    cases hcontent
    cases htime
    obtain rfl := hsuccessor.readable hfirst hsecond
    exact hentry

namespace FunctionCollection

variable {disk : Disk} {baseline treatment : Path}

def compute (disk : Disk) (baseline treatment cache : Path) :
    Except Failure (FunctionCollection × Disk) := do
  let collection ← lift (load disk baseline treatment)
  keep disk (some cache) (fun path => saveFunctions disk path collection [baseline, treatment])
    collection

theorem lines_of_fault {path : Path} {fault : Disk.Fault} (h : disk.find path = .error fault) :
    disk.lines path = .error (.io path fault) :=
  Disk.lines_of_opened (by rw [Disk.opened, h, error_bind])

/-- Files that cannot be stamped cannot be read either, for the same reason or since
the first of them may not be read. -/
theorem load_of_denies (h : disk.Denies baseline) (treatment : Path) :
    load disk baseline treatment = .error (.io baseline .denied) := by
  rw [load, Disk.lines_of_opened (Disk.opened_of_denies h)]
  rfl

theorem compute_of_denies (h : disk.Denies baseline) (treatment path : Path) :
    compute disk baseline treatment path = .error (.analysis (.io baseline .denied)) := by
  rw [compute, load_of_denies h]
  rfl

theorem load_of_stampInputs {error : Error}
    (h : stampInputs disk [baseline, treatment] = .error error) :
    error.isUnusableSnapshot = false ∧ (load disk baseline treatment = .error error ∨
      disk.Denies baseline ∧
        ∃ fault, disk.find treatment = .error fault ∧ error = .io treatment fault) := by
  rw [stampInputs, List.mapM_cons] at h
  rcases bind_eq_error_iff.mp h with hfirst | ⟨first, hfirst, hrest⟩
  · obtain ⟨fault, hfind, rfl⟩ := InputStamp.take_eq_error_iff.mp hfirst
    rw [load, lines_of_fault hfind]
    exact ⟨rfl, .inl rfl⟩
  · obtain ⟨entry, hfind, -⟩ := InputStamp.take_eq_ok_iff.mp hfirst
    have hsecond : InputStamp.take disk treatment = .error error := by
      cases htake : InputStamp.take disk treatment with
      | error other =>
        rw [List.mapM_cons, htake] at hrest
        cases hrest
        rfl
      | ok second =>
        rw [List.mapM_cons, htake] at hrest
        cases hrest
    obtain ⟨fault, hmissing, rfl⟩ := InputStamp.take_eq_error_iff.mp hsecond
    refine ⟨rfl, ?_⟩
    by_cases hdenies : disk.Denies baseline
    · exact .inr ⟨hdenies, fault, hmissing, rfl⟩
    · have hlines := Disk.lines_eq_ok_iff.mpr
        ⟨entry, Disk.opened_of_not_denies hfind hdenies, rfl⟩
      rw [load, hlines, ok_bind, lines_of_fault hmissing]
      exact .inl rfl

theorem result_of_obtain (baseline treatment : Path) {path : Path} (hopen : ¬disk.Denies path) :
    (obtain disk baseline treatment (some path)).result = compute disk baseline treatment path ∨
    (∃ error, stampInputs disk [baseline, treatment] = .error error ∧
      (obtain disk baseline treatment (some path)).result = .error (.analysis error)) ∨
    ∃ content modified kept current, disk.find path = .ok (.file content modified) ∧
      Payload.read path content = .ok (.functions kept) ∧
      stampInputs disk [baseline, treatment] = .ok current ∧
      List.Forall₂ (fun old new => old.agrees new = true) kept.inputs current ∧
      ∀ collection, kept.toCollection path = .ok collection →
        (obtain disk baseline treatment (some path)).result = .ok (collection, disk) := by
  unfold obtain
  dsimp only
  cases hcontains : disk.contains path with
  | false =>
    left
    rw [consult_of_not_contains hcontains]
    rfl
  | true =>
    obtain ⟨entry, hfind⟩ := Disk.contains_iff.mp hcontains
    rw [consult_of_find hfind]
    rcases loadFunctions_cases (Disk.opened_of_not_denies hfind hopen) [baseline, treatment] with
      ⟨error, hload, herror⟩ | ⟨error, hload, hstamps⟩ |
      ⟨content, modified, kept, current, hfile, hread, hstamps, hagree, hload⟩
    · left
      simp only [hload, Consulted.ofLoad, herror, if_true]
      rfl
    · right; left
      refine ⟨error, hstamps, ?_⟩
      simp only [hload, Consulted.ofLoad, (load_of_stampInputs hstamps).1, Bool.false_eq_true,
        if_false]
    · right; right
      refine ⟨content, modified, kept, current, hfile, hread, hstamps, hagree, ?_⟩
      intro collection hcollection
      simp only [hload, hcollection, Consulted.ofLoad, if_true]

theorem load_of_kept {states : List Disk} {place : Disk.Location}
    (hstates : StampsIdentify place states) {earlier : Disk} (hearlier : earlier ∈ states)
    (hdisk : disk ∈ states) (hsuccessor : earlier.Successor disk) {source source' : Path} {kept : FunctionSnapshot}
    (hkept : snapshot earlier source source' = .ok kept) {current : List InputStamp}
    (hcurrent : stampInputs disk [baseline, treatment] = .ok current)
    (hagree : List.Forall₂ (fun old new => old.agrees new = true) kept.inputs current)
    (hbaseline : disk.place baseline ≠ place) (htreatment : disk.place treatment ≠ place)
    (path : Path) : ∃ collection, kept.toCollection path = .ok collection ∧
      load disk baseline treatment = .ok collection := by
  obtain ⟨collection, hload, hrest⟩ := bind_eq_ok_iff.mp hkept
  obtain ⟨recorded, hrecorded, hsnapshot⟩ := bind_eq_ok_iff.mp hrest
  cases hsnapshot
  refine ⟨collection, Built.toCollection_ofCollection (.loaded hload) recorded path, ?_⟩
  rw [stampInputs, mapM_eq_ok_iff] at hrecorded hcurrent
  have hagree : List.Forall₂ (fun old new => old.agrees new = true) recorded current := hagree
  cases hrecorded with | cons hold hrecorded =>
  cases hrecorded with | cons hold' hrecorded =>
  cases hrecorded
  cases hcurrent with | cons hnew hcurrent =>
  cases hcurrent with | cons hnew' hcurrent =>
  cases hcurrent
  cases hagree with | cons hfirst hagree =>
  cases hagree with | cons hsecond hagree =>
  exact load_of_same_files hload
    (fun _ _ => hstates.find_eq hearlier hdisk hsuccessor hold hnew hfirst hbaseline)
    (fun _ _ => hstates.find_eq hearlier hdisk hsuccessor hold' hnew' hsecond htreatment)

theorem result_of_history {path : Path} {start : Disk} (hstart : start.WellFormed)
    (hbaseline : start.place baseline ≠ start.place path)
    (htreatment : start.place treatment ≠ start.place path)
    (hfresh : ∀ entry, start.entry? (start.place path) = some entry →
      entry.isFile = false ∧ entry.isReadable = true)
    {events : List Event} (hevents : ∀ event ∈ events, event.Admissible (start.place path))
    (hreads : ReadsBack path start events)
    (hstamps : StampsIdentify (start.place path) (statesFrom start events)) :
    (obtain (final start events) baseline treatment (some path)).result.map Prod.fst =
        (compute (final start events) baseline treatment path).map Prod.fst ∨
      ∃ error, stampInputs (final start events) [baseline, treatment] = .error error ∧
        (obtain (final start events) baseline treatment (some path)).result =
          .error (.analysis error) := by
  have hguarded := guarded_of_fresh hstart hfresh hevents hreads
  have hmem := final_mem_statesFrom start events
  have hsuccessor : ∀ earlier ∈ statesFrom start events, earlier.Successor (final start events) :=
    fun _ => successor_of_mem_statesFrom hstart
  have hhere := (hsuccessor start (mem_statesFrom_self start events)).here
  rw [Disk.place, ← hhere, ← Disk.place] at hbaseline htreatment
  generalize final start events = disk at hguarded hmem hsuccessor hbaseline htreatment ⊢
  rcases result_of_obtain baseline treatment hguarded.not_denies with hresult |
    ⟨error, herror, hresult⟩ |
    ⟨content, modified, kept, current, hfind, hread, hcurrent, hagree, hresult⟩
  · exact .inl (by rw [hresult])
  · exact .inr ⟨error, herror, hresult⟩
  -- The snapshot was used: it leads back to the run that wrote it.
  · left
    have hentry := Disk.entry?_of_find hfind
    rw [hguarded.placed] at hentry
    obtain ⟨payload, created, rfl, hback, htraceable⟩ := hguarded.traced content modified true hentry
    obtain rfl := hback _ hread
    cases htraceable with
    | functions hearlier hkept =>
      obtain ⟨collection, hcollection, hload⟩ := load_of_kept hstamps hearlier hmem
        (hsuccessor _ hearlier) hkept hcurrent hagree hbaseline htreatment path
      obtain ⟨disk', hsave⟩ := exists_saveFunctions hfind hcurrent collection
      rw [hresult collection hcollection, compute, hload]
      simp only [lift, ok_bind, keep, hsave, Except.map]

/-- Whatever runs have shared a snapshot and whatever was done to other files, as
long as the stamps of those tell them apart: the collection of two files is the
same with the snapshot as without it, and so is the failure. Only if the first file
is there and may not be read can it be the second that is reported, where that one is
missing. A snapshot gives back every collection that can be put into it. -/
theorem collection_transparent (baseline treatment path : Path) (start : Disk)
    (hstart : start.WellFormed)
    (hbaseline : start.place baseline ≠ start.place path)
    (htreatment : start.place treatment ≠ start.place path)
    (hfresh : ∀ entry, start.entry? (start.place path) = some entry →
      entry.isFile = false ∧ entry.isReadable = true)
    (events : List Event) (hevents : ∀ event ∈ events, event.Admissible (start.place path))
    (hreads : ReadsBack path start events)
    (hstamps : StampsIdentify (start.place path) (statesFrom start events)) :
    (¬(final start events).Denies baseline →
      (obtain (final start events) baseline treatment (some path)).result.map Prod.fst =
        (compute (final start events) baseline treatment path).map Prod.fst) ∧
    ((final start events).Denies baseline →
      compute (final start events) baseline treatment path =
        .error (.analysis (.io baseline .denied)) ∧
      ((obtain (final start events) baseline treatment (some path)).result =
          .error (.analysis (.io baseline .denied)) ∨
        ∃ fault, (final start events).find treatment = .error fault ∧
          (obtain (final start events) baseline treatment (some path)).result =
            .error (.analysis (.io treatment fault)))) ∧
    ∀ collection, Built collection → ∀ inputs origin,
      (FunctionSnapshot.ofCollection collection inputs).toCollection origin = .ok collection := by
  have hhistory := result_of_history hstart hbaseline htreatment hfresh hevents hreads hstamps
  refine ⟨fun hopen => ?_, fun hdenies => ?_, fun collection h => h.toCollection_ofCollection⟩
  · rcases hhistory with hsame | ⟨error, herror, hresult⟩
    · exact hsame
    · obtain ⟨-, hload | ⟨hdenies, -⟩⟩ := load_of_stampInputs herror
      · rw [hresult, compute, hload]
        rfl
      · exact absurd hdenies hopen
  · have hcompute := compute_of_denies hdenies treatment path
    refine ⟨hcompute, ?_⟩
    rcases hhistory with hsame | ⟨error, herror, hresult⟩
    · left
      rw [hcompute] at hsame
      exact map_eq_error_iff.mp hsame
    · obtain ⟨-, hfails | ⟨-, fault, hmissing, rfl⟩⟩ := load_of_stampInputs herror
      · obtain rfl := Except.error.inj ((load_of_denies hdenies treatment).symm.trans hfails)
        exact .inl hresult
      · exact .inr ⟨fault, hmissing, hresult⟩

theorem obtain_of_snapshot {path : Path} {content : Bytes} {modified : Instant}
    (hfind : disk.find path = .ok (.file content modified)) {kept : FunctionSnapshot}
    (hread : Payload.read path content = .ok (.functions kept))
    (hcheck : checkInputs disk path kept.inputs [baseline, treatment] = .ok ())
    {collection : FunctionCollection} (hcollection : kept.toCollection path = .ok collection) :
    obtain disk baseline treatment (some path) = ⟨.hit, .ok (collection, disk)⟩ := by
  have hload : loadFunctions disk path [baseline, treatment] = .ok collection := by
    simp only [loadFunctions, readPayload_of_find hfind, hread, ok_bind, hcheck, hcollection]
  simp only [obtain, consult_of_find hfind, hload, Consulted.ofLoad, if_true]

theorem obtain_of_stampInputs {path : Path} {content : Bytes} {modified : Instant}
    (hfind : disk.find path = .ok (.file content modified)) {kept : FunctionSnapshot}
    (hread : Payload.read path content = .ok (.functions kept)) {error : Error}
    (hstamps : stampInputs disk [baseline, treatment] = .error error) :
    (obtain disk baseline treatment (some path)).result = .error (.analysis error) := by
  have hload : loadFunctions disk path [baseline, treatment] = .error error := by
    simp only [loadFunctions, readPayload_of_find hfind, hread, ok_bind, checkInputs, hstamps,
      error_bind]
  simp only [obtain, consult_of_find hfind, hload, Consulted.ofLoad,
    (load_of_stampInputs hstamps).1, Bool.false_eq_true, if_false]

theorem apply_of_snapshot {disk' : Disk} {path : Path} {kept : FunctionSnapshot}
    (hcontains : disk.contains path = false) (hkept : snapshot disk baseline treatment = .ok kept)
    (hwrite : writePayload disk path (.functions kept) = .ok disk') :
    (Run.functions baseline treatment (some path)).apply disk = disk' := by
  obtain ⟨collection, hload, hrest⟩ := bind_eq_ok_iff.mp hkept
  obtain ⟨stamps, hstamps, hsnapshot⟩ := bind_eq_ok_iff.mp hrest
  cases hsnapshot
  have hsave : saveFunctions disk path collection [baseline, treatment] = .ok disk' := by
    rw [saveFunctions, hstamps, ok_bind]
    exact hwrite
  simp only [Run.apply, Attempt.leaves, obtain, consult, Option.filter_some, hcontains,
    Bool.false_eq_true, if_false, hload, lift, ok_bind, keep, hsave]

def steadyStart : Disk where
  entries := [(["locked.csv"], .file (Text.encode "f,5\n") ⟨1, 0⟩ false)]

def steadyHistory : List Event :=
  [.edit (.write ⟨"a.csv"⟩ (Text.encode "f,4\n") ⟨1, 0⟩),
    .edit (.write ⟨"b.csv"⟩ (Text.encode "f,6\n") ⟨1, 0⟩),
    .run (.functions ⟨"a.csv"⟩ ⟨"b.csv"⟩ (some ⟨"c.json"⟩)),
    .edit (.write ⟨"notes.txt"⟩ (Text.encode "steady") ⟨6, 0⟩)]

def steadySnapshot : FunctionSnapshot where
  inputs := [⟨⟨"a.csv"⟩, 4, some ⟨1, 0⟩⟩, ⟨⟨"b.csv"⟩, 4, some ⟨1, 0⟩⟩]
  functions := [⟨0, "f", shiftedValues 4 4, shiftedValues 6 6, 1.5, 1.5⟩]

def steadyText : Bytes := Text.encode (Payload.envelope ⟨0, 0⟩ (.functions steadySnapshot))

theorem read_steadyText :
    Payload.read ⟨"c.json"⟩ steadyText = .ok (.functions steadySnapshot) := by
  simp only [steadyText, steadySnapshot, shiftedValues, Payload.envelope, Payload.toJson,
    InputStamp.toJson, FunctionEntry.toJson, SeriesValues.toJson, SummaryRecord.toJson, Json.list,
    Json.words, Json.reals, Json.optional, Json.quartiles, List.map_cons,
    List.map_nil, Json.compact, Json.compactMembers, Json.compactEntries, Text.encode_append]
  refine toOption_eq_some_iff.mp ?_
  decide +kernel

def steadyFiles : Disk where
  entries := steadyStart.entries ++ [(["a.csv"], .file (Text.encode "f,4\n") ⟨1, 0⟩),
    (["b.csv"], .file (Text.encode "f,6\n") ⟨1, 0⟩)]

def steadyKept : Disk where
  entries := steadyFiles.entries ++ [(["c.json"], .file steadyText ⟨0, 0⟩)]
  now := ⟨0, 1⟩

def steadyFinal : Disk :=
  { steadyKept with
    entries := steadyKept.entries ++ [(["notes.txt"], .file (Text.encode "steady") ⟨6, 0⟩)] }

theorem snapshot_steadyFiles :
    snapshot steadyFiles ⟨"a.csv"⟩ ⟨"b.csv"⟩ = .ok steadySnapshot :=
  toOption_eq_some_iff.mp (by decide +kernel)

theorem apply_steadyFiles :
    (Run.functions ⟨"a.csv"⟩ ⟨"b.csv"⟩ (some ⟨"c.json"⟩)).apply steadyFiles = steadyKept :=
  apply_of_snapshot rfl snapshot_steadyFiles rfl

theorem statesFrom_steadyHistory : statesFrom steadyStart steadyHistory =
    [steadyStart, { entries := steadyFiles.entries.take 2 }, steadyFiles, steadyKept,
      steadyFinal] := by
  have hfirst : Edit.apply steadyStart (.write ⟨"a.csv"⟩ (Text.encode "f,4\n") ⟨1, 0⟩) =
      { entries := steadyFiles.entries.take 2 } := rfl
  have hsecond : Edit.apply { entries := steadyFiles.entries.take 2 }
      (.write ⟨"b.csv"⟩ (Text.encode "f,6\n") ⟨1, 0⟩) = steadyFiles := rfl
  have hnotes : Edit.apply steadyKept (.write ⟨"notes.txt"⟩ (Text.encode "steady") ⟨6, 0⟩) =
      steadyFinal := rfl
  simp only [steadyHistory, statesFrom, Event.apply, hfirst, hsecond, apply_steadyFiles, hnotes]

theorem final_steadyHistory : final steadyStart steadyHistory = steadyFinal := by
  have hlast := getLast?_statesFrom steadyStart steadyHistory
  rw [statesFrom_steadyHistory] at hlast
  exact (Option.some.inj hlast).symm

theorem wellFormed_steadyStart : steadyStart.WellFormed := by
  refine ⟨List.nodup_singleton _, fun entry hentry name hname => ?_, nofun⟩
  obtain rfl := List.mem_singleton.mp hentry
  exact Disk.isName_of_mem_spelled (show name ∈ Disk.spelled ⟨"locked.csv"⟩ from hname)

theorem admissible_steadyHistory :
    ∀ event ∈ steadyHistory, event.Admissible (steadyStart.place ⟨"c.json"⟩) := by
  intro event hevent
  simp only [steadyHistory, List.mem_cons, List.not_mem_nil, or_false] at hevent
  rcases hevent with rfl | rfl | rfl | rfl
  · show ["c.json"] ≠ ["a.csv"]
    simp
  · show ["c.json"] ≠ ["b.csv"]
    simp
  · exact trivial
  · show ["c.json"] ≠ ["notes.txt"]
    simp

theorem stampsIdentify_steadyHistory :
    StampsIdentify (steadyStart.place ⟨"c.json"⟩) (statesFrom steadyStart steadyHistory) := by
  rw [statesFrom_steadyHistory]
  decide +kernel

theorem readsBack_steadyHistory : ReadsBack ⟨"c.json"⟩ steadyStart steadyHistory := by
  refine ⟨nofun, nofun, ?_, nofun, trivial⟩
  have hkept : Run.payload? steadyFiles (.functions ⟨"a.csv"⟩ ⟨"b.csv"⟩ (some ⟨"c.json"⟩)) =
      some (.functions steadySnapshot) := by
    rw [Run.payload?, snapshot_steadyFiles]
    rfl
  show ∀ payload ∈ Run.payload? steadyFiles (.functions ⟨"a.csv"⟩ ⟨"b.csv"⟩ (some ⟨"c.json"⟩)),
    payload.ReadsBack ⟨"c.json"⟩ steadyFiles.now
  rw [hkept]
  rintro _ ⟨⟩ result hresult
  have hread : Payload.read ⟨"c.json"⟩ (Text.encode (Payload.envelope ⟨0, 0⟩
      (.functions steadySnapshot))) = .ok result := hresult
  rw [← steadyText, read_steadyText] at hread
  exact (Except.ok.inj hread).symm

theorem find_steadyFinal : steadyFinal.find ⟨"c.json"⟩ = .ok (.file steadyText ⟨0, 0⟩) := rfl

theorem use_of_steadyHistory :
    (obtain (final steadyStart steadyHistory) ⟨"a.csv"⟩ ⟨"b.csv"⟩ (some ⟨"c.json"⟩)).use = .hit := by
  have hcheck : checkInputs steadyFinal ⟨"c.json"⟩ steadySnapshot.inputs
      [⟨"a.csv"⟩, ⟨"b.csv"⟩] = .ok () := toOption_eq_some_iff.mp (by decide +kernel)
  have hsome : (steadySnapshot.toCollection ⟨"c.json"⟩).toOption.isSome := by decide +kernel
  obtain ⟨collection, hcollection⟩ := Option.isSome_iff_exists.mp hsome
  rw [final_steadyHistory, obtain_of_snapshot find_steadyFinal read_steadyText hcheck
    (toOption_eq_some_iff.mp hcollection)]

theorem collection_transparent_steady :
    (∀ event ∈ steadyHistory, event.Admissible (steadyStart.place ⟨"c.json"⟩)) ∧
      ReadsBack ⟨"c.json"⟩ steadyStart steadyHistory ∧
      StampsIdentify (steadyStart.place ⟨"c.json"⟩) (statesFrom steadyStart steadyHistory) ∧
      (obtain (final steadyStart steadyHistory) ⟨"a.csv"⟩ ⟨"b.csv"⟩ (some ⟨"c.json"⟩)).use = .hit ∧
      (obtain (final steadyStart steadyHistory) ⟨"a.csv"⟩ ⟨"b.csv"⟩
          (some ⟨"c.json"⟩)).result.map Prod.fst =
        (compute (final steadyStart steadyHistory) ⟨"a.csv"⟩ ⟨"b.csv"⟩ ⟨"c.json"⟩).map Prod.fst := by
  have hbaseline : ["a.csv"] ≠ ["c.json"] := by simp
  have htreatment : ["b.csv"] ≠ ["c.json"] := by simp
  have hopen : ¬(final steadyStart steadyHistory).Denies ⟨"a.csv"⟩ := by
    rw [final_steadyHistory]
    rintro ⟨entry, hfind, hdenied⟩
    cases hfind
    cases hdenied
  exact ⟨admissible_steadyHistory, readsBack_steadyHistory, stampsIdentify_steadyHistory,
    use_of_steadyHistory,
    (collection_transparent ⟨"a.csv"⟩ ⟨"b.csv"⟩ ⟨"c.json"⟩ steadyStart wellFormed_steadyStart
      hbaseline htreatment nofun steadyHistory admissible_steadyHistory
      readsBack_steadyHistory stampsIdentify_steadyHistory).1 hopen⟩

/-- With a snapshot the stamps of both files are taken before either is opened, so
that the second is missed before the first is refused. -/
theorem denied_baseline_unnoticed :
    steadyStart.WellFormed ∧
      steadyStart.place ⟨"locked.csv"⟩ ≠ steadyStart.place ⟨"c.json"⟩ ∧
      steadyStart.place ⟨"missing.csv"⟩ ≠ steadyStart.place ⟨"c.json"⟩ ∧
      steadyStart.contains ⟨"c.json"⟩ = false ∧
      (∀ event ∈ steadyHistory, event.Admissible (steadyStart.place ⟨"c.json"⟩)) ∧
      ReadsBack ⟨"c.json"⟩ steadyStart steadyHistory ∧
      StampsIdentify (steadyStart.place ⟨"c.json"⟩) (statesFrom steadyStart steadyHistory) ∧
      (obtain (final steadyStart steadyHistory) ⟨"locked.csv"⟩ ⟨"missing.csv"⟩
          (some ⟨"c.json"⟩)).result = .error (.analysis (.io ⟨"missing.csv"⟩ .notFound)) ∧
      compute (final steadyStart steadyHistory) ⟨"locked.csv"⟩ ⟨"missing.csv"⟩ ⟨"c.json"⟩ =
        .error (.analysis (.io ⟨"locked.csv"⟩ .denied)) := by
  have hstamps : stampInputs steadyFinal [⟨"locked.csv"⟩, ⟨"missing.csv"⟩] =
      .error (.io ⟨"missing.csv"⟩ .notFound) := rfl
  have hdenies : steadyFinal.Denies ⟨"locked.csv"⟩ := ⟨_, rfl, rfl⟩
  have hbaseline : ["locked.csv"] ≠ ["c.json"] := by simp
  have htreatment : ["missing.csv"] ≠ ["c.json"] := by simp
  rw [final_steadyHistory]
  exact ⟨wellFormed_steadyStart, hbaseline, htreatment, rfl,
    admissible_steadyHistory, readsBack_steadyHistory, stampsIdentify_steadyHistory,
    obtain_of_stampInputs find_steadyFinal read_steadyText hstamps, compute_of_denies hdenies _ _⟩

end FunctionCollection
end CycleCount
