import CycleCount.Proofs.Encoding
import CycleCount.Proofs.Sources
import CycleCount.Proofs.Stamps

/-! Function collections and their snapshots. A snapshot that is of no use is
passed over, whatever stands in it, and the collection is computed as if it were
not there; only one that may not be read, or that fits the files at hand and
numbers its functions out of order, makes the command fail. -/

namespace CycleCount

theorem Sequential.pushAt_eq_ok_iff {α : Type} {s t : Sequential α} {index : Nat} {item : α} :
    s.pushAt index item = .ok t ↔ index = s.items.length ∧ t = ⟨s.items ++ [item]⟩ := by
  unfold pushAt nextIndex
  split_ifs with hindex
  · simp [hindex]
  · rw [not_not] at hindex
    simp [hindex, eq_comm]

namespace FunctionCollection

theorem foldlM_pushAt_eq_ok_iff {records : List FunctionRecord}
    {s t : Sequential FunctionRecord} :
    records.foldlM (fun (s : Sequential FunctionRecord) record => s.pushAt record.index record) s =
        .ok t ↔
      records.map (·.index) = List.range' s.items.length records.length ∧
        t = ⟨s.items ++ records⟩ := by
  induction records generalizing s with
  | nil =>
    obtain ⟨items⟩ := s
    simp [eq_comm]
  | cons record records ih =>
    rw [foldlM_cons_eq_ok_iff, List.map_cons, List.length_cons, List.range'_succ, List.cons.injEq]
    simp only [Sequential.pushAt_eq_ok_iff, ih]
    constructor
    · rintro ⟨_, ⟨hindex, rfl⟩, hindices, rfl⟩
      exact ⟨⟨hindex, by simpa using hindices⟩, by simp⟩
    · rintro ⟨⟨hindex, hindices⟩, rfl⟩
      exact ⟨_, ⟨hindex, rfl⟩, by simpa using hindices, by simp⟩

theorem ofRecords_eq_ok_iff {records : List FunctionRecord} {collection : FunctionCollection} :
    ofRecords records = .ok collection ↔
      records.map (·.index) = List.range records.length ∧ collection = ⟨records⟩ := by
  rw [ofRecords, bind_eq_ok_iff]
  simp only [foldlM_pushAt_eq_ok_iff, List.length_nil, List.nil_append, ← List.range_eq_range',
    pure_eq_ok, Except.ok.injEq]
  constructor
  · rintro ⟨_, ⟨hindices, rfl⟩, rfl⟩
    exact ⟨hindices, rfl⟩
  · rintro ⟨hindices, rfl⟩
    exact ⟨_, ⟨hindices, rfl⟩, rfl⟩

theorem ofRecords_eq_error {records : List FunctionRecord} {error : Error}
    (h : ofRecords records = .error error) : ∃ expected got, error = .outOfOrder expected got := by
  obtain h | ⟨_, -, h⟩ := bind_eq_error_iff.mp h
  · obtain ⟨s, record, -, hpush⟩ := exists_error_of_foldlM h
    unfold Sequential.pushAt at hpush
    split_ifs at hpush
    cases hpush
    exact ⟨_, _, rfl⟩
  · cases h

end FunctionCollection

theorem FunctionSnapshot.index_of_toRecord {entry : FunctionEntry} {record : FunctionRecord}
    (h : toRecord entry = .ok record) : record.index = entry.index := by
  obtain ⟨baseline, -, h⟩ := bind_eq_ok_iff.mp h
  obtain ⟨treatment, -, h⟩ := bind_eq_ok_iff.mp h
  cases h
  rfl

theorem FunctionSnapshot.ofRecords_eq_ok_iff_indices {entries : List FunctionEntry}
    {records : List FunctionRecord} (h : entries.mapM toRecord = .ok records) :
    (∃ collection, FunctionCollection.ofRecords records = .ok collection) ↔
      entries.map (·.index) = List.range entries.length := by
  have hrecords := mapM_eq_ok_iff.mp h
  have hindices : records.map (·.index) = entries.map (·.index) :=
    map_eq_map_iff_forall₂.mpr (hrecords.flip.imp fun _ _ => index_of_toRecord)
  simp only [FunctionCollection.ofRecords_eq_ok_iff, exists_and_left, exists_eq, and_true,
    hindices, hrecords.length_eq]

/-- A sound snapshot of the files at hand that does not number its functions from
zero on. -/
def Disordered (disk : Disk) (path : Path) (content : Bytes) (inputs : List Path) : Prop :=
  ∃ snapshot current records, Payload.read path content = .ok (.functions snapshot) ∧
    stampInputs disk inputs = .ok current ∧
    List.Forall₂ (fun old new => old.agrees new = true) snapshot.inputs current ∧
    snapshot.functions.mapM FunctionSnapshot.toRecord = .ok records ∧
    snapshot.functions.map (·.index) ≠ List.range snapshot.functions.length

section Loading

variable {disk : Disk} {path : Path} {content : Bytes} {modified : Instant} {inputs : List Path}
  {current : List InputStamp}

theorem loadFunctions_of_denies (h : disk.Denies path) (inputs : List Path) :
    loadFunctions disk path inputs = .error (.io path .denied) := by
  rw [loadFunctions, readPayload_of_denies h, error_bind]

theorem loadFunctions_cases {entry : Disk.Entry} (hopened : disk.opened path = .ok entry)
    (inputs : List Path) :
    (∃ error, loadFunctions disk path inputs = .error error ∧ error.isUnusableSnapshot = true) ∨
    (∃ error, loadFunctions disk path inputs = .error error ∧
      stampInputs disk inputs = .error error) ∨
    ∃ content modified snapshot current, disk.find path = .ok (.file content modified) ∧
      Payload.read path content = .ok (.functions snapshot) ∧
      stampInputs disk inputs = .ok current ∧
      List.Forall₂ (fun old new => old.agrees new = true) snapshot.inputs current ∧
      loadFunctions disk path inputs = snapshot.toCollection path := by
  unfold loadFunctions
  rcases readPayload_cases hopened with
    ⟨error, hread, herror⟩ | ⟨content, modified, payload, hfind, hpayload, hread⟩
  · exact .inl ⟨error, by rw [hread, error_bind], herror⟩
  · rw [hread, ok_bind]
    cases payload with
    | dataset snapshot => exact .inl ⟨_, rfl, rfl⟩
    | functions snapshot =>
      simp only [checkInputs]
      cases hstamps : stampInputs disk inputs with
      | error error => exact .inr (.inl ⟨error, rfl, rfl⟩)
      | ok current =>
        rw [ok_bind]
        cases hchange : inputChange? snapshot.inputs current with
        | some change => exact .inl ⟨_, rfl, rfl⟩
        | none =>
          exact .inr (.inr ⟨content, modified, snapshot, current, hfind, hpayload, rfl,
            inputChange?_eq_none_iff.mp hchange, rfl⟩)

theorem loadFunctions_of_stampInputs (hfind : disk.find path = .ok (.file content modified))
    (hstamps : stampInputs disk inputs = .ok current) :
    (∃ error, loadFunctions disk path inputs = .error error ∧ error.isUnusableSnapshot = true) ∨
      ∃ snapshot records, Payload.read path content = .ok (.functions snapshot) ∧
        List.Forall₂ (fun old new => old.agrees new = true) snapshot.inputs current ∧
        snapshot.functions.mapM FunctionSnapshot.toRecord = .ok records ∧
        loadFunctions disk path inputs = FunctionCollection.ofRecords records := by
  rcases loadFunctions_cases (Disk.opened_eq_ok_iff.mpr ⟨hfind, rfl⟩) inputs with hunusable |
    ⟨error, -, herror⟩ | ⟨_, _, snapshot, _, hfind', hread, hstamps', hagree, hload⟩
  · exact .inl hunusable
  · cases hstamps.symm.trans herror
  · cases hfind.symm.trans hfind'
    cases hstamps.symm.trans hstamps'
    rw [hload, FunctionSnapshot.toCollection]
    cases hrecords : snapshot.functions.mapM FunctionSnapshot.toRecord with
    | error fault => exact .inl ⟨_, rfl, rfl⟩
    | ok records => exact .inr ⟨snapshot, records, hread, hagree, hrecords, rfl⟩

theorem loadFunctions_of_disordered (hfind : disk.find path = .ok (.file content modified))
    (h : Disordered disk path content inputs) :
    ∃ expected got, loadFunctions disk path inputs = .error (.outOfOrder expected got) := by
  obtain ⟨snapshot, current, records, hread, hstamps, hagree, hrecords, hindices⟩ := h
  have hload : loadFunctions disk path inputs = FunctionCollection.ofRecords records := by
    simp only [loadFunctions, readPayload_of_find hfind, hread, ok_bind, checkInputs, hstamps,
      inputChange?_eq_none_iff.mpr hagree, FunctionSnapshot.toCollection, hrecords, inSnapshot]
  rw [hload]
  cases hcollection : FunctionCollection.ofRecords records with
  | ok collection =>
    exact absurd ((FunctionSnapshot.ofRecords_eq_ok_iff_indices hrecords).mp ⟨_, hcollection⟩)
      hindices
  | error error =>
    obtain ⟨expected, got, rfl⟩ := FunctionCollection.ofRecords_eq_error hcollection
    exact ⟨expected, got, rfl⟩

theorem loadFunctions_of_not_disordered (hfind : disk.find path = .ok (.file content modified))
    (hstamps : stampInputs disk inputs = .ok current) (h : ¬Disordered disk path content inputs) :
    (∃ error, loadFunctions disk path inputs = .error error ∧ error.isUnusableSnapshot = true) ∨
      ∃ collection, loadFunctions disk path inputs = .ok collection := by
  refine (loadFunctions_of_stampInputs hfind hstamps).imp_right ?_
  rintro ⟨snapshot, records, hread, hagree, hrecords, hload⟩
  have hindices : snapshot.functions.map (·.index) = List.range snapshot.functions.length := by
    by_contra hindices
    exact h ⟨snapshot, current, records, hread, hstamps, hagree, hrecords, hindices⟩
  rw [hload]
  exact (FunctionSnapshot.ofRecords_eq_ok_iff_indices hrecords).mpr hindices

end Loading

namespace FunctionCollection

variable {disk : Disk} {baseline treatment cache : Path}

theorem lines_mono {next : Disk} (h : disk.Within next) {path : Path}
    {lines : List (Except Error Records.Line)} (hlines : disk.lines path = .ok lines) :
    next.lines path = .ok lines := by
  obtain ⟨entry, hopened, rfl⟩ := Disk.lines_eq_ok_iff.mp hlines
  obtain ⟨hfind, hreadable⟩ := Disk.opened_eq_ok_iff.mp hopened
  exact Disk.lines_eq_ok_iff.mpr
    ⟨entry, Disk.opened_eq_ok_iff.mpr ⟨h.find hfind, hreadable⟩, rfl⟩

theorem load_mono {next : Disk} (h : disk.Within next) {collection : FunctionCollection}
    (hload : load disk baseline treatment = .ok collection) :
    load next baseline treatment = .ok collection := by
  obtain ⟨first, hfirst, hload⟩ := bind_eq_ok_iff.mp hload
  obtain ⟨second, hsecond, hload⟩ := bind_eq_ok_iff.mp hload
  rw [load, lines_mono h hfirst, ok_bind, lines_mono h hsecond, ok_bind]
  exact hload

theorem exists_saveFunctions {content : Bytes} {modified : Instant} {readable : Bool}
    (hcache : disk.find cache = .ok (.file content modified readable)) {inputs : List Path}
    {current : List InputStamp} (hstamps : stampInputs disk inputs = .ok current)
    (collection : FunctionCollection) :
    ∃ disk', saveFunctions disk cache collection inputs = .ok disk' := by
  simp only [saveFunctions, hstamps, ok_bind, writePayload, Disk.save, Disk.write,
    Disk.target_of_find hcache, pure_eq_ok]
  exact ⟨_, rfl⟩

theorem obtain_of_denies (h : disk.Denies cache) :
    (obtain disk baseline treatment (some cache)).result =
      .error (.analysis (.io cache .denied)) := by
  have hload := loadFunctions_of_denies h [baseline, treatment]
  obtain ⟨entry, hfind, -⟩ := h
  simp only [obtain, consult_of_find hfind, hload, Consulted.ofLoad, Error.isUnusableSnapshot,
    Bool.false_eq_true, if_false]

theorem obtain_of_disordered {content : Bytes} {modified : Instant}
    (hcache : disk.find cache = .ok (.file content modified))
    (h : Disordered disk cache content [baseline, treatment]) :
    ∃ expected got, (obtain disk baseline treatment (some cache)).result =
      .error (.analysis (.outOfOrder expected got)) := by
  obtain ⟨expected, got, hload⟩ := loadFunctions_of_disordered hcache h
  refine ⟨expected, got, ?_⟩
  simp only [obtain, consult_of_find hcache, hload, Consulted.ofLoad, Error.isUnusableSnapshot,
    Bool.false_eq_true, if_false]

theorem obtain_of_unusable {content : Bytes} {modified : Instant}
    (hcache : disk.find cache = .ok (.file content modified)) {current : List InputStamp}
    (hstamps : stampInputs disk [baseline, treatment] = .ok current) {error : Error}
    (hload : loadFunctions disk cache [baseline, treatment] = .error error)
    (hunusable : error.isUnusableSnapshot = true) :
    (obtain disk baseline treatment (some cache)).use = .unusable ∧
      (obtain disk baseline treatment (some cache)).result.map Prod.fst =
        lift (load disk baseline treatment) := by
  simp only [obtain, consult_of_find hcache, hload, Consulted.ofLoad, hunusable, if_true, true_and]
  cases load disk baseline treatment with
  | error error => rfl
  | ok collection =>
    obtain ⟨disk', hsave⟩ := exists_saveFunctions hcache hstamps collection
    simp only [lift, ok_bind, keep, hsave, Except.map]

theorem load_of_obtain_without {content : Bytes} {modified : Instant}
    (hcache : disk.find cache = .ok (.file content modified)) {outcome : FunctionCollection × Disk}
    (h : (obtain (disk.without (disk.place cache)) baseline treatment (some cache)).result =
      .ok outcome) :
    ∃ collection, load disk baseline treatment = .ok collection := by
  simp only [obtain, consult_of_not_contains (Disk.contains_without hcache)] at h
  obtain ⟨collection, hload, -⟩ := bind_eq_ok_iff.mp h
  exact ⟨collection, load_mono (Disk.within_without disk (disk.place cache)) (ok_of_lift hload)⟩

/-- Whatever stands in a snapshot file that may be read, only functions that are
numbered out of order make the command fail where it would not fail without the
file. All else that cannot be loaded is passed over and computed anew. A file that
may not be read ends the command. -/
theorem obtain_unless_disordered (disk : Disk) (baseline treatment cache : Path)
    (first second content : Bytes) (changed changed' modified : Instant)
    (open₁ open₂ readable : Bool)
    (hbaseline : disk.find baseline = .ok (.file first changed open₁))
    (htreatment : disk.find treatment = .ok (.file second changed' open₂))
    (hcache : disk.find cache = .ok (.file content modified readable)) :
    (readable = false → (obtain disk baseline treatment (some cache)).result =
      .error (.analysis (.io cache .denied))) ∧
    (readable = true →
      (Disordered disk cache content [baseline, treatment] →
        ∃ expected got, (obtain disk baseline treatment (some cache)).result =
          .error (.analysis (.outOfOrder expected got))) ∧
      (¬Disordered disk cache content [baseline, treatment] →
        (∀ failure, (obtain disk baseline treatment (some cache)).result = .error failure →
          ∃ failure', (obtain (disk.without (disk.place cache)) baseline treatment
            (some cache)).result = .error failure') ∧
        ((∀ collection, loadFunctions disk cache [baseline, treatment] ≠ .ok collection) →
          (obtain disk baseline treatment (some cache)).use = .unusable ∧
          (obtain disk baseline treatment (some cache)).result.map Prod.fst =
            lift (load disk baseline treatment)))) := by
  refine ⟨fun hdenied => obtain_of_denies ⟨_, hcache, hdenied⟩, ?_⟩
  rintro rfl
  have hfiles : ∀ path ∈ [baseline, treatment], ∃ content modified readable,
      disk.find path = .ok (.file content modified readable) := by
    intro path hpath
    simp only [List.mem_cons, List.not_mem_nil, or_false] at hpath
    rcases hpath with rfl | rfl
    · exact ⟨_, _, _, hbaseline⟩
    · exact ⟨_, _, _, htreatment⟩
  obtain ⟨current, hstamps⟩ := exists_stampInputs hfiles
  refine ⟨obtain_of_disordered hcache, ?_⟩
  intro hordered
  rcases loadFunctions_of_not_disordered hcache hstamps hordered with
    ⟨error, hload, hunusable⟩ | ⟨collection, hload⟩
  · obtain ⟨huse, hresult⟩ := obtain_of_unusable hcache hstamps hload hunusable
    refine ⟨fun failure hfailure => ?_, fun _ => ⟨huse, hresult⟩⟩
    cases hbare : (obtain (disk.without (disk.place cache)) baseline treatment
        (some cache)).result with
    | error failure' => exact ⟨failure', rfl⟩
    | ok outcome =>
      obtain ⟨collection, hcollection⟩ := load_of_obtain_without hcache hbare
      rw [hfailure, hcollection] at hresult
      cases hresult
  · refine ⟨fun failure hfailure => ?_, fun hnone => absurd hload (hnone collection)⟩
    simp only [obtain, consult_of_find hcache, hload, Consulted.ofLoad, if_true] at hfailure
    cases hfailure

def besideSnapshot (text : Bytes) : Disk where
  entries :=
    [(["a.csv"], .file (Text.encode "f,4\n") ⟨1, 0⟩), (["b.csv"], .file (Text.encode "f,6\n") ⟨1, 0⟩),
      (["c.json"], .file text ⟨2, 0⟩)]

theorem find_besideSnapshot (text : Bytes) :
    (besideSnapshot text).find ⟨"a.csv"⟩ = .ok (.file (Text.encode "f,4\n") ⟨1, 0⟩) ∧
      (besideSnapshot text).find ⟨"b.csv"⟩ = .ok (.file (Text.encode "f,6\n") ⟨1, 0⟩) ∧
      (besideSnapshot text).find ⟨"c.json"⟩ = .ok (.file text ⟨2, 0⟩) := ⟨rfl, rfl, rfl⟩

def brokenText : Bytes := Text.encode "\x7b"

theorem obtain_unless_disordered_broken :
    ¬Disordered (besideSnapshot brokenText) ⟨"c.json"⟩ brokenText [⟨"a.csv"⟩, ⟨"b.csv"⟩] ∧
      (obtain (besideSnapshot brokenText) ⟨"a.csv"⟩ ⟨"b.csv"⟩ (some ⟨"c.json"⟩)).use = .unusable ∧
      (obtain (besideSnapshot brokenText) ⟨"a.csv"⟩ ⟨"b.csv"⟩
          (some ⟨"c.json"⟩)).result.map Prod.fst =
        lift (load (besideSnapshot brokenText) ⟨"a.csv"⟩ ⟨"b.csv"⟩) := by
  have hread : (Payload.read ⟨"c.json"⟩ brokenText).toOption = none := by decide +kernel
  have hordered : ¬Disordered (besideSnapshot brokenText) ⟨"c.json"⟩ brokenText
      [⟨"a.csv"⟩, ⟨"b.csv"⟩] := by
    rintro ⟨snapshot, -, -, hpayload, -⟩
    rw [hpayload] at hread
    cases hread
  have hload : (loadFunctions (besideSnapshot brokenText) ⟨"c.json"⟩
      [⟨"a.csv"⟩, ⟨"b.csv"⟩]).toOption.isNone := by decide +kernel
  obtain ⟨hbaseline, htreatment, hcache⟩ := find_besideSnapshot brokenText
  have hpassed := ((obtain_unless_disordered _ ⟨"a.csv"⟩ ⟨"b.csv"⟩ ⟨"c.json"⟩ _ _ _ _ _ _ _ _ _
    hbaseline htreatment hcache).2 rfl).2 hordered
  refine ⟨hordered, hpassed.2 fun collection hcollection => ?_⟩
  rw [hcollection] at hload
  cases hload

def shiftedValues (cycles : UInt64) (mean : Float) : SeriesValues :=
  let summary : SummaryRecord :=
    { count := 1, mean, deviation := 0, values := [mean], probabilities := [1] }
  { raw := [cycles], filtered := [cycles], rawSummary := summary, filteredSummary := summary
    quartiles := ⟨1, mean, mean, mean, mean, mean⟩ }

def shiftedSnapshot : FunctionSnapshot where
  inputs := [⟨⟨"a.csv"⟩, 4, some ⟨1, 0⟩⟩, ⟨⟨"b.csv"⟩, 4, some ⟨1, 0⟩⟩]
  functions := [⟨1, "f", shiftedValues 4 4, shiftedValues 6 6, 1.5, 1.5⟩]

def shiftedText : Bytes := Text.encode (Payload.envelope ⟨0, 0⟩ (.functions shiftedSnapshot))

theorem read_shiftedText :
    Payload.read ⟨"c.json"⟩ shiftedText = .ok (.functions shiftedSnapshot) := by
  simp only [shiftedText, shiftedSnapshot, shiftedValues, Payload.envelope, Payload.toJson,
    InputStamp.toJson, FunctionEntry.toJson, SeriesValues.toJson, SummaryRecord.toJson, Json.list,
    Json.words, Json.reals, Json.optional, Json.quartiles, List.map_cons,
    List.map_nil, Json.compact, Json.compactMembers, Json.compactEntries, Text.encode_append]
  refine toOption_eq_some_iff.mp ?_
  decide +kernel

theorem shifted_snapshot_fatal :
    (∃ expected got, (obtain (besideSnapshot shiftedText) ⟨"a.csv"⟩ ⟨"b.csv"⟩
        (some ⟨"c.json"⟩)).result = .error (.analysis (.outOfOrder expected got))) ∧
      ∃ outcome, (obtain ((besideSnapshot shiftedText).without
        ((besideSnapshot shiftedText).place ⟨"c.json"⟩)) ⟨"a.csv"⟩ ⟨"b.csv"⟩
          (some ⟨"c.json"⟩)).result = .ok outcome := by
  obtain ⟨hbaseline, htreatment, hcache⟩ := find_besideSnapshot shiftedText
  constructor
  · have hstamps : stampInputs (besideSnapshot shiftedText) [⟨"a.csv"⟩, ⟨"b.csv"⟩] =
        .ok shiftedSnapshot.inputs := by
      simp only [stampInputs, List.mapM_cons, InputStamp.take_of_find hbaseline,
        InputStamp.take_of_find htreatment, List.mapM_nil, ok_bind, pure_eq_ok]
      rfl
    have hagree : List.Forall₂ (fun old new => old.agrees new = true) shiftedSnapshot.inputs
        shiftedSnapshot.inputs := .cons (by decide) (.cons (by decide) .nil)
    have hsound :
        (shiftedSnapshot.functions.mapM FunctionSnapshot.toRecord).toOption.isSome := by decide +kernel
    obtain ⟨records, hrecords⟩ := Option.isSome_iff_exists.mp hsound
    exact obtain_of_disordered hcache ⟨shiftedSnapshot, shiftedSnapshot.inputs, records,
      read_shiftedText, hstamps, hagree, toOption_eq_some_iff.mp hrecords, by decide⟩
  · have hsome : (obtain ((besideSnapshot shiftedText).without
        ((besideSnapshot shiftedText).place ⟨"c.json"⟩)) ⟨"a.csv"⟩ ⟨"b.csv"⟩
          (some ⟨"c.json"⟩)).result.toOption.isSome := by decide +kernel
    obtain ⟨outcome, houtcome⟩ := Option.isSome_iff_exists.mp hsome
    exact ⟨outcome, toOption_eq_some_iff.mp houtcome⟩

end FunctionCollection
end CycleCount
