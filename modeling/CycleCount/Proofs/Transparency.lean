import CycleCount.Proofs.Histories
import CycleCount.Proofs.RoundTrip

/-! Snapshots are transparent. Where one is used, the files it was made from and
the layout are those at hand, so that the report in it is the one that would be
computed; where it is not, the report is computed. -/

namespace CycleCount

theorem InputStamp.agrees_iff {a b : InputStamp} :
    a.agrees b = true ↔
      a.path.components = b.path.components ∧ a.length = b.length ∧ a.modified = b.modified := by
  simp [agrees, Path.sameAs, and_assoc]

def Disk.StampsTell (place : Disk.Location) (disk other : Disk) : Prop :=
  ∀ old ∈ disk.entries, ∀ new ∈ other.entries, old.1 = new.1 → old.1 ≠ place →
    old.2.isFile = true → new.2.isFile = true → old.2.stamp = new.2.stamp →
      old.2.content = new.2.content

instance (place : Disk.Location) (disk other : Disk) :
    Decidable (Disk.StampsTell place disk other) :=
  inferInstanceAs (Decidable (∀ old ∈ disk.entries, ∀ new ∈ other.entries, old.1 = new.1 →
    old.1 ≠ place → old.2.isFile = true → new.2.isFile = true → old.2.stamp = new.2.stamp →
      old.2.content = new.2.content))

/-- A stamp is never used again for another content, except at `place`. -/
def StampsDecide (place : Disk.Location) (states : List Disk) : Prop :=
  ∀ disk ∈ states, ∀ other ∈ states, Disk.StampsTell place disk other

instance (place : Disk.Location) (states : List Disk) : Decidable (StampsDecide place states) :=
  inferInstanceAs (Decidable (∀ disk ∈ states, ∀ other ∈ states,
    Disk.StampsTell place disk other))

theorem StampsDecide.content_eq {states : List Disk} {place : Disk.Location}
    (h : StampsDecide place states) {disk other : Disk} (hdisk : disk ∈ states)
    (hother : other ∈ states) {location : Disk.Location} (hplace : location ≠ place)
    {content content' : Bytes} {modified : Instant} {readable readable' : Bool}
    (hold : disk.entry? location = some (.file content modified readable))
    (hnew : other.entry? location = some (.file content' modified readable'))
    (hlength : content.length = content'.length) : content = content' := by
  have hne := Disk.ne_nil_of_entry?_file hold
  have hcontent := h disk hdisk other hother _ (Disk.mem_entries_of_entry?_eq_some hne hold) _
    (Disk.mem_entries_of_entry?_eq_some hne hnew) rfl hplace rfl rfl
    (by simp [Disk.Entry.stamp, hlength])
  exact Except.ok.inj hcontent

namespace Experiment

variable {e c : Experiment} {earlier disk : Disk} {inputs inputs' : List Path}
  {recorded current : List InputStamp}

theorem components_of_agrees (hrecorded : stampInputs earlier inputs = .ok recorded)
    (hcurrent : stampInputs disk inputs' = .ok current)
    (hagree : List.Forall₂ (fun old new => old.agrees new = true) recorded current) :
    inputs.map Path.components = inputs'.map Path.components := by
  have hpaths : ∀ {disk : Disk} {inputs : List Path} {stamps : List InputStamp},
      stampInputs disk inputs = .ok stamps →
        inputs.map Path.components = stamps.map (·.path.components) := by
    intro disk inputs stamps hstamps
    refine map_eq_map_iff_forall₂.mpr ((mapM_eq_ok_iff.mp hstamps).imp fun path stamp htake => ?_)
    rw [InputStamp.path_of_take htake]
  rw [hpaths hrecorded, hpaths hcurrent]
  exact map_eq_map_iff_forall₂.mpr (hagree.imp fun _ _ h => (InputStamp.agrees_iff.mp h).1)

theorem content_of_agrees {states : List Disk} {place : Disk.Location}
    (hstates : StampsDecide place states) (hearlier : earlier ∈ states) (hdisk : disk ∈ states)
    (hsuccessor : earlier.Successor disk) {dataset : Dataset}
    (hdataset : e.Assembles earlier dataset)
    (hinputs : e.sourceFiles earlier = .ok inputs) (hinputs' : c.sourceFiles disk = .ok inputs')
    (hrecorded : stampInputs earlier inputs = .ok recorded)
    (hplaces : ∀ stamp ∈ recorded, earlier.place stamp.path ≠ place)
    (hcurrent : stampInputs disk inputs' = .ok current)
    (hagree : List.Forall₂ (fun old new => old.agrees new = true) recorded current)
    {path path' : Path} (hpath : path ∈ inputs) (hpath' : path' ∈ inputs')
    (hcomponents : path.components = path'.components) :
    ∃ content modified modified', earlier.find path = .ok (.file content modified) ∧
      disk.find path' = .ok (.file content modified') := by
  obtain ⟨content, modified, readable, hfind⟩ := file_of_mem_sourceFiles hinputs hpath
  obtain ⟨content', modified', readable', hfind'⟩ := file_of_mem_sourceFiles hinputs' hpath'
  obtain ⟨old, hold, htake⟩ := exists_right_of_forall₂ (mapM_eq_ok_iff.mp hrecorded) hpath
  obtain ⟨new, hnew, hagrees⟩ := exists_right_of_forall₂ hagree hold
  -- The stamp compared with that of `path` need not be that of `path'`, but it is
  -- of a file at the same place.
  obtain ⟨partner, hpartner, htake'⟩ :=
    exists_left_of_forall₂ (mapM_eq_ok_iff.mp hcurrent) hnew
  obtain ⟨content'', modified'', readable'', hfind''⟩ := file_of_mem_sourceFiles hinputs' hpartner
  have hplace := hplaces old hold
  rw [InputStamp.take_of_find hfind] at htake
  rw [InputStamp.take_of_find hfind''] at htake'
  cases htake
  cases htake'
  obtain ⟨hsame, hlength, htime⟩ := InputStamp.agrees_iff.mp hagrees
  have hentry := Disk.entry?_of_find hfind
  have hentry' := Disk.entry?_of_find hfind'
  have hentry'' := Disk.entry?_of_find hfind''
  rw [Disk.place, hsuccessor.here, ← hcomponents] at hentry'
  rw [Disk.place, hsuccessor.here, ← hsame] at hentry''
  obtain ⟨rfl, rfl⟩ : content' = content'' ∧ modified' = modified'' := by
    rw [hentry'] at hentry''
    cases hentry''
    exact ⟨rfl, rfl⟩
  cases htime
  obtain rfl := hstates.content_eq hearlier hdisk hplace hentry hentry' hlength
  obtain ⟨conditions, hread⟩ := hdataset.readSamples_of_mem hinputs hpath
  obtain rfl := readable_of_readSamples hfind hread
  obtain rfl := hsuccessor.readable hentry hentry'
  exact ⟨content, modified, modified, hfind, hfind'⟩

theorem analyse_of_kept {states : List Disk} {place : Disk.Location}
    (hstates : StampsDecide place states) (hvalid : e.validate = .ok ())
    (hearlier : earlier ∈ states) (hdisk : disk ∈ states)
    (hsuccessor : earlier.Successor disk) (hformed : earlier.WellFormed)
    (hformed' : disk.WellFormed) {kept : DatasetSnapshot} (hkept : e.snapshot earlier = .ok kept)
    (hplaces : ∀ stamp ∈ kept.inputs, earlier.place stamp.path ≠ place)
    (hinputs' : c.sourceFiles disk = .ok inputs') (hcurrent : stampInputs disk inputs' = .ok current)
    (hunchanged : inputChange? kept.inputs current = none) {r : Report}
    (hr : kept.toReport = .ok r) (hfits : r.belongsTo c = true) :
    c.assemble disk >>= analyse c.comparison = .ok r := by
  obtain ⟨inputs, dataset, report, recorded, hinputs, hdataset, hreport, hrecorded, rfl⟩ :=
    snapshot_eq_ok_iff.mp hkept
  -- What the snapshot gives back is the report it was made of, whose layout is
  -- that of `e`.
  have hregular := regular_of_analyse (valid_of_validate hvalid) hdataset hreport
  rw [DatasetSnapshot.toReport_ofReport hregular] at hr
  cases hr
  have hagree := inputChange?_eq_none_iff.mp hunchanged
  obtain ⟨hname, haxes, hcolumns, hcomparison, hkeys⟩ :=
    (belongsTo_iff_of_analyse hreport c).mp hfits
  rw [hdataset.name] at hname
  rw [hdataset.axes] at haxes
  rw [hdataset.labels] at hcolumns
  rw [keys_entries, hdataset.keys] at hkeys
  have hsame : c.Assembles disk dataset :=
    hdataset.of_same_files hformed hformed' hname haxes hcolumns hkeys hinputs hinputs'
      (components_of_agrees hrecorded hcurrent hagree) fun path hpath path' hpath' hcomponents =>
        content_of_agrees hstates hearlier hdisk hsuccessor hdataset hinputs hinputs' hrecorded
          hplaces hcurrent hagree hpath hpath' hcomponents
  rw [assemble_eq_ok_iff.mpr hsame, ok_bind, ← hcomparison]
  exact hreport

theorem result_of_report (hinputs : c.sourceFiles disk = .ok inputs) :
    ((c.report false disk).result = c.compute disk inputs ∧ ∀ path ∈ c.cache, ¬disk.Denies path) ∨
    (∃ path ∈ c.cache, disk.Denies path ∧
      c.report false disk = ⟨.none, .error (.analysis (.io path .denied))⟩) ∨
    ∃ path ∈ c.cache, ∃ content modified kept current r,
      disk.find path = .ok (.file content modified) ∧
      Payload.read path content = .ok (.dataset kept) ∧
      stampInputs disk inputs = .ok current ∧ inputChange? kept.inputs current = none ∧
      kept.toReport = .ok r ∧ r.belongsTo c = true ∧
      (c.report false disk).result = .ok (r, disk) := by
  obtain ⟨current, hcurrent⟩ :=
    exists_stampInputs fun path hpath => Experiment.file_of_mem_sourceFiles hinputs hpath
  unfold report
  rw [hinputs]
  simp only [Bool.false_eq_true, if_false]
  obtain ⟨use, hconsult, hopen⟩ | ⟨path, hpath, hdenies, hconsult⟩ |
      ⟨path, hpath, content, modified, kept, r, hfind, hread, hchange, hr, hfits, hconsult⟩ :=
    consult_cases c.cache hcurrent fun r => r.belongsTo c
  · rw [hconsult]
    exact .inl ⟨rfl, hopen⟩
  · rw [hconsult]
    exact .inr (.inl ⟨path, hpath, hdenies, rfl⟩)
  · rw [hconsult]
    exact .inr (.inr ⟨path, hpath, content, modified, kept, current, r, hfind, hread, hcurrent,
      hchange, hr, hfits, rfl⟩)

theorem result_without_snapshot (hinputs : c.sourceFiles disk = .ok inputs) :
    (c.report true disk).result = c.compute disk inputs := by
  simp only [report, hinputs]
  rfl

theorem compute_eq_ok {path : Path} (hcache : c.cache = some path)
    {content : Bytes} {modified : Instant} (hfind : disk.find path = .ok (.file content modified))
    (hcurrent : stampInputs disk inputs = .ok current) {r : Report}
    (hr : c.assemble disk >>= analyse c.comparison = .ok r) :
    ∃ disk', c.compute disk inputs = .ok (r, disk') := by
  have hsave : ∃ disk', saveReport disk path r inputs = .ok disk' := by
    rw [saveReport, hcurrent, ok_bind, writePayload, Disk.save, Disk.write,
      Disk.target_of_find hfind]
    exact ⟨_, rfl⟩
  obtain ⟨disk', hsave⟩ := hsave
  refine ⟨disk', ?_⟩
  rw [compute, hr, lift, ok_bind, hcache]
  simp only [keep, hsave]

theorem report_of_absent {disk' : Disk} {path : Path} {kept : DatasetSnapshot}
    (hcache : e.cache = some path) (habsent : disk.contains path = false)
    (hkept : e.snapshot disk = .ok kept)
    (hwrite : writePayload disk path (.dataset kept) = .ok disk') :
    ∃ r, e.report false disk = ⟨.none, .ok (r, disk')⟩ := by
  obtain ⟨inputs, dataset, r, stamps, hinputs, hdataset, hr, hstamps, rfl⟩ :=
    snapshot_eq_ok_iff.mp hkept
  have hsave : saveReport disk path r inputs = .ok disk' := by
    rw [saveReport, hstamps, ok_bind]
    exact hwrite
  have hcompute : e.compute disk inputs = .ok (r, disk') := by
    rw [compute, assemble_eq_ok_iff.mpr hdataset, ok_bind, hr, lift, ok_bind, hcache]
    simp only [keep, hsave]
  refine ⟨r, ?_⟩
  simp only [report, hinputs, Bool.false_eq_true, if_false, hcache, consult_of_not_contains habsent,
    hcompute]

end Experiment

theorem guarded_of_fresh {path : Path} {start : Disk} (hstart : start.WellFormed)
    (hfresh : ∀ entry, start.entry? (start.place path) = some entry →
      entry.isFile = false ∧ entry.isReadable = true)
    {events : List Event} (hevents : ∀ event ∈ events, event.Admissible (start.place path))
    (hreads : ReadsBack path start events) :
    Guarded (statesFrom start events) path (start.place path) (final start events) := by
  refine Guarded.final ⟨hstart, rfl, fun entry hentry => (hfresh entry hentry).2, ?_⟩
    (List.Subset.refl _) hevents hreads
  intro content modified readable hfile
  exact absurd (hfresh _ hfile).1 Bool.noConfusion

/-- Whatever runs have shared a snapshot and whatever was done to other files, as
long as the stamps of those tell their contents: the report is the same with the
snapshot as without it, and so is the failure. -/
theorem report_transparent (c : Experiment) (path : Path) (hcache : ∀ cache ∈ c.cache, cache = path)
    (start : Disk) (hstart : start.WellFormed)
    (hfresh : ∀ entry, start.entry? (start.place path) = some entry →
      entry.isFile = false ∧ entry.isReadable = true)
    (events : List Event) (hevents : ∀ event ∈ events, event.Admissible (start.place path))
    (hreads : ReadsBack path start events)
    (hstamps : StampsDecide (start.place path) (statesFrom start events)) :
    (c.report false (final start events)).result.map Prod.fst =
      (c.report true (final start events)).result.map Prod.fst := by
  have hguarded := guarded_of_fresh hstart hfresh hevents hreads
  have hmem := final_mem_statesFrom start events
  have hsuccessor : ∀ earlier ∈ statesFrom start events, earlier.Successor (final start events) :=
    fun _ => successor_of_mem_statesFrom hstart
  generalize final start events = disk at hguarded hmem hsuccessor ⊢
  cases hinputs : c.sourceFiles disk with
  | error error => simp only [Experiment.report, hinputs]
  | ok inputs =>
    rw [Experiment.result_without_snapshot hinputs]
    obtain ⟨hresult, -⟩ | ⟨cache, hpath, hdenies, -⟩ | ⟨cache, hpath, content, modified, kept,
      current, r, hfind, hread, hcurrent, hunchanged, hr, hfits, hresult⟩ :=
        Experiment.result_of_report hinputs
    · rw [hresult]
    · obtain rfl := hcache cache hpath
      exact absurd hdenies hguarded.not_denies
    -- The snapshot was used: it leads back to the run that wrote it.
    · obtain rfl := hcache cache hpath
      have hentry := Disk.entry?_of_find hfind
      rw [hguarded.placed] at hentry
      obtain ⟨payload, created, rfl, hback, htraceable⟩ :=
        hguarded.traced content modified true hentry
      obtain rfl := hback _ hread
      cases htraceable with
      | dataset hvalid hearlier hformed hkept hplaces =>
        have hreport := Experiment.analyse_of_kept hstamps hvalid hearlier hmem
          (hsuccessor _ hearlier) hformed hguarded.formed hkept hplaces hinputs hcurrent hunchanged
          hr hfits
        obtain ⟨disk', hcompute⟩ := Experiment.compute_eq_ok hpath hfind hcurrent hreport
        rw [hresult, hcompute]
        rfl

def idle : Experiment where
  name := "idle"
  root := ⟨"data"⟩
  columns := ["on"]
  axes := [⟨"core", ["0"]⟩]
  comparison := none
  cache := some ⟨"idle.json"⟩

def idleHistory : List Event :=
  [.edit (.write ⟨"data/0/1.csv"⟩ (Text.encode "7") ⟨5, 0⟩), .run (.analyze idle false),
    .edit (.write ⟨"data/notes.txt"⟩ (Text.encode "quiet") ⟨6, 0⟩)]

def idleSnapshot : DatasetSnapshot :=
  let summary : SummaryRecord :=
    { count := 1, mean := 7, deviation := 0, values := [7], probabilities := [1] }
  { inputs := [⟨⟨"data/0/1.csv"⟩, 1, some ⟨5, 0⟩⟩]
    name := "idle"
    axes := ["core"]
    labels := ["on"]
    series := [⟨["0"], "on", 1, { raw := [7], filtered := [7], rawSummary := summary
                                  filteredSummary := summary, quartiles := ⟨1, 7, 7, 7, 7, 7⟩ }⟩]
    comparison := none
    comparisons := [] }

def idleText : Bytes := Text.encode (Payload.envelope ⟨0, 0⟩ (.dataset idleSnapshot))

theorem read_idleText : Payload.read ⟨"idle.json"⟩ idleText = .ok (.dataset idleSnapshot) := by
  -- The text is made of many small ones, which are better encoded one by one.
  simp only [idleText, idleSnapshot, Payload.envelope, Payload.toJson, InputStamp.toJson,
    SeriesRecord.toJson, SeriesValues.toJson, SummaryRecord.toJson, Json.list, Json.strings,
    Json.words, Json.reals, Json.optional, Json.quartiles, List.map_cons, List.map_nil,
    Json.compact, Json.compactMembers, Json.compactEntries, Text.encode_append]
  decide +kernel

def idleSample : Disk where
  entries := [(["data"], .directory {}), (["data", "0"], .directory {}),
    (["data", "0", "1.csv"], .file (Text.encode "7") ⟨5, 0⟩)]

def idleKept : Disk where
  entries := idleSample.entries ++ [(["idle.json"], .file idleText ⟨0, 0⟩)]
  now := ⟨0, 1⟩

def idleFinal : Disk :=
  { idleKept with
    entries := idleKept.entries ++ [(["data", "notes.txt"], .file (Text.encode "quiet") ⟨6, 0⟩)] }

theorem snapshot_idleSample : idle.snapshot idleSample = .ok idleSnapshot :=
  toOption_eq_some_iff.mp (by decide +kernel)

theorem report_idleSample : ∃ r, idle.report false idleSample = ⟨.none, .ok (r, idleKept)⟩ :=
  Experiment.report_of_absent rfl rfl snapshot_idleSample rfl

theorem statesFrom_idleHistory :
    statesFrom {} idleHistory = [{}, idleSample, idleKept, idleFinal] := by
  have hsample : Edit.apply {} (.write ⟨"data/0/1.csv"⟩ (Text.encode "7") ⟨5, 0⟩) = idleSample := rfl
  have hkept : (Run.analyze idle false).apply idleSample = idleKept := by
    obtain ⟨r, hreport⟩ := report_idleSample
    rw [Run.apply, hreport]
    rfl
  have hnotes : Edit.apply idleKept (.write ⟨"data/notes.txt"⟩ (Text.encode "quiet") ⟨6, 0⟩) =
      idleFinal := rfl
  simp only [idleHistory, statesFrom, Event.apply, hsample, hkept, hnotes]

theorem final_idleHistory : final {} idleHistory = idleFinal := by
  have hlast := getLast?_statesFrom {} idleHistory
  rw [statesFrom_idleHistory] at hlast
  exact (Option.some.inj hlast).symm

theorem readsBack_idleHistory : ReadsBack ⟨"idle.json"⟩ {} idleHistory := by
  refine ⟨nofun, ?_, nofun, trivial⟩
  have hkept : Run.payload? idleSample (.analyze idle false) = some (.dataset idleSnapshot) := by
    rw [Run.payload?, snapshot_idleSample]
    rfl
  change ∀ payload ∈ Run.payload? idleSample (.analyze idle false),
    payload.ReadsBack ⟨"idle.json"⟩ idleSample.now
  rw [hkept]
  rintro _ ⟨⟩ result hresult
  have hread : Payload.read ⟨"idle.json"⟩ (Text.encode (Payload.envelope ⟨0, 0⟩
      (.dataset idleSnapshot))) = .ok result := hresult
  rw [← idleText, read_idleText] at hread
  exact (Except.ok.inj hread).symm

theorem use_of_idleHistory : (idle.report false (final {} idleHistory)).use = .hit := by
  have hfind : idleFinal.find ⟨"idle.json"⟩ = .ok (.file idleText ⟨0, 0⟩) := rfl
  have hcheck : idle.sourceFiles idleFinal >>=
      checkInputs idleFinal ⟨"idle.json"⟩ idleSnapshot.inputs = .ok () :=
    toOption_eq_some_iff.mp (by decide +kernel)
  have hfits : idleSnapshot.toReport.toOption.map (fun r => r.belongsTo idle) = some true := by
    decide +kernel
  obtain ⟨inputs, hinputs, hcheck⟩ := bind_eq_ok_iff.mp hcheck
  obtain ⟨r, hr, hfits⟩ := Option.map_eq_some_iff.mp hfits
  rw [final_idleHistory, Experiment.report_of_snapshot rfl hfind read_idleText hinputs hcheck
    (toOption_eq_some_iff.mp hr) hfits]

theorem report_transparent_idle :
    (∀ event ∈ idleHistory, event.Admissible (Disk.place {} ⟨"idle.json"⟩)) ∧
      ReadsBack ⟨"idle.json"⟩ {} idleHistory ∧
      StampsDecide (Disk.place {} ⟨"idle.json"⟩) (statesFrom {} idleHistory) ∧
      (idle.report false (final {} idleHistory)).use = .hit ∧
      (idle.report false (final {} idleHistory)).result.map Prod.fst =
        (idle.report true (final {} idleHistory)).result.map Prod.fst := by
  have hevents : ∀ event ∈ idleHistory, event.Admissible (Disk.place {} ⟨"idle.json"⟩) := by
    intro event hevent
    simp only [idleHistory, List.mem_cons, List.not_mem_nil, or_false] at hevent
    rcases hevent with rfl | rfl | rfl
    · change Disk.place {} ⟨"idle.json"⟩ ≠ Disk.spelled ⟨"data/0/1.csv"⟩
      decide +kernel
    · change idle.validate = .ok ()
      rfl
    · change Disk.place {} ⟨"idle.json"⟩ ≠ Disk.spelled ⟨"data/notes.txt"⟩
      decide +kernel
  have hstamps : StampsDecide (Disk.place {} ⟨"idle.json"⟩) (statesFrom {} idleHistory) := by
    rw [statesFrom_idleHistory]
    decide +kernel
  exact ⟨hevents, readsBack_idleHistory, hstamps, use_of_idleHistory,
    report_transparent idle ⟨"idle.json"⟩ (by simp [idle]) {} ⟨by simp, by simp, by simp⟩ nofun
      idleHistory hevents readsBack_idleHistory hstamps⟩

end CycleCount
