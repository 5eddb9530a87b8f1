import CycleCount.Proofs.SnapshotText
import CycleCount.Proofs.Writing

/-! What happens to a disk over time: runs that may keep snapshots, and work on
its files by other means. Throughout such a history a file at the place of a
snapshot is a snapshot, and leads back to a state in which it was computed. -/

namespace CycleCount

def Experiment.snapshot (e : Experiment) (disk : Disk) : Except Error DatasetSnapshot := do
  let inputs ← e.sourceFiles disk
  let report ← e.assemble disk >>= analyse e.comparison
  return .ofReport report (← stampInputs disk inputs)

def FunctionCollection.snapshot (disk : Disk) (baseline treatment : Path) :
    Except Error FunctionSnapshot := do
  let collection ← load disk baseline treatment
  return .ofCollection collection (← stampInputs disk [baseline, treatment])

def Attempt.leaves {α : Type} (attempt : Attempt α) (disk : Disk) : Disk :=
  match attempt.result with
  | .ok (_, disk) => disk
  | .error _ => disk

inductive Run where
  | analyze (e : Experiment) (noCache : Bool)
  | functions (baseline treatment : Path) (cache : Option Path)

namespace Run

def apply (disk : Disk) : Run → Disk
  | analyze e noCache => (e.report noCache disk).leaves disk
  | functions baseline treatment cache =>
    (FunctionCollection.obtain disk baseline treatment cache).leaves disk

def payload? (disk : Disk) : Run → Option Payload
  | analyze e _ => (e.snapshot disk).toOption.map .dataset
  | functions baseline treatment _ =>
    (FunctionCollection.snapshot disk baseline treatment).toOption.map .functions

def Valid : Run → Prop
  | analyze e _ => e.validate = .ok ()
  | functions .. => True

end Run

inductive Edit where
  | write (path : Path) (content : Bytes) (modified : Instant)
  | touch (path : Path) (modified : Instant)
  | remove (path : Path)
  | makeDirectory (path : Path) (size : Nat) (modified : Instant)
  | setClock (now : Instant)

namespace Edit

def apply (disk : Disk) : Edit → Disk
  | write path content modified => disk.install path content modified
  | touch path modified => disk.touch path modified
  | remove path => disk.remove path
  | makeDirectory path size modified => disk.makeDirectory path { size, modified }
  | setClock now => { disk with now }

def Spares (place : Disk.Location) : Edit → Prop
  | write path _ _ => place ≠ Disk.spelled path
  | _ => True

end Edit

inductive Event where
  | run (r : Run)
  | edit (change : Edit)

namespace Event

def apply (disk : Disk) : Event → Disk
  | run r => r.apply disk
  | edit change => change.apply disk

def payload? (disk : Disk) : Event → Option Payload
  | run r => r.payload? disk
  | edit _ => none

/-- What may happen beside a snapshot at `place`: runs for sound layouts, and edits
of other files. -/
def Admissible (place : Disk.Location) : Event → Prop
  | run r => r.Valid
  | edit change => change.Spares place

end Event

/-- Reading what was written into a snapshot at `path` gives nothing else than
that, if it gives anything. -/
def Payload.ReadsBack (path : Path) (created : Instant) (payload : Payload) : Prop :=
  ∀ result, Payload.read path (Text.encode (payload.envelope created)) = .ok result →
    result = payload

def ReadsBack (path : Path) (disk : Disk) : List Event → Prop
  | [] => True
  | event :: events =>
    (∀ payload ∈ event.payload? disk, payload.ReadsBack path disk.now) ∧
      ReadsBack path (event.apply disk) events

def statesFrom (disk : Disk) : List Event → List Disk
  | [] => [disk]
  | event :: events => disk :: statesFrom (event.apply disk) events

def final (disk : Disk) (events : List Event) : Disk :=
  events.foldl (fun disk event => event.apply disk) disk

theorem Experiment.snapshot_eq_ok_iff {e : Experiment} {disk : Disk} {kept : DatasetSnapshot} :
    e.snapshot disk = .ok kept ↔ ∃ inputs dataset report stamps,
      e.sourceFiles disk = .ok inputs ∧ e.Assembles disk dataset ∧
      analyse e.comparison dataset = .ok report ∧ stampInputs disk inputs = .ok stamps ∧
      kept = .ofReport report stamps := by
  unfold snapshot
  simp only [bind_eq_ok_iff, assemble_eq_ok_iff, pure_eq_ok, Except.ok.injEq]
  constructor
  · rintro ⟨inputs, hinputs, report, ⟨dataset, hdataset, hreport⟩, stamps, hstamps, rfl⟩
    exact ⟨inputs, dataset, report, stamps, hinputs, hdataset, hreport, hstamps, rfl⟩
  · rintro ⟨inputs, dataset, report, stamps, hinputs, hdataset, hreport, hstamps, rfl⟩
    exact ⟨inputs, hinputs, report, ⟨dataset, hdataset, hreport⟩, stamps, hstamps, rfl⟩

theorem leaves_keep {α : Type} {disk disk' : Disk} {cache : Option Path}
    {save : Path → Except Error Disk} {results results' : α}
    (h : keep disk cache save results = .ok (results', disk')) :
    disk' = disk ∨ ∃ path, save path = .ok disk' := by
  unfold keep at h
  split at h
  · cases h
    exact .inl rfl
  · rename_i path
    split at h
    · rename_i hsave
      cases h
      exact .inr ⟨path, hsave⟩
    · cases h

theorem Experiment.disk_of_report {e : Experiment} {noCache : Bool} {disk disk' : Disk}
    {report : Report} (h : (e.report noCache disk).result = .ok (report, disk')) :
    disk' = disk ∨ ∃ path kept, e.snapshot disk = .ok kept ∧
      writePayload disk path (.dataset kept) = .ok disk' := by
  unfold Experiment.report at h
  split at h
  · cases h
  · rename_i inputs hinputs
    split at h
    · cases h
      exact .inl rfl
    · cases h
    · obtain ⟨computed, hcomputed, h⟩ := bind_eq_ok_iff.mp h
      obtain ⟨dataset, hdataset, hcomputed⟩ := bind_eq_ok_iff.mp (ok_of_lift hcomputed)
      refine (leaves_keep h).imp_right ?_
      rintro ⟨path, hsave⟩
      obtain ⟨stamps, hstamps, hwrite⟩ := bind_eq_ok_iff.mp hsave
      exact ⟨path, _, snapshot_eq_ok_iff.mpr ⟨inputs, dataset, computed, stamps, hinputs,
        assemble_eq_ok_iff.mp hdataset, hcomputed, hstamps, rfl⟩, hwrite⟩

theorem FunctionCollection.disk_of_obtain {disk disk' : Disk} {baseline treatment : Path}
    {cache : Option Path} {collection : FunctionCollection}
    (h : (obtain disk baseline treatment cache).result = .ok (collection, disk')) :
    disk' = disk ∨ ∃ path kept, snapshot disk baseline treatment = .ok kept ∧
      writePayload disk path (.functions kept) = .ok disk' := by
  unfold FunctionCollection.obtain at h
  simp only at h
  split at h
  · cases h
    exact .inl rfl
  · cases h
  · obtain ⟨loaded, hloaded, h⟩ := bind_eq_ok_iff.mp h
    refine (leaves_keep h).imp_right ?_
    rintro ⟨path, hsave⟩
    obtain ⟨stamps, hstamps, hwrite⟩ := bind_eq_ok_iff.mp hsave
    refine ⟨path, _, ?_, hwrite⟩
    rw [snapshot, ok_of_lift hloaded, ok_bind, hstamps]
    rfl

theorem Attempt.leaves_cases {α : Type} (attempt : Attempt α) (disk : Disk) :
    attempt.leaves disk = disk ∨
      ∃ results, attempt.result = .ok (results, attempt.leaves disk) := by
  unfold leaves
  cases hresult : attempt.result with
  | error failure => exact .inl rfl
  | ok outcome => exact .inr ⟨outcome.1, rfl⟩

theorem Run.apply_cases (run : Run) (disk : Disk) :
    run.apply disk = disk ∨ ∃ path, ∃ payload ∈ run.payload? disk,
      writePayload disk path payload = .ok (run.apply disk) := by
  cases run with
  | analyze e noCache =>
    obtain hsame | ⟨report, hresult⟩ := (e.report noCache disk).leaves_cases disk
    · exact .inl hsame
    · refine (Experiment.disk_of_report hresult).imp_right ?_
      rintro ⟨path, kept, hkept, hwrite⟩
      exact ⟨path, .dataset kept,
        Option.map_eq_some_iff.mpr ⟨kept, toOption_eq_some_iff.mpr hkept, rfl⟩, hwrite⟩
  | functions baseline treatment cache =>
    obtain hsame | ⟨collection, hresult⟩ :=
      (FunctionCollection.obtain disk baseline treatment cache).leaves_cases disk
    · exact .inl hsame
    · refine (FunctionCollection.disk_of_obtain hresult).imp_right ?_
      rintro ⟨path, kept, hkept, hwrite⟩
      exact ⟨path, .functions kept,
        Option.map_eq_some_iff.mpr ⟨kept, toOption_eq_some_iff.mpr hkept, rfl⟩, hwrite⟩

theorem write_of_writePayload {disk disk' : Disk} {path : Path} {payload : Payload}
    (h : writePayload disk path payload = .ok disk') :
    disk.write path (Text.encode (payload.envelope disk.now)) = .ok disk' := by
  unfold writePayload Disk.save at h
  split at h
  · rename_i hwrite
    cases h
    exact hwrite
  · cases h

/-- Paths start where they did, and what may not be read in a file now could not be
read there before. -/
structure Disk.Successor (disk next : Disk) : Prop where
  here : next.here = disk.here
  denied : ∀ location content modified,
    next.entry? location = some (.file content modified false) →
      ∃ content' modified', disk.entry? location = some (.file content' modified' false)

namespace Disk

variable {disk next : Disk}

theorem Successor.refl (disk : Disk) : disk.Successor disk :=
  ⟨rfl, fun _ content modified h => ⟨content, modified, h⟩⟩

theorem Successor.trans {last : Disk} (h : disk.Successor next) (h' : next.Successor last) :
    disk.Successor last := by
  refine ⟨h'.here.trans h.here, fun location content modified hlast => ?_⟩
  obtain ⟨content', modified', hnext⟩ := h'.denied location content modified hlast
  exact h.denied location content' modified' hnext

theorem Successor.readable (h : disk.Successor next) {location : Location} {content content' : Bytes}
    {modified modified' : Instant} {readable : Bool}
    (hold : disk.entry? location = some (.file content modified))
    (hnew : next.entry? location = some (.file content' modified' readable)) : readable = true := by
  rw [← Bool.not_eq_false]
  rintro rfl
  obtain ⟨_, _, hdenied⟩ := h.denied location content' modified' hnew
  cases hold.symm.trans hdenied

theorem Writes.successor {location : Location} {content : Bytes}
    (h : disk.Writes next location content) : disk.Successor next := by
  refine ⟨h.here, fun other text modified hfile => ?_⟩
  by_cases heq : other = location
  · subst heq
    rw [h.file, Option.some.injEq, Entry.file.injEq] at hfile
    obtain ⟨-, -, hdenied⟩ := hfile
    exact access_eq_false_iff.mp hdenied
  · rw [h.others other heq] at hfile
    exact ⟨text, modified, hfile⟩

end Disk

theorem Edit.exists_spares (change : Edit) : ∃ location, change.Spares location := by
  cases change with
  | write path content modified => exact ⟨"" :: Disk.spelled path, List.cons_ne_self _ _⟩
  | _ => exact ⟨[], trivial⟩

theorem Edit.keeps {disk : Disk} (h : disk.WellFormed) {change : Edit} {location : Disk.Location}
    (hspares : change.Spares location) :
    (change.apply disk).WellFormed ∧ disk.KeepsContent (change.apply disk) location := by
  cases change with
  | write path content modified => exact Disk.install_keeps h path content modified hspares
  | touch path modified => exact Disk.touch_keeps h path modified location
  | remove path => exact Disk.remove_keeps h path location
  | makeDirectory path size modified => exact Disk.makeDirectory_keeps h path rfl location
  | setClock now => exact ⟨⟨h.locations, h.names, h.here⟩, Disk.keepsContent_of_same rfl rfl⟩

theorem Edit.successor {disk : Disk} (h : disk.WellFormed) (change : Edit) :
    disk.Successor (change.apply disk) := by
  obtain ⟨elsewhere, helsewhere⟩ := change.exists_spares
  refine ⟨(keeps h helsewhere).2.here, fun location content modified hfile => ?_⟩
  by_cases hspares : change.Spares location
  · obtain ⟨earlier, hearlier⟩ := (keeps h hspares).2.file content modified false hfile
    exact ⟨content, earlier, hearlier⟩
  · cases change with
    | write path text time =>
      obtain rfl : location = Disk.spelled path := not_not.mp hspares
      have hne := Disk.ne_nil_of_entry?_file hfile
      rw [Edit.apply, Disk.install, Disk.entry?_put_self hne, Option.some.injEq,
        Disk.Entry.file.injEq] at hfile
      exact Disk.access_eq_false_iff.mp hfile.2.2
    | _ => exact absurd trivial hspares

theorem Run.successor {disk : Disk} (h : disk.WellFormed) (run : Run) :
    (run.apply disk).WellFormed ∧ disk.Successor (run.apply disk) := by
  obtain hsame | ⟨path, payload, -, hwrite⟩ := run.apply_cases disk
  · rw [hsame]
    exact ⟨h, .refl disk⟩
  · have hwrite := write_of_writePayload hwrite
    exact ⟨h.write hwrite, (Disk.writes_of_write hwrite).successor⟩

theorem Event.successor {disk : Disk} (h : disk.WellFormed) (event : Event) :
    (event.apply disk).WellFormed ∧ disk.Successor (event.apply disk) := by
  cases event with
  | run r => exact r.successor h
  | edit change =>
    obtain ⟨elsewhere, helsewhere⟩ := change.exists_spares
    exact ⟨(Edit.keeps h helsewhere).1, change.successor h⟩

theorem mem_statesFrom_self (disk : Disk) (events : List Event) : disk ∈ statesFrom disk events := by
  cases events with
  | nil => exact List.mem_singleton_self disk
  | cons event events => exact List.mem_cons_self ..

theorem successor_of_mem_statesFrom {disk earlier : Disk} (h : disk.WellFormed) {events : List Event}
    (hmem : earlier ∈ statesFrom disk events) : earlier.Successor (final disk events) := by
  induction events generalizing disk earlier with
  | nil =>
    obtain rfl := List.mem_singleton.mp hmem
    exact .refl earlier
  | cons event events ih =>
    obtain ⟨hformed, hevent⟩ := event.successor h
    rcases List.mem_cons.mp hmem with rfl | hmem
    · exact hevent.trans (ih hformed (mem_statesFrom_self _ events))
    · exact ih hformed hmem

/-- A payload that leads back to a state in which it was computed, if it is a data
set from files other than the one at `place`. -/
inductive Traceable (states : List Disk) (place : Disk.Location) : Payload → Prop
  | dataset {e : Experiment} {disk : Disk} {kept : DatasetSnapshot} (hvalid : e.validate = .ok ())
      (hmem : disk ∈ states) (hformed : disk.WellFormed) (hkept : e.snapshot disk = .ok kept)
      (hinputs : ∀ stamp ∈ kept.inputs, disk.place stamp.path ≠ place) :
      Traceable states place (.dataset kept)
  | functions {disk : Disk} {baseline treatment : Path} {kept : FunctionSnapshot}
      (hmem : disk ∈ states)
      (hkept : FunctionCollection.snapshot disk baseline treatment = .ok kept) :
      Traceable states place (.functions kept)

/-- A disk on which `path` leads to `place`, and a file there is a snapshot that may
be read and leads back to one of `states`. -/
structure Guarded (states : List Disk) (path : Path) (place : Disk.Location) (disk : Disk) :
    Prop where
  formed : disk.WellFormed
  placed : disk.place path = place
  readable : ∀ entry, disk.entry? place = some entry → entry.isReadable = true
  traced : ∀ content modified readable,
    disk.entry? place = some (.file content modified readable) →
      ∃ payload created, content = Text.encode (payload.envelope created) ∧
        payload.ReadsBack path created ∧ Traceable states place payload

variable {states : List Disk} {path : Path} {place : Disk.Location} {disk : Disk}

theorem Guarded.not_denies (h : Guarded states path place disk) : ¬disk.Denies path := by
  rintro ⟨entry, hfind, hdenied⟩
  have hentry := Disk.entry?_of_find hfind
  rw [h.placed] at hentry
  rw [h.readable entry hentry] at hdenied
  cases hdenied

theorem Guarded.edit (h : Guarded states path place disk) {change : Edit}
    (hspares : change.Spares place) : Guarded states path place (change.apply disk) := by
  obtain ⟨hformed, hkeeps⟩ := Edit.keeps h.formed hspares
  refine ⟨hformed, by rw [Disk.place, hkeeps.here]; exact h.placed, fun entry hentry => ?_,
    fun content modified readable hfile => ?_⟩
  · cases entry with
    | file content modified readable =>
      obtain ⟨earlier, hearlier⟩ := hkeeps.file content modified readable hentry
      have hreadable := h.readable _ hearlier
      exact hreadable
    | directory about =>
      by_contra hdenied
      rw [Bool.not_eq_true] at hdenied
      exact Bool.false_ne_true (hdenied.symm.trans
        (h.readable _ (hkeeps.directory about hentry hdenied)))
  · obtain ⟨earlier, hearlier⟩ := hkeeps.file content modified readable hfile
    exact h.traced content earlier readable hearlier

theorem Experiment.readSamples_of_envelope {e : Experiment} {source : Path} {payload : Payload}
    {created modified : Instant}
    (h : disk.find source = .ok (.file (Text.encode (payload.envelope created)) modified))
    (conditions : Conditions) : e.readSamples disk source ≠ .ok conditions := by
  intro hread
  obtain ⟨rest, hrest⟩ := encode_envelope payload created
  rw [hrest] at h
  rw [readSamples, Disk.lines_of_find h, ok_bind] at hread
  obtain ⟨series, hseries, -⟩ := bind_eq_ok_iff.mp hread
  exact Records.sampleColumns_of_brace source _ rest series hseries

theorem Guarded.input_ne_place (h : Guarded states path place disk) {e : Experiment}
    {dataset : Dataset} (hdataset : e.Assembles disk dataset) {inputs : List Path}
    (hinputs : e.sourceFiles disk = .ok inputs) {source : Path} (hsource : source ∈ inputs) :
    disk.place source ≠ place := by
  intro hplace
  obtain ⟨content, modified, readable, hfind⟩ := Experiment.file_of_mem_sourceFiles hinputs hsource
  have hentry := Disk.entry?_of_find hfind
  rw [hplace] at hentry
  obtain rfl : readable = true := h.readable _ hentry
  obtain ⟨payload, created, rfl, -, -⟩ := h.traced content modified true hentry
  obtain ⟨conditions, hread⟩ := hdataset.readSamples_of_mem hinputs hsource
  exact Experiment.readSamples_of_envelope hfind conditions hread

theorem Guarded.traceable (h : Guarded states path place disk) (hmem : disk ∈ states) {run : Run}
    (hvalid : run.Valid) {payload : Payload} (hpayload : payload ∈ run.payload? disk) :
    Traceable states place payload := by
  cases run with
  | analyze e noCache =>
    obtain ⟨kept, hkept, rfl⟩ := Option.map_eq_some_iff.mp hpayload
    rw [toOption_eq_some_iff] at hkept
    refine .dataset hvalid hmem h.formed hkept fun stamp hstamp => ?_
    obtain ⟨inputs, dataset, report, stamps, hinputs, hdataset, -, hstamps, rfl⟩ :=
      Experiment.snapshot_eq_ok_iff.mp hkept
    obtain ⟨source, hsource, htake⟩ := exists_left_of_forall₂ (mapM_eq_ok_iff.mp hstamps) hstamp
    rw [InputStamp.path_of_take htake]
    exact h.input_ne_place hdataset hinputs hsource
  | functions baseline treatment cache =>
    obtain ⟨kept, hkept, rfl⟩ := Option.map_eq_some_iff.mp hpayload
    exact .functions hmem (toOption_eq_some_iff.mp hkept)

theorem Guarded.run (h : Guarded states path place disk) (hmem : disk ∈ states) {run : Run}
    (hvalid : run.Valid)
    (hreads : ∀ payload ∈ run.payload? disk, payload.ReadsBack path disk.now) :
    Guarded states path place (run.apply disk) := by
  obtain hsame | ⟨target, payload, hpayload, hwrite⟩ := run.apply_cases disk
  · rwa [hsame]
  · have hwrite := write_of_writePayload hwrite
    have hwrites := Disk.writes_of_write hwrite
    have hplaced := (hwrites.grows.place path).trans h.placed
    -- The run may keep its results in this snapshot or in another.
    by_cases hplace : place = disk.place target
    · have haccess : disk.access place = true := by
        rw [← Bool.not_eq_false]
        intro hdenied
        obtain ⟨_, _, hentry⟩ := Disk.access_eq_false_iff.mp hdenied
        exact Bool.false_ne_true (h.readable _ hentry)
      have hfile := hwrites.file
      rw [← hplace, haccess] at hfile
      refine ⟨h.formed.write hwrite, hplaced, fun entry hentry => ?_,
        fun content modified readable hentry => ?_⟩
      · rw [hfile] at hentry
        cases hentry
        rfl
      · rw [hfile] at hentry
        cases hentry
        exact ⟨payload, disk.now, rfl, hreads payload hpayload, h.traceable hmem hvalid hpayload⟩
    · have hsame := hwrites.others _ hplace
      exact ⟨h.formed.write hwrite, hplaced, hsame ▸ h.readable, hsame ▸ h.traced⟩

theorem Guarded.event (h : Guarded states path place disk) (hmem : disk ∈ states) {event : Event}
    (hadmissible : event.Admissible place)
    (hreads : ∀ payload ∈ event.payload? disk, payload.ReadsBack path disk.now) :
    Guarded states path place (event.apply disk) := by
  cases event with
  | run r => exact h.run hmem hadmissible hreads
  | edit change => exact h.edit hadmissible

theorem Guarded.final {events : List Event} (h : Guarded states path place disk)
    (hstates : statesFrom disk events ⊆ states)
    (hevents : ∀ event ∈ events, event.Admissible place)
    (hreads : ReadsBack path disk events) : Guarded states path place (final disk events) := by
  induction events generalizing disk with
  | nil => exact h
  | cons event events ih =>
    obtain ⟨hmem, hstates⟩ := List.cons_subset.mp hstates
    obtain ⟨hevent, hevents⟩ := List.forall_mem_cons.mp hevents
    exact ih (h.event hmem hevent hreads.1) hstates hevents hreads.2

theorem getLast?_statesFrom (disk : Disk) (events : List Event) :
    (statesFrom disk events).getLast? = some (final disk events) := by
  induction events generalizing disk with
  | nil => rfl
  | cons event events ih =>
    rw [statesFrom, List.getLast?_cons, ih, Option.getD_some]
    rfl

theorem final_mem_statesFrom (disk : Disk) (events : List Event) :
    final disk events ∈ statesFrom disk events :=
  List.mem_of_getLast? (getLast?_statesFrom disk events)

end CycleCount
