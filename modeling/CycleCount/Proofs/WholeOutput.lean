import CycleCount.Proofs.Reshaping
import CycleCount.Proofs.Transposition
import CycleCount.Proofs.Writing

/-! Reshaping a file writes its whole output or nothing. A file that was opened for
writing has lost what it held, so all that can fail has to come before; the disk
that is left is the one before, or that with the whole output in its place. -/

namespace CycleCount

section Steps

variable {α β : Type} (disk : Disk)

theorem OnDisk.runOn_get_bind (f : Disk → OnDisk α) :
    (get >>= f : OnDisk α).runOn disk = (f disk).runOn disk := rfl

theorem OnDisk.runOn_modify_bind (g : Disk → Disk) (f : PUnit → OnDisk α) :
    (modify g >>= f : OnDisk α).runOn disk = (f ()).runOn (g disk) := rfl

theorem OnDisk.runOn_liftM_bind (x : Except Error α) (f : α → OnDisk β) :
    (liftM x >>= f : OnDisk β).runOn disk =
      match x with
      | .ok a => (f a).runOn disk
      | .error e => (.error e, disk) := by
  cases x <;> rfl

namespace Disk

theorem runOn_create_bind (path : Path) (f : Location → OnDisk α) :
    (create path >>= f).runOn disk =
      match disk.target path with
      | .ok location =>
        (f location).runOn (disk.put location (.file [] disk.now (disk.access location)))
      | .error fault => (.error (.io path fault), disk) := by
  simp only [create, bind_assoc, OnDisk.runOn_get_bind]
  cases disk.target path <;> rfl

theorem runOn_append_bind {location : Location} {before : Bytes} {modified : Instant}
    {readable : Bool} (h : disk.entry? location = some (.file before modified readable))
    (content : Bytes) (f : Unit → OnDisk α) :
    (append location content >>= f).runOn disk =
      (f ()).runOn { disk.put location (.file (before ++ content) disk.now readable) with
        now := tick disk.now } := by
  simp only [append, OnDisk.runOn_modify_bind, h]

theorem runOn_create_append_bind (path : Path) (content : Bytes) (f : Unit → OnDisk α) :
    (create path >>= fun file => append file content >>= f).runOn disk =
      match disk.save path content with
      | .ok next => (f ()).runOn next
      | .error e => (.error e, disk) := by
  rw [runOn_create_bind, save, write]
  cases htarget : disk.target path with
  | error fault => rfl
  | ok location =>
    have hopened : entry? (disk.put location (.file [] disk.now (disk.access location))) location =
        some (.file [] disk.now (disk.access location)) :=
      entry?_put_self (ne_nil_of_target htarget) _
    change (append location content >>= f).runOn
        (disk.put location (.file [] disk.now (disk.access location))) =
      (f ()).runOn { disk.put location (.file content disk.now (disk.access location)) with
        now := tick disk.now }
    rw [runOn_append_bind _ hopened, put_put, now_put, List.nil_append]

end Disk
end Steps

namespace TrialShape

variable {shape : TrialShape} {input output : Path} {disk : Disk} {rows : List FunctionRow}

/-- Rows are made in full before the output is opened, so that all failures come
before any change. -/
theorem runOn_reshapeFile (shape : TrialShape) (input output : Path) (disk : Disk) :
    (shape.reshapeFile input output).runOn disk =
      match (do
        let rows ← disk.lines input >>= shape.reshape input
        let next ← disk.save output (Text.encode (FunctionRow.write rows))
        return (extent rows, next)) with
      | .ok (extent, next) => (.ok extent, next)
      | .error e => (.error e, disk) := by
  rw [reshapeFile, OnDisk.runOn_get_bind, OnDisk.runOn_liftM_bind]
  cases disk.lines input with
  | error e => rfl
  | ok lines =>
    simp only [ok_bind]
    rw [OnDisk.runOn_liftM_bind]
    cases shape.reshape input lines with
    | error e => rfl
    | ok rows =>
      simp only [ok_bind]
      rw [Disk.runOn_create_append_bind]
      cases disk.save output (Text.encode (FunctionRow.write rows)) <;> rfl

theorem reshape_lines_eq_ok_iff :
    (disk.lines input >>= shape.reshape input) = .ok rows ↔
      ∃ content, disk.read input = .ok content ∧
        shape.reshape input (Records.lines input content) = .ok rows := by
  rw [bind_eq_ok_iff]
  constructor
  · rintro ⟨lines, hlines, hrows⟩
    obtain ⟨entry, hopened, rfl⟩ := Disk.lines_eq_ok_iff.mp hlines
    cases entry with
    | directory about =>
      obtain ⟨line, hline⟩ := sound_of_reshape hrows _ (List.mem_singleton_self _)
      cases hline
    | file content modified readable =>
      refine ⟨content, ?_, hrows⟩
      rw [Disk.read, hopened]
      rfl
  · rintro ⟨content, hread, hrows⟩
    obtain ⟨entry, hopened, hcontent⟩ := bind_eq_ok_iff.mp hread
    cases entry with
    | directory about => cases hcontent
    | file content' modified readable =>
      cases hcontent
      exact ⟨_, Disk.lines_eq_ok_iff.mpr ⟨_, hopened, rfl⟩, hrows⟩

theorem extent_of_reshape {lines : List (Except Error Records.Line)}
    (h : shape.reshape input lines = .ok rows) :
    (extent rows).functions = shape.functions ∧
      (∀ row ∈ rows, row.cycles.length = (extent rows).trials) ∧
      (extent rows).functions * (extent rows).trials = lines.length := by
  obtain ⟨measured, hlines, hcollect⟩ := reshape_eq_ok_iff.mp h
  obtain ⟨trials, hwhole, htransposed⟩ := transposed_of_collect hcollect
  have htrials : (extent rows).trials = trials := by
    cases rows with
    | nil => exact absurd htransposed.length shape.functions_pos.ne
    | cons row rows => exact htransposed.counts row List.mem_cons_self
  refine ⟨htransposed.length, htrials ▸ htransposed.counts, ?_⟩
  rw [htrials, ← hlines.length_eq, hwhole.length, mul_comm]
  exact congrArg _ htransposed.length

/-- The output holds all rows that come of what the input held before, all else is
as it was, and the extent tells their shape. -/
structure WholeOutput (shape : TrialShape) (input output : Path) (disk next : Disk)
    (extent : Extent) (content : Bytes) (rows : List FunctionRow) : Prop where
  read : disk.read input = .ok content
  reshape : shape.reshape input (Records.lines input content) = .ok rows
  target : disk.target output = .ok (disk.place output)
  writes : disk.Writes next (disk.place output) (Text.encode (FunctionRow.write rows))
  found : next.find output = .ok
    (.file (Text.encode (FunctionRow.write rows)) disk.now (disk.access (disk.place output)))
  functions : extent.functions = shape.functions
  length : rows.length = shape.functions
  trials : ∀ row ∈ rows, row.cycles.length = extent.trials
  sound : Records.Sound (Records.lines input content)
  records : extent.functions * extent.trials = (Records.lines input content).length

theorem wholeOutput_of_write {content : Bytes} {next : Disk} (hread : disk.read input = .ok content)
    (hrows : shape.reshape input (Records.lines input content) = .ok rows)
    (hwrite : disk.write output (Text.encode (FunctionRow.write rows)) = .ok next) :
    WholeOutput shape input output disk next (extent rows) content rows := by
  obtain ⟨hfunctions, htrials, hrecords⟩ := extent_of_reshape hrows
  obtain ⟨location, htarget, -⟩ := Disk.write_eq_ok_iff.mp hwrite
  rw [Disk.place_of_target htarget] at htarget
  exact ⟨hread, hrows, htarget, Disk.writes_of_write hwrite, Disk.find_of_write hwrite,
    hfunctions, hfunctions, htrials, sound_of_reshape hrows, hrecords⟩

def CanReshape (shape : TrialShape) (input output : Path) (disk : Disk) : Prop :=
  (∃ content rows, disk.read input = .ok content ∧
    shape.reshape input (Records.lines input content) = .ok rows) ∧
  ∃ location, disk.target output = .ok location

theorem reshapeFile_cases (shape : TrialShape) (input output : Path) (disk : Disk) :
    (∃ error, (shape.reshapeFile input output).runOn disk = (.error error, disk) ∧
      ¬ CanReshape shape input output disk) ∨
    ∃ extent next content rows,
      (shape.reshapeFile input output).runOn disk = (.ok extent, next) ∧
      WholeOutput shape input output disk next extent content rows := by
  rw [runOn_reshapeFile]
  cases hrows : disk.lines input >>= shape.reshape input with
  | error e =>
    refine .inl ⟨e, rfl, ?_⟩
    rintro ⟨⟨content, rows, hread, hreshape⟩, -⟩
    rw [reshape_lines_eq_ok_iff.mpr ⟨content, hread, hreshape⟩] at hrows
    cases hrows
  | ok rows =>
    obtain ⟨content, hread, hreshape⟩ := reshape_lines_eq_ok_iff.mp hrows
    rw [ok_bind, Disk.save]
    cases hwrite : disk.write output (Text.encode (FunctionRow.write rows)) with
    | error fault =>
      refine .inl ⟨_, rfl, ?_⟩
      rintro ⟨-, location, htarget⟩
      rw [Disk.write_eq_ok_iff.mpr ⟨location, htarget, rfl⟩] at hwrite
      cases hwrite
    | ok next =>
      exact .inr ⟨_, next, content, rows, rfl, wholeOutput_of_write hread hreshape hwrite⟩

/-- Reshaping a file changes nothing or writes its output whole, be it the input
itself, and it fails only where there is nothing to write or no place for it. -/
theorem reshapeFile_whole_or_nothing (shape : TrialShape) (input output : Path) (disk : Disk) :
    (∀ error next, (shape.reshapeFile input output).runOn disk = (.error error, next) →
      next = disk) ∧
    (∀ extent next, (shape.reshapeFile input output).runOn disk = (.ok extent, next) →
      ∃ content rows, WholeOutput shape input output disk next extent content rows) ∧
    ((∃ extent next, (shape.reshapeFile input output).runOn disk = (.ok extent, next)) ↔
      CanReshape shape input output disk) := by
  obtain ⟨error, hrun, hcannot⟩ | ⟨extent, next, content, rows, hrun, hwhole⟩ :=
    reshapeFile_cases shape input output disk
  · rw [hrun]
    refine ⟨fun _ _ h => ?_, fun _ _ h => ?_, iff_of_false ?_ hcannot⟩
    · cases h
      rfl
    · cases h
    · rintro ⟨extent, next, h⟩
      cases h
  · rw [hrun]
    have hcan : CanReshape shape input output disk :=
      ⟨⟨content, rows, hwhole.read, hwhole.reshape⟩, _, hwhole.target⟩
    refine ⟨fun _ _ h => ?_, fun _ _ h => ?_, iff_of_true ⟨extent, next, rfl⟩ hcan⟩
    · cases h
    · cases h
      exact ⟨content, rows, hwhole⟩

end TrialShape
end CycleCount
