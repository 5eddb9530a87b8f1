import CycleCount.Command.Run
import CycleCount.Proofs.Leaves

/-! Snapshots and the files they were made from. A snapshot that is there is
either used or passed over, never an error; it is used only if the stamps in it
agree with the files at hand. -/

namespace CycleCount

deriving instance DecidableEq for Quartiles
deriving instance DecidableEq for SummaryRecord
deriving instance DecidableEq for SeriesValues
deriving instance DecidableEq for SeriesRecord
deriving instance DecidableEq for ComparisonRecord
deriving instance DecidableEq for DatasetSnapshot
deriving instance DecidableEq for FunctionEntry
deriving instance DecidableEq for FunctionSnapshot
deriving instance DecidableEq for Payload

theorem ok_of_lift {α : Type} {x : Except Error α} {a : α} (h : lift x = .ok a) : x = .ok a := by
  cases x with
  | error e => cases h
  | ok b =>
    cases h
    rfl

namespace InputStamp

variable {disk : Disk} {path : Path} {stamp : InputStamp}

theorem take_eq_ok_iff : take disk path = .ok stamp ↔
    ∃ entry, disk.find path = .ok entry ∧ stamp = ⟨path, entry.stamp.1, some entry.stamp.2⟩ := by
  unfold take
  cases disk.find path with
  | error fault => exact ⟨nofun, nofun⟩
  | ok entry => simp [eq_comm]

theorem take_eq_error_iff {error : Error} : take disk path = .error error ↔
    ∃ fault, disk.find path = .error fault ∧ error = .io path fault := by
  unfold take
  cases disk.find path with
  | error fault => simp [eq_comm]
  | ok entry => simp

theorem path_of_take (h : take disk path = .ok stamp) : stamp.path = path := by
  obtain ⟨entry, -, rfl⟩ := take_eq_ok_iff.mp h
  rfl

theorem take_of_find {content : Bytes} {modified : Instant} {readable : Bool}
    (h : disk.find path = .ok (.file content modified readable)) :
    take disk path = .ok { path, length := content.length, modified := some modified } :=
  take_eq_ok_iff.mpr ⟨_, h, rfl⟩

end InputStamp

theorem exists_stampInputs {disk : Disk} {inputs : List Path}
    (h : ∀ path ∈ inputs, ∃ content modified readable,
      disk.find path = .ok (.file content modified readable)) :
    ∃ stamps, stampInputs disk inputs = .ok stamps := by
  have hstamp : ∀ path ∈ inputs, ∃ stamp, InputStamp.take disk path = .ok stamp := by
    intro path hpath
    obtain ⟨content, modified, readable, hfind⟩ := h path hpath
    exact ⟨_, InputStamp.take_of_find hfind⟩
  obtain ⟨stamps, hstamps⟩ := exists_forall₂ hstamp
  exact ⟨stamps, mapM_eq_ok_iff.mpr hstamps⟩

theorem inputChange?_eq_none_iff {recorded current : List InputStamp} :
    inputChange? recorded current = none ↔
      List.Forall₂ (fun old new => old.agrees new = true) recorded current := by
  rw [List.forall₂_iff_zip, inputChange?]
  split
  · rename_i old new hfound
    have hmem := List.mem_of_find?_eq_some hfound
    have hdiffer := List.find?_some hfound
    simp only [Bool.not_eq_true'] at hdiffer
    constructor
    · intro h
      split_ifs at h
    · rintro ⟨-, hagree⟩
      rw [hagree hmem] at hdiffer
      cases hdiffer
  · rename_i hnone
    have hagree : ∀ {old new}, (old, new) ∈ recorded.zip current → old.agrees new = true := by
      intro old new hmem
      simpa using List.find?_eq_none.mp hnone (old, new) hmem
    constructor
    · intro h
      split_ifs at h with hlength
      exact ⟨hlength, hagree⟩
    · rintro ⟨hlength, -⟩
      rw [if_pos hlength]

theorem Payload.isUnusable_of_read {path : Path} {content : Bytes} {error : Error}
    (h : Payload.read path content = .error error) : error.isUnusableSnapshot = true := by
  unfold Payload.read at h
  split at h
  · cases h
    rfl
  · split_ifs at h
    · cases h
      rfl
    · cases h
      rfl
    · split at h
      · cases h
      · cases h
        rfl

theorem readPayload_of_find {disk : Disk} {path : Path} {content : Bytes} {modified : Instant}
    (h : disk.find path = .ok (.file content modified)) :
    readPayload disk path = Payload.read path content := by
  rw [readPayload, Disk.openEntry, Disk.opened_eq_ok_iff.mpr ⟨h, rfl⟩]
  rfl

theorem readPayload_of_denies {disk : Disk} {path : Path} (h : disk.Denies path) :
    readPayload disk path = .error (.io path .denied) := by
  rw [readPayload, Disk.openEntry, Disk.opened_of_denies h]
  rfl

theorem readPayload_cases {disk : Disk} {path : Path} {entry : Disk.Entry}
    (hopened : disk.opened path = .ok entry) :
    (∃ error, readPayload disk path = .error error ∧ error.isUnusableSnapshot = true) ∨
      ∃ content modified payload, disk.find path = .ok (.file content modified) ∧
        Payload.read path content = .ok payload ∧ readPayload disk path = .ok payload := by
  obtain ⟨hfind, hreadable⟩ := Disk.opened_eq_ok_iff.mp hopened
  cases entry with
  | directory about =>
    rw [readPayload, Disk.openEntry, hopened]
    exact .inl ⟨_, rfl, rfl⟩
  | file content modified readable =>
    obtain rfl : readable = true := hreadable
    rw [readPayload_of_find hfind]
    cases hread : Payload.read path content with
    | error error => exact .inl ⟨error, rfl, Payload.isUnusable_of_read hread⟩
    | ok payload => exact .inr ⟨content, modified, payload, hfind, hread, rfl⟩

theorem loadReport_cases {disk : Disk} {path : Path} {entry : Disk.Entry}
    (hopened : disk.opened path = .ok entry) {inputs : List Path} {current : List InputStamp}
    (hstamps : stampInputs disk inputs = .ok current) :
    (∃ error, loadReport disk path inputs = .error error ∧ error.isUnusableSnapshot = true) ∨
      ∃ content modified snapshot r, disk.find path = .ok (.file content modified) ∧
        Payload.read path content = .ok (.dataset snapshot) ∧
        inputChange? snapshot.inputs current = none ∧ snapshot.toReport = .ok r ∧
        loadReport disk path inputs = .ok r := by
  unfold loadReport
  obtain ⟨error, hread, herror⟩ | ⟨content, modified, payload, hfind, hpayload, hread⟩ :=
    readPayload_cases hopened
  · exact .inl ⟨error, by rw [hread, error_bind], herror⟩
  · rw [hread, ok_bind]
    cases payload with
    | functions snapshot => exact .inl ⟨_, rfl, rfl⟩
    | dataset snapshot =>
      simp only [checkInputs, hstamps, ok_bind]
      cases hchange : inputChange? snapshot.inputs current with
      | some change => exact .inl ⟨_, rfl, rfl⟩
      | none =>
        cases hreport : snapshot.toReport with
        | error fault => exact .inl ⟨_, rfl, rfl⟩
        | ok r => exact .inr ⟨content, modified, snapshot, r, hfind, hpayload, hchange, hreport, rfl⟩

theorem consult_of_find {α : Type} {disk : Disk} {path : Path} {entry : Disk.Entry}
    (h : disk.find path = .ok entry) (load : Path → Except Error α) (fits : α → Bool) :
    consult disk (some path) load fits = .ofLoad fits (load path) := by
  simp only [consult, Option.filter_some, Disk.contains_of_find h, if_true]

theorem consult_of_not_contains {α : Type} {disk : Disk} {path : Path}
    (h : disk.contains path = false) (load : Path → Except Error α) (fits : α → Bool) :
    consult disk (some path) load fits = .nothing .none := by
  simp only [consult, Option.filter_some, h, Bool.false_eq_true, if_false]

theorem consult_cases {disk : Disk} {inputs : List Path} {current : List InputStamp}
    (cache : Option Path) (hstamps : stampInputs disk inputs = .ok current) (fits : Report → Bool) :
    (∃ use, consult disk cache (fun path => loadReport disk path inputs) fits = .nothing use ∧
      ∀ path ∈ cache, ¬disk.Denies path) ∨
    (∃ path ∈ cache, disk.Denies path ∧
      consult disk cache (fun path => loadReport disk path inputs) fits =
        .failed (.io path .denied)) ∨
    ∃ path ∈ cache, ∃ content modified snapshot r,
      disk.find path = .ok (.file content modified) ∧
      Payload.read path content = .ok (.dataset snapshot) ∧
      inputChange? snapshot.inputs current = none ∧ snapshot.toReport = .ok r ∧ fits r = true ∧
      consult disk cache (fun path => loadReport disk path inputs) fits = .found r := by
  cases cache with
  | none => exact .inl ⟨_, rfl, nofun⟩
  | some path =>
    simp only [Option.mem_some_iff, forall_eq', exists_eq_left']
    cases hfind : disk.find path with
    | error fault =>
      have hcontains : disk.contains path = false := by
        rw [Disk.contains, hfind]
        rfl
      refine .inl ⟨_, consult_of_not_contains hcontains _ _, ?_⟩
      rintro ⟨entry, hfound, -⟩
      rw [hfind] at hfound
      cases hfound
    | ok entry =>
      rw [consult_of_find hfind]
      by_cases hdenies : disk.Denies path
      · right; left
        rw [loadReport, readPayload_of_denies hdenies, error_bind]
        exact ⟨hdenies, rfl⟩
      · obtain ⟨error, hload, hunusable⟩ |
            ⟨content, modified, snapshot, r, hfile, hread, hchange, hr, hload⟩ :=
          loadReport_cases (Disk.opened_of_not_denies hfind hdenies) hstamps
        · rw [hload, Consulted.ofLoad, if_pos hunusable]
          exact .inl ⟨_, rfl, hdenies⟩
        · rw [hload, Consulted.ofLoad]
          cases hfits : fits r with
          | false => exact .inl ⟨_, rfl, hdenies⟩
          | true =>
            right; right
            exact ⟨content, modified, snapshot, r, hfind.symm.trans hfile, hread, hchange, hr, hfits,
              rfl⟩

theorem Experiment.report_of_snapshot {c : Experiment} {disk : Disk} {path : Path}
    (hcache : c.cache = some path) {content : Bytes} {modified : Instant}
    (hfind : disk.find path = .ok (.file content modified)) {snapshot : DatasetSnapshot}
    (hread : Payload.read path content = .ok (.dataset snapshot)) {inputs : List Path}
    (hinputs : c.sourceFiles disk = .ok inputs)
    (hcheck : checkInputs disk path snapshot.inputs inputs = .ok ()) {r : Report}
    (hr : snapshot.toReport = .ok r) (hfits : r.belongsTo c = true) :
    c.report false disk = ⟨.hit, .ok (r, disk)⟩ := by
  have hload : loadReport disk path inputs = .ok r := by
    simp only [loadReport, readPayload_of_find hfind, hread, ok_bind, hcheck, hr, inSnapshot]
  have hconsult : consult disk c.cache (fun path => loadReport disk path inputs)
      (fun r => r.belongsTo c) = .found r := by
    simp only [hcache, consult_of_find hfind, hload, Consulted.ofLoad, hfits, if_true]
  simp only [report, hinputs, Bool.false_eq_true, if_false, hconsult]

end CycleCount
