import CycleCount.Proofs.Transparency

/-! Snapshots as a run meets them. One that is of no use is passed over, whatever
its text, and makes no run fail; only one that may not be read does. One that was
just kept is used by the next run, which then leaves the disk alone. -/

namespace CycleCount

theorem InputStamp.agrees_refl (stamp : InputStamp) : stamp.agrees stamp = true :=
  agrees_iff.mpr ⟨rfl, rfl, rfl⟩

theorem checkInputs_of_stampInputs {disk : Disk} (path : Path) {inputs : List Path}
    {recorded current : List InputStamp} (hcurrent : stampInputs disk inputs = .ok current)
    (hagree : List.Forall₂ (fun old new => old.agrees new = true) recorded current) :
    checkInputs disk path recorded inputs = .ok () := by
  rw [checkInputs, hcurrent, ok_bind, inputChange?_eq_none_iff.mpr hagree]

namespace Experiment

variable {c e : Experiment} {disk next : Disk} {path : Path} {content : Bytes} {modified : Instant}
  {inputs : List Path} {r : Report}

/-- The text of a snapshot with a report for the layout of `c`, made from files as
they are now. -/
def Fits (c : Experiment) (disk : Disk) (path : Path) (content : Bytes) (inputs : List Path)
    (r : Report) : Prop :=
  ∃ snapshot current, Payload.read path content = .ok (.dataset snapshot) ∧
    stampInputs disk inputs = .ok current ∧
    List.Forall₂ (fun old new => old.agrees new = true) snapshot.inputs current ∧
    snapshot.toReport = .ok r ∧ r.belongsTo c = true

theorem report_of_fits (hcache : c.cache = some path)
    (hfind : disk.find path = .ok (.file content modified))
    (hinputs : c.sourceFiles disk = .ok inputs) (hfits : c.Fits disk path content inputs r) :
    c.report false disk = ⟨.hit, .ok (r, disk)⟩ := by
  obtain ⟨snapshot, current, hread, hcurrent, hagree, hr, hbelongs⟩ := hfits
  have hcheck := checkInputs_of_stampInputs path hcurrent hagree
  exact report_of_snapshot hcache hfind hread hinputs hcheck hr hbelongs

theorem report_of_not_fits (hcache : c.cache = some path)
    (hfind : disk.find path = .ok (.file content modified))
    (hinputs : c.sourceFiles disk = .ok inputs) (hfits : ∀ r, ¬ c.Fits disk path content inputs r) :
    ((c.report false disk).use = .layout ∨ (c.report false disk).use = .unusable) ∧
      (c.report false disk).result = c.compute disk inputs := by
  obtain ⟨current, hcurrent⟩ :=
    exists_stampInputs fun source hsource => file_of_mem_sourceFiles hinputs hsource
  have hconsult := consult_of_find hfind (fun path => loadReport disk path inputs)
    (fun r => r.belongsTo c)
  simp only [report, hinputs, Bool.false_eq_true, if_false, hcache, hconsult]
  obtain ⟨error, hload, hunusable⟩ | ⟨content', modified', snapshot, r, hfind', hread, hchange, hr,
    hload⟩ := loadReport_cases (Disk.opened_eq_ok_iff.mpr ⟨hfind, rfl⟩) hcurrent
  · simp only [hload, Consulted.ofLoad, hunusable, if_true]
    exact ⟨.inr trivial, trivial⟩
  · rw [hfind] at hfind'
    cases hfind'
    have hforeign : r.belongsTo c = false := by
      rw [← Bool.not_eq_true]
      intro hbelongs
      exact hfits r ⟨snapshot, current, hread, hcurrent, inputChange?_eq_none_iff.mp hchange, hr,
        hbelongs⟩
    simp only [hload, Consulted.ofLoad, hforeign, Bool.false_eq_true, if_false]
    exact ⟨.inl trivial, trivial⟩

theorem report_of_denies (hcache : c.cache = some path) (hdenies : disk.Denies path)
    (hinputs : c.sourceFiles disk = .ok inputs) :
    c.report false disk = ⟨.none, .error (.analysis (.io path .denied))⟩ := by
  obtain ⟨-, hopen⟩ | ⟨path', hpath', -, hresult⟩ |
      ⟨path', hpath', content, modified, -, -, -, hfind, -⟩ := result_of_report hinputs
  · exact absurd hdenies (hopen path hcache)
  · obtain rfl : path = path' := Option.some.inj (hcache.symm.trans hpath')
    exact hresult
  · obtain rfl : path = path' := Option.some.inj (hcache.symm.trans hpath')
    obtain ⟨entry, hfound, hdenied⟩ := hdenies
    cases hfind.symm.trans hfound
    cases hdenied

/-- A snapshot that may be read never makes a run fail: what fails with it fails
without it, in the same way. Whatever bytes there are in its place, they are used if
they fit, and else the report is computed as if they were not there. A snapshot that
may not be read makes every run fail that gets to look at it. -/
theorem report_unless_denied (c : Experiment) (disk : Disk) :
    ((∀ path ∈ c.cache, ¬disk.Denies path) →
      ∀ failure, (c.report false disk).result = .error failure →
        (c.report true disk).result = .error failure) ∧
    (∀ path inputs, c.cache = some path → disk.Denies path → c.sourceFiles disk = .ok inputs →
      c.report false disk = ⟨.none, .error (.analysis (.io path .denied))⟩) ∧
    ∀ path content modified inputs, c.cache = some path →
      disk.find path = .ok (.file content modified) → c.sourceFiles disk = .ok inputs →
      (∀ r, c.Fits disk path content inputs r → c.report false disk = ⟨.hit, .ok (r, disk)⟩) ∧
      ((∀ r, ¬ c.Fits disk path content inputs r) →
        ((c.report false disk).use = .layout ∨ (c.report false disk).use = .unusable) ∧
        (c.report false disk).result = (c.report true disk).result) := by
  refine ⟨fun hopen failure hfailure => ?_, fun path inputs => report_of_denies,
    fun path content modified inputs hcache hfind hinputs => ?_⟩
  · cases hinputs : c.sourceFiles disk with
    | error error =>
      simp only [report, hinputs] at hfailure ⊢
      exact hfailure
    | ok inputs =>
      rw [result_without_snapshot hinputs]
      obtain ⟨hresult, -⟩ | ⟨path, hpath, hdenies, -⟩ |
          ⟨-, -, -, -, -, -, r, -, -, -, -, -, -, hresult⟩ := result_of_report hinputs
      · rw [← hresult]
        exact hfailure
      · exact absurd hdenies (hopen path hpath)
      · rw [hresult] at hfailure
        cases hfailure
  · refine ⟨fun r => report_of_fits hcache hfind hinputs, fun hfits => ?_⟩
    rw [result_without_snapshot hinputs]
    exact report_of_not_fits hcache hfind hinputs hfits

def garbledDisk : Disk :=
  idleSample.install ⟨"idle.json"⟩ (Text.encode "\x7b") ⟨7, 0⟩

theorem report_unless_denied_garbled :
    (∀ r, ¬ idle.Fits garbledDisk ⟨"idle.json"⟩ (Text.encode "\x7b") [⟨"data/0/1.csv"⟩] r) ∧
      ((idle.report false garbledDisk).use = .layout ∨
        (idle.report false garbledDisk).use = .unusable) ∧
      (idle.report false garbledDisk).result = (idle.report true garbledDisk).result := by
  have hfind : garbledDisk.find ⟨"idle.json"⟩ = .ok (.file (Text.encode "\x7b") ⟨7, 0⟩) :=
    toOption_eq_some_iff.mp (by decide +kernel)
  have hinputs : idle.sourceFiles garbledDisk = .ok [⟨"data/0/1.csv"⟩] :=
    toOption_eq_some_iff.mp (by decide +kernel)
  have hfits : ∀ r, ¬ idle.Fits garbledDisk ⟨"idle.json"⟩ (Text.encode "\x7b")
      [⟨"data/0/1.csv"⟩] r := by
    rintro r ⟨snapshot, current, hread, -⟩
    have hnone : (Payload.read ⟨"idle.json"⟩ (Text.encode "\x7b")).toOption = none := by
      decide +kernel
    rw [hread] at hnone
    cases hnone
  exact ⟨hfits, ((report_unless_denied idle garbledDisk).2.2 _ _ _ _ rfl hfind hinputs).2 hfits⟩

def deniedDisk : Disk :=
  idleSample.put ["idle.json"] (.file (Text.encode "\x7b") ⟨7, 0⟩ false)

theorem denied_snapshot_fatal :
    idle.validate = .ok () ∧ idle.sourceFiles deniedDisk = .ok [⟨"data/0/1.csv"⟩] ∧
      deniedDisk.place ⟨"data/0/1.csv"⟩ ≠ deniedDisk.place ⟨"idle.json"⟩ ∧
      (idle.report false deniedDisk).result =
        .error (.analysis (.io ⟨"idle.json"⟩ .denied)) ∧
      ∃ outcome, (idle.report true deniedDisk).result = .ok outcome := by
  have hinputs : idle.sourceFiles deniedDisk = .ok [⟨"data/0/1.csv"⟩] :=
    toOption_eq_some_iff.mp (by decide +kernel)
  have hfind : deniedDisk.find ⟨"idle.json"⟩ =
      .ok (.file (Text.encode "\x7b") ⟨7, 0⟩ false) :=
    toOption_eq_some_iff.mp (by decide +kernel)
  have hsome : (idle.report true deniedDisk).result.toOption.isSome := by decide +kernel
  obtain ⟨outcome, houtcome⟩ := Option.isSome_iff_exists.mp hsome
  refine ⟨rfl, hinputs, by decide +kernel, ?_, outcome, toOption_eq_some_iff.mp houtcome⟩
  rw [report_of_denies rfl ⟨_, hfind, rfl⟩ hinputs]

theorem kept_of_compute (hcache : e.cache = some path)
    (h : e.compute disk inputs = .ok (r, next)) :
    ∃ dataset stamps, e.Assembles disk dataset ∧ analyse e.comparison dataset = .ok r ∧
      stampInputs disk inputs = .ok stamps ∧
      writePayload disk path (.dataset (.ofReport r stamps)) = .ok next := by
  obtain ⟨computed, hcomputed, hkeep⟩ := bind_eq_ok_iff.mp h
  obtain ⟨dataset, hdataset, hcomputed⟩ := bind_eq_ok_iff.mp (ok_of_lift hcomputed)
  simp only [hcache, keep] at hkeep
  split at hkeep
  · rename_i hsave
    cases hkeep
    obtain ⟨stamps, hstamps, hwrite⟩ := bind_eq_ok_iff.mp hsave
    exact ⟨dataset, stamps, assemble_eq_ok_iff.mp hdataset, hcomputed, hstamps, hwrite⟩
  · cases hkeep

theorem Assembles.belongsTo {dataset : Dataset} (h : e.Assembles disk dataset)
    (hr : analyse e.comparison dataset = .ok r) : r.belongsTo e = true :=
  (belongsTo_iff_of_analyse hr e).mpr ⟨h.name, h.axes, h.labels, rfl, h.keys_entries⟩

theorem fits_of_kept (hvalid : e.Valid) (hinputs : e.sourceFiles disk = .ok inputs)
    {dataset : Dataset} (hdataset : e.Assembles disk dataset)
    (hr : analyse e.comparison dataset = .ok r) {stamps : List InputStamp}
    (hstamps : stampInputs disk inputs = .ok stamps) {location : Disk.Location}
    (hwrites : disk.Writes next location content)
    (hapart : ∀ source ∈ inputs, disk.place source ≠ location)
    (hread : Payload.read path content = .ok (.dataset (.ofReport r stamps))) :
    e.Fits next path content inputs r := by
  have hcurrent := stampInputs_of_writes hwrites hinputs hapart hstamps
  have hagree : List.Forall₂ (fun old new => old.agrees new = true) stamps stamps :=
    List.forall₂_same.mpr fun stamp _ => stamp.agrees_refl
  have hback := DatasetSnapshot.toReport_ofReport (regular_of_analyse hvalid hdataset hr) stamps
  exact ⟨_, stamps, hread, hcurrent, hagree, hback, hdataset.belongsTo hr⟩

/-- A run that succeeds leaves a snapshot that the next run uses: the next run gives
the same report and leaves the disk as it is. The snapshot must not be one of the
files that are read, and its text must be read back as what was written. -/
theorem fresh_snapshot_reused (e : Experiment) (path : Path) (hvalid : e.validate = .ok ())
    (hcache : e.cache = some path) (disk : Disk) (hdisk : disk.WellFormed) (r : Report) (next : Disk)
    (hrun : (e.report false disk).result = .ok (r, next))
    (hapart : ∀ sources, e.sourceFiles next = .ok sources →
      ∀ source ∈ sources, disk.place source ≠ disk.place path)
    (hreads : ∀ kept, e.snapshot disk = .ok kept →
      writePayload disk path (.dataset kept) = .ok next →
      Payload.read path (Text.encode (Payload.envelope disk.now (.dataset kept))) =
        .ok (.dataset kept)) :
    e.report false next = ⟨.hit, .ok (r, next)⟩ := by
  cases hinputs : e.sourceFiles disk with
  | error error =>
    simp only [report, hinputs] at hrun
    cases hrun
  | ok inputs =>
    obtain ⟨hresult, hopen⟩ | ⟨_, -, -, hresult⟩ | ⟨cache, hpath, content, modified, kept, current,
      found, hfind, hread, hcurrent, hchange, hfound, hbelongs, hresult⟩ := result_of_report hinputs
    · rw [hrun] at hresult
      obtain ⟨dataset, stamps, hdataset, hr, hstamps, hkept⟩ :=
        kept_of_compute hcache hresult.symm
      have hwrite := write_of_writePayload hkept
      have hwrites := Disk.writes_of_write hwrite
      have hsources := sourceFiles_of_writes hdisk (hdisk.write hwrite) hwrites hinputs hapart
      have hread := hreads _ (snapshot_eq_ok_iff.mpr
        ⟨inputs, dataset, r, stamps, hinputs, hdataset, hr, hstamps, rfl⟩) hkept
      have hfind := Disk.find_of_write_of_not_denies hwrite (hopen path hcache)
      exact report_of_fits hcache hfind hsources
        (fits_of_kept (valid_of_validate hvalid) hinputs hdataset hr hstamps hwrites
          (hapart inputs hsources) hread)
    · rw [hresult] at hrun
      cases hrun
    -- The run used a snapshot, so the disk is as it was.
    · rw [hrun] at hresult
      cases hresult
      obtain rfl : path = cache := Option.some.inj (hcache.symm.trans hpath)
      exact report_of_fits hcache hfind hinputs ⟨kept, current, hread, hcurrent,
        inputChange?_eq_none_iff.mp hchange, hfound, hbelongs⟩

theorem fresh_snapshot_reused_idle :
    ∃ r next, (idle.report false (final {} (idleHistory.take 1))).use = .none ∧
      (idle.report false (final {} (idleHistory.take 1))).result = .ok (r, next) ∧
      idle.report false next = ⟨.hit, .ok (r, next)⟩ := by
  have hsample : final {} (idleHistory.take 1) = idleSample := rfl
  have hsources : idle.sourceFiles idleKept = .ok [⟨"data/0/1.csv"⟩] :=
    toOption_eq_some_iff.mp (by decide +kernel)
  have hapart : ∀ sources, idle.sourceFiles idleKept = .ok sources →
      ∀ source ∈ sources, idleSample.place source ≠ idleSample.place ⟨"idle.json"⟩ := by
    intro sources hother source hsource
    rw [hsources] at hother
    cases hother
    rw [List.mem_singleton.mp hsource]
    decide +kernel
  obtain ⟨r, hreport⟩ := report_idleSample
  rw [hsample, hreport]
  refine ⟨r, idleKept, rfl, rfl, ?_⟩
  refine fresh_snapshot_reused idle ⟨"idle.json"⟩ rfl rfl idleSample (by decide +kernel) r idleKept
    (by rw [hreport]) hapart ?_
  intro kept hkept _
  rw [snapshot_idleSample] at hkept
  cases hkept
  exact read_idleText

end Experiment
end CycleCount
