import CycleCount.Functions.Collection
import CycleCount.Proofs.Outcome
import CycleCount.Proofs.Quartiles

/-! Two files read in step. A collection comes of them exactly if every row of the
one has a partner in the other with which it makes a record. Otherwise the first
row at which this fails decides the error, by what the two files hold there. -/

namespace CycleCount

theorem FunctionRecord.index_of_ofSeries {index : Nat} {name : String}
    {baseline treatment : Series} {record : FunctionRecord}
    (h : ofSeries index name baseline treatment = .ok record) : record.index = index := by
  obtain ⟨first, -, h⟩ := bind_eq_ok_iff.mp h
  obtain ⟨second, -, h⟩ := bind_eq_ok_iff.mp h
  obtain ⟨rawOverhead, -, h⟩ := bind_eq_ok_iff.mp h
  obtain ⟨filteredOverhead, -, h⟩ := bind_eq_ok_iff.mp h
  cases h
  rfl

theorem SeriesAnalysis.error_of_ofSeries {series : Series} {context : String} {error : Error}
    (h : ofSeries series context = .error error) :
    error = .emptySeries ∨ error = .emptyFilteredSeries context := by
  by_cases hne : series = []
  · rw [ofSeries, hne, ofFiltered_nil, Except.error.injEq] at h
    exact .inl h.symm
  · exact .inr (ofSeries_eq_error hne h)

theorem FunctionRecord.error_of_ofSeries {index : Nat} {name : String}
    {baseline treatment : Series} {error : Error}
    (h : ofSeries index name baseline treatment = .error error) :
    error = .zeroBaseline ∨ error = .emptySeries ∨ ∃ context, error = .emptyFilteredSeries context := by
  have hratio : ∀ {b t : Float}, ratioOfMeans b t = .error error → error = .zeroBaseline := by
    intro b t h
    unfold ratioOfMeans at h
    split_ifs at h
    cases h
    rfl
  have hseries : ∀ {series : Series} {context : String},
      SeriesAnalysis.ofSeries series context = .error error →
      error = .emptySeries ∨ ∃ context, error = .emptyFilteredSeries context :=
    fun h => (SeriesAnalysis.error_of_ofSeries h).imp_right fun h => ⟨_, h⟩
  obtain h | ⟨_, -, h⟩ := bind_eq_error_iff.mp h
  · exact .inr (hseries h)
  obtain h | ⟨_, -, h⟩ := bind_eq_error_iff.mp h
  · exact .inr (hseries h)
  obtain h | ⟨_, -, h⟩ := bind_eq_error_iff.mp h
  · exact .inl (hratio h)
  obtain h | ⟨_, -, h⟩ := bind_eq_error_iff.mp h
  · exact .inl (hratio h)
  · cases h

theorem Records.error_of_account {origin : Path} {terminated : Bool} {trailing start : Nat}
    {previous : Option (Nat × Nat)} {chunks : List Chunk} {error : Error}
    (h : .error error ∈ account origin terminated trailing start previous chunks) :
    (∃ number, error = .malformedLine origin number .emptyLine) ∨
      error = .records origin .encoding := by
  fun_induction account origin terminated trailing start previous chunks <;> simp_all

theorem Disk.error_of_lines {disk : Disk} {path : Path} {lines : List (Except Error Records.Line)}
    (hlines : disk.lines path = .ok lines) {error : Error} (h : .error error ∈ lines) :
    (∃ number fault, error = .malformedLine path number fault) ∨
      ∃ fault, error = .records path fault := by
  obtain ⟨entry, -, hentry⟩ := bind_eq_ok_iff.mp hlines
  cases hentry
  cases entry with
  | directory =>
    cases List.mem_singleton.mp h
    exact .inr ⟨_, rfl⟩
  | file content modified =>
    rcases Records.error_of_account h with ⟨number, rfl⟩ | rfl
    · exact .inl ⟨number, _, rfl⟩
    · exact .inr ⟨_, rfl⟩

theorem FunctionRow.error_of_ofLine {origin : Path} {line : Records.Line} {error : Error}
    (h : ofLine origin line = .error error) :
    ∃ fault, error = .malformedLine origin line.number fault := by
  unfold ofLine at h
  split at h
  · cases h
    exact ⟨_, rfl⟩
  · split_ifs at h
    · cases h
      exact ⟨_, rfl⟩
    · obtain h | ⟨cycles, -, h⟩ := bind_eq_error_iff.mp h
      · obtain ⟨field, -, hfield⟩ := exists_error_of_mapM h
        unfold Records.cycles at hfield
        split at hfield
        · cases hfield
        · cases hfield
          exact ⟨_, rfl⟩
      · split_ifs at h
        · cases h
          exact ⟨_, rfl⟩
        · cases h

theorem FunctionRow.error_of_read {disk : Disk} {path : Path}
    {rows : List (Except Error FunctionRow)} (hrows : (disk.lines path).map (read path) = .ok rows)
    {error : Error} (h : .error error ∈ rows) :
    (∃ number fault, error = .malformedLine path number fault) ∨
      ∃ fault, error = .records path fault := by
  obtain ⟨lines, hlines, rfl⟩ := map_eq_ok_iff.mp hrows
  obtain ⟨line, hline, hrow⟩ := List.mem_map.mp h
  obtain rfl | ⟨line, rfl, hrow⟩ := bind_eq_error_iff.mp hrow
  · exact Disk.error_of_lines hlines hline
  · obtain ⟨fault, rfl⟩ := error_of_ofLine hrow
    exact .inl ⟨_, fault, rfl⟩

namespace FunctionCollection

def Paired (index : Nat) (first second : Option (Except Error FunctionRow))
    (record : FunctionRecord) : Prop :=
  ∃ a b, first = some (.ok a) ∧ second = some (.ok b) ∧ a.function = b.function ∧
    FunctionRecord.ofSeries index a.function a.cycles b.cycles = .ok record

/-- Why no record is made of what the two files hold at `index`. A row of the
first file that cannot be read comes before one of the second, and both come
before all that is found by comparing rows. -/
inductive Unpaired (baseline treatment : Path) (index : Nat) :
    Option (Except Error FunctionRow) → Option (Except Error FunctionRow) → Error → Prop
  | first {second : Option (Except Error FunctionRow)} {error : Error} :
      Unpaired baseline treatment index (some (.error error)) second error
  | second {first : Option (Except Error FunctionRow)} {error : Error}
      (hfirst : ∀ other, first ≠ some (.error other)) :
      Unpaired baseline treatment index first (some (.error error)) error
  | firstLonger {row : FunctionRow} :
      Unpaired baseline treatment index (some (.ok row)) none
        (.rowCountMismatch baseline treatment (index + 1))
  | secondLonger {row : FunctionRow} :
      Unpaired baseline treatment index none (some (.ok row))
        (.rowCountMismatch baseline treatment (index + 1))
  | names {a b : FunctionRow} (hnames : a.function ≠ b.function) :
      Unpaired baseline treatment index (some (.ok a)) (some (.ok b))
        (.identifierMismatch s!"{baseline.text} vs {treatment.text}" (index + 1)
          a.function b.function)
  | record {a b : FunctionRow} {error : Error} (hnames : a.function = b.function)
      (herror : FunctionRecord.ofSeries index a.function a.cycles b.cycles = .error error) :
      Unpaired baseline treatment index (some (.ok a)) (some (.ok b)) error

section Row

variable {baseline treatment : Path} {index : Nat} {first second : Option (Except Error FunctionRow)}
  {record : FunctionRecord} {error : Error}

theorem Paired.unique {other : FunctionRecord} (h : Paired index first second record)
    (h' : Paired index first second other) : record = other := by
  obtain ⟨a, b, rfl, rfl, -, hrecord⟩ := h
  obtain ⟨a', b', ha, hb, -, hother⟩ := h'
  cases ha
  cases hb
  exact Except.ok.inj (hrecord.symm.trans hother)

theorem Unpaired.unique {other : Error} (h : Unpaired baseline treatment index first second error)
    (h' : Unpaired baseline treatment index first second other) : error = other := by
  cases h <;> cases h' <;> simp_all

theorem Paired.not_unpaired (h : Paired index first second record) :
    ¬Unpaired baseline treatment index first second error := by
  obtain ⟨a, b, rfl, rfl, hnames, hrecord⟩ := h
  intro herror
  cases herror with
  | names hother => exact hother hnames
  | record _ herror => cases hrecord.symm.trans herror

theorem Unpaired.ne_outOfOrder (h : Unpaired baseline treatment index first second error)
    (hfirst : first = some (.error error) →
      (∃ number fault, error = .malformedLine baseline number fault) ∨
        ∃ fault, error = .records baseline fault)
    (hsecond : second = some (.error error) →
      (∃ number fault, error = .malformedLine treatment number fault) ∨
        ∃ fault, error = .records treatment fault)
    {expected got : Nat} : error ≠ .outOfOrder expected got := by
  rintro rfl
  cases h with
  | first => simpa using hfirst rfl
  | second _ => simpa using hsecond rfl
  | record _ herror => simpa using FunctionRecord.error_of_ofSeries herror

theorem row_cases (baseline treatment : Path) (index : Nat)
    (first second : Option (Except Error FunctionRow)) :
    (first = none ∧ second = none) ∨ (∃ record, Paired index first second record) ∨
      ∃ error, Unpaired baseline treatment index first second error := by
  match first, second with
  | none, none => exact .inl ⟨rfl, rfl⟩
  | some (.error _), _ => exact .inr (.inr ⟨_, .first⟩)
  | none, some (.error _) => exact .inr (.inr ⟨_, .second nofun⟩)
  | some (.ok _), some (.error _) => exact .inr (.inr ⟨_, .second nofun⟩)
  | some (.ok _), none => exact .inr (.inr ⟨_, .firstLonger⟩)
  | none, some (.ok _) => exact .inr (.inr ⟨_, .secondLonger⟩)
  | some (.ok a), some (.ok b) =>
    by_cases hnames : a.function = b.function
    · cases hrecord : FunctionRecord.ofSeries index a.function a.cycles b.cycles with
      | ok record => exact .inr (.inl ⟨record, a, b, rfl, rfl, hnames, hrecord⟩)
      | error error => exact .inr (.inr ⟨error, .record hnames hrecord⟩)
    · exact .inr (.inr ⟨_, .names hnames⟩)

end Row

section Rows

variable {baseline treatment : Path} {done : Sequential FunctionRecord}
  {as bs : List (Except Error FunctionRow)}

theorem pairRows_of_paired {record : FunctionRecord}
    (h : Paired done.nextIndex as.head? bs.head? record) :
    pairRows baseline treatment done as bs =
      pairRows baseline treatment ⟨done.items ++ [record]⟩ as.tail bs.tail := by
  obtain ⟨a, b, ha, hb, hnames, hrecord⟩ := h
  obtain ⟨as, rfl⟩ := List.head?_eq_some_iff.mp ha
  obtain ⟨bs, rfl⟩ := List.head?_eq_some_iff.mp hb
  rw [pairRows, if_neg (not_not.mpr hnames), hrecord, ok_bind, Sequential.pushAt_nextIndex, ok_bind]
  rfl

theorem pairRows_of_unpaired {error : Error}
    (h : Unpaired baseline treatment done.nextIndex as.head? bs.head? error) :
    pairRows baseline treatment done as bs = .error error := by
  match as, bs with
  | [], [] => cases h
  | .error _ :: _, bs =>
    rw [h.unique .first]
    cases bs <;> rfl
  | [], .error _ :: _ =>
    rw [h.unique (.second nofun)]
    rfl
  | .ok _ :: _, .error _ :: _ =>
    rw [h.unique (.second nofun)]
    rfl
  | .ok _ :: _, [] =>
    rw [h.unique .firstLonger]
    rfl
  | [], .ok _ :: _ =>
    rw [h.unique .secondLonger]
    rfl
  | .ok a :: as, .ok b :: bs =>
    cases h with
    | names hnames => rw [pairRows, if_pos hnames]
    | record hnames herror => rw [pairRows, if_neg (not_not.mpr hnames), herror, error_bind]

structure AllPaired (start : Nat) (as bs : List (Except Error FunctionRow))
    (records : List FunctionRecord) : Prop where
  first : as.length = records.length
  second : bs.length = records.length
  paired : ∀ i record, records[i]? = some record → Paired (start + i) as[i]? bs[i]? record

def FirstUnpaired (baseline treatment : Path) (start : Nat)
    (as bs : List (Except Error FunctionRow)) (error : Error) : Prop :=
  ∃ i, (∀ j < i, ∃ record, Paired (start + j) as[j]? bs[j]? record) ∧
    Unpaired baseline treatment (start + i) as[i]? bs[i]? error

theorem AllPaired.cons {start : Nat} {a b : Except Error FunctionRow} {record : FunctionRecord}
    {records : List FunctionRecord} (hrow : Paired start (some a) (some b) record)
    (h : AllPaired (start + 1) as bs records) :
    AllPaired start (a :: as) (b :: bs) (record :: records) := by
  refine ⟨congrArg (· + 1) h.first, congrArg (· + 1) h.second, fun i other hother => ?_⟩
  cases i with
  | zero =>
    cases hother
    exact hrow
  | succ i =>
    rw [← Nat.succ_add_eq_add_succ]
    exact h.paired i other hother

theorem FirstUnpaired.cons {start : Nat} {a b : Except Error FunctionRow}
    {record : FunctionRecord} {error : Error} (hrow : Paired start (some a) (some b) record)
    (h : FirstUnpaired baseline treatment (start + 1) as bs error) :
    FirstUnpaired baseline treatment start (a :: as) (b :: bs) error := by
  obtain ⟨i, hbefore, hi⟩ := h
  refine ⟨i + 1, fun j hj => ?_, ?_⟩
  · cases j with
    | zero => exact ⟨record, hrow⟩
    | succ j =>
      rw [← Nat.succ_add_eq_add_succ]
      exact hbefore j (Nat.lt_of_succ_lt_succ hj)
  · rw [← Nat.succ_add_eq_add_succ]
    exact hi

theorem pairRows_cases (baseline treatment : Path) (done : Sequential FunctionRecord)
    (as bs : List (Except Error FunctionRow)) :
    (∃ records, AllPaired done.nextIndex as bs records ∧
      pairRows baseline treatment done as bs = .ok ⟨done.items ++ records⟩) ∨
    ∃ error, FirstUnpaired baseline treatment done.nextIndex as bs error ∧
      pairRows baseline treatment done as bs = .error error := by
  induction as generalizing done bs with
  | nil =>
    cases bs with
    | nil => exact .inl ⟨[], ⟨rfl, rfl, nofun⟩, by rw [List.append_nil]; rfl⟩
    | cons b bs =>
      rcases row_cases baseline treatment done.nextIndex none (some b) with h | ⟨_, h⟩ | ⟨error, h⟩
      · cases h.2
      · obtain ⟨_, _, h, -⟩ := h
        cases h
      · exact .inr ⟨error, ⟨0, nofun, h⟩, pairRows_of_unpaired h⟩
  | cons a as ih =>
    rcases row_cases baseline treatment done.nextIndex (some a) bs.head? with
      h | ⟨record, h⟩ | ⟨error, h⟩
    · cases h.1
    · obtain ⟨_, _, _, hb, -⟩ := id h
      obtain ⟨bs, rfl⟩ := List.head?_eq_some_iff.mp hb
      have hnext : (⟨done.items ++ [record]⟩ : Sequential FunctionRecord).nextIndex =
          done.nextIndex + 1 := List.length_append
      have hstep : pairRows baseline treatment done (a :: as) (_ :: bs) = _ :=
        pairRows_of_paired h
      rw [hstep]
      rcases ih ⟨done.items ++ [record]⟩ bs with ⟨records, hrecords, heq⟩ | ⟨error, herror, heq⟩
      · rw [hnext] at hrecords
        rw [List.append_assoc] at heq
        exact .inl ⟨record :: records, .cons h hrecords, heq⟩
      · rw [hnext] at herror
        exact .inr ⟨error, .cons h herror, heq⟩
    · have hzero : bs.head? = bs[0]? := List.head?_eq_getElem?
      refine .inr ⟨error, ⟨0, nofun, ?_⟩, pairRows_of_unpaired h⟩
      rw [hzero] at h
      exact h

theorem AllPaired.not_firstUnpaired {start : Nat} {records : List FunctionRecord} {error : Error}
    (h : AllPaired start as bs records) :
    ¬FirstUnpaired baseline treatment start as bs error := by
  rintro ⟨i, -, hi⟩
  rcases Nat.lt_or_ge i records.length with hlt | hge
  · exact (h.paired i records[i] (List.getElem?_eq_getElem hlt)).not_unpaired hi
  · -- Behind the last row there is nothing to fail.
    rw [List.getElem?_eq_none (h.first ▸ hge), List.getElem?_eq_none (h.second ▸ hge)] at hi
    cases hi

theorem AllPaired.unique {start : Nat} {records others : List FunctionRecord}
    (h : AllPaired start as bs records) (h' : AllPaired start as bs others) :
    records = others := by
  have hlength : records.length = others.length := h.first.symm.trans h'.first
  apply List.ext_getElem hlength
  intro i hi hi'
  exact (h.paired i _ (List.getElem?_eq_getElem hi)).unique
    (h'.paired i _ (List.getElem?_eq_getElem hi'))

theorem FirstUnpaired.unique {start : Nat} {error other : Error}
    (h : FirstUnpaired baseline treatment start as bs error)
    (h' : FirstUnpaired baseline treatment start as bs other) : error = other := by
  obtain ⟨i, hbefore, hi⟩ := h
  obtain ⟨i', hbefore', hi'⟩ := h'
  rcases Nat.lt_trichotomy i i' with hlt | rfl | hgt
  · obtain ⟨record, hrecord⟩ := hbefore' i hlt
    exact absurd hi hrecord.not_unpaired
  · exact hi.unique hi'
  · obtain ⟨record, hrecord⟩ := hbefore i' hgt
    exact absurd hi' hrecord.not_unpaired

theorem AllPaired.indices {start : Nat} {records : List FunctionRecord}
    (h : AllPaired start as bs records) :
    records.map (·.index) = List.range' start records.length := by
  apply List.ext_getElem (by rw [List.length_map, List.length_range'])
  intro i hi _
  rw [List.length_map] at hi
  obtain ⟨a, b, -, -, -, hrecord⟩ := h.paired i records[i] (List.getElem?_eq_getElem hi)
  rw [List.getElem_map, List.getElem_range', Nat.one_mul]
  exact FunctionRecord.index_of_ofSeries hrecord

theorem AllPaired.sound {start : Nat} {records : List FunctionRecord}
    (h : AllPaired start as bs records) :
    (∀ item ∈ as, ∃ row, item = .ok row) ∧ ∀ item ∈ bs, ∃ row, item = .ok row := by
  constructor
  · intro item hitem
    obtain ⟨i, hi, rfl⟩ := List.getElem_of_mem hitem
    obtain ⟨a, -, ha, -⟩ := h.paired i _ (List.getElem?_eq_getElem (h.first ▸ hi))
    exact ⟨a, Option.some.inj ((List.getElem?_eq_getElem hi).symm.trans ha)⟩
  · intro item hitem
    obtain ⟨i, hi, rfl⟩ := List.getElem_of_mem hitem
    obtain ⟨-, b, -, hb, -⟩ := h.paired i _ (List.getElem?_eq_getElem (h.second ▸ hi))
    exact ⟨b, Option.some.inj ((List.getElem?_eq_getElem hi).symm.trans hb)⟩

theorem exists_allPaired_iff {start : Nat} :
    (∃ records, AllPaired start as bs records) ↔
      as.length = bs.length ∧ ∀ i < as.length, ∃ record, Paired (start + i) as[i]? bs[i]? record := by
  constructor
  · rintro ⟨records, h⟩
    refine ⟨h.first.trans h.second.symm, fun i hi => ?_⟩
    exact ⟨_, h.paired i _ (List.getElem?_eq_getElem (h.first ▸ hi))⟩
  · rintro ⟨hlength, hrows⟩
    obtain ⟨records, hrecords⟩ :=
      exists_forall₂ fun i (hi : i ∈ List.range as.length) => hrows i (List.mem_range.mp hi)
    have hcount : as.length = records.length := List.length_range.symm.trans hrecords.length_eq
    refine ⟨records, hcount, hlength.symm.trans hcount, fun i record hrecord => ?_⟩
    obtain ⟨j, hj, hpaired⟩ := getElem?_of_forall₂ hrecords.flip hrecord
    obtain ⟨hlt, rfl⟩ := List.getElem?_eq_some_iff.mp hj
    rwa [List.getElem_range] at hpaired

theorem pairRows_eq_ok_iff {s : Sequential FunctionRecord} :
    pairRows baseline treatment done as bs = .ok s ↔
      ∃ records, AllPaired done.nextIndex as bs records ∧ s = ⟨done.items ++ records⟩ := by
  rcases pairRows_cases baseline treatment done as bs with
    ⟨records, hrecords, heq⟩ | ⟨error, herror, heq⟩
  · rw [heq, Except.ok.injEq]
    constructor
    · rintro rfl
      exact ⟨records, hrecords, rfl⟩
    · rintro ⟨others, hothers, rfl⟩
      rw [hrecords.unique hothers]
  · rw [heq]
    exact ⟨nofun, fun ⟨_, hrecords, _⟩ => absurd herror hrecords.not_firstUnpaired⟩

theorem pairRows_eq_error_iff {error : Error} :
    pairRows baseline treatment done as bs = .error error ↔
      FirstUnpaired baseline treatment done.nextIndex as bs error := by
  rcases pairRows_cases baseline treatment done as bs with
    ⟨records, hrecords, heq⟩ | ⟨other, hother, heq⟩
  · rw [heq]
    exact ⟨nofun, fun herror => absurd herror hrecords.not_firstUnpaired⟩
  · rw [heq, Except.error.injEq]
    constructor
    · rintro rfl
      exact hother
    · exact hother.unique

end Rows

section Load

variable {disk : Disk} {baseline treatment : Path} {as bs : List (Except Error FunctionRow)}

theorem rows_of_lines {path : Path} {lines : List (Except Error Records.Line)}
    (h : disk.lines path = .ok lines) :
    (disk.lines path).map (FunctionRow.read path) = .ok (FunctionRow.read path lines) := by
  rw [h]
  rfl

theorem load_eq_pairRows (has : (disk.lines baseline).map (FunctionRow.read baseline) = .ok as)
    (hbs : (disk.lines treatment).map (FunctionRow.read treatment) = .ok bs) :
    load disk baseline treatment =
      pairRows baseline treatment {} as bs >>= fun sequence => .ok ⟨sequence.items⟩ := by
  obtain ⟨first, hfirst, rfl⟩ := map_eq_ok_iff.mp has
  obtain ⟨second, hsecond, rfl⟩ := map_eq_ok_iff.mp hbs
  rw [load, hfirst, ok_bind, hsecond, ok_bind]
  rfl

theorem load_eq_ok_iff_allPaired
    (has : (disk.lines baseline).map (FunctionRow.read baseline) = .ok as)
    (hbs : (disk.lines treatment).map (FunctionRow.read treatment) = .ok bs)
    {collection : FunctionCollection} :
    load disk baseline treatment = .ok collection ↔ AllPaired 0 as bs collection.records := by
  rw [load_eq_pairRows has hbs, bind_eq_ok_iff]
  constructor
  · rintro ⟨sequence, hsequence, hcollection⟩
    cases hcollection
    obtain ⟨records, hrecords, rfl⟩ := pairRows_eq_ok_iff.mp hsequence
    exact hrecords
  · intro hrecords
    exact ⟨⟨collection.records⟩, pairRows_eq_ok_iff.mpr ⟨_, hrecords, rfl⟩, rfl⟩

theorem load_eq_error_iff_firstUnpaired
    (has : (disk.lines baseline).map (FunctionRow.read baseline) = .ok as)
    (hbs : (disk.lines treatment).map (FunctionRow.read treatment) = .ok bs) {error : Error} :
    load disk baseline treatment = .error error ↔
      FirstUnpaired baseline treatment 0 as bs error := by
  rw [load_eq_pairRows has hbs, bind_eq_error_iff, pairRows_eq_error_iff]
  exact or_iff_left fun ⟨_, _, h⟩ => nomatch h

end Load

/-- Two files that can be opened give a collection exactly if they have equally
many rows, all of them sound, and the rows at each index make a record; these are
its records. Otherwise the first index at which that fails decides the error. No
record is ever put in the wrong place. -/
theorem load_in_step (disk : Disk) (baseline treatment : Path)
    (as bs : List (Except Error FunctionRow))
    (has : (disk.lines baseline).map (FunctionRow.read baseline) = .ok as)
    (hbs : (disk.lines treatment).map (FunctionRow.read treatment) = .ok bs) :
    ((∃ collection, load disk baseline treatment = .ok collection) ↔
      as.length = bs.length ∧ ∀ i < as.length, ∃ record, Paired i as[i]? bs[i]? record) ∧
    (∀ collection, load disk baseline treatment = .ok collection →
      collection.records.length = as.length ∧
      ∀ i record, collection.records[i]? = some record →
        Paired i as[i]? bs[i]? record ∧ record.index = i) ∧
    (∀ error, load disk baseline treatment = .error error ↔
      ∃ i, (∀ j < i, ∃ record, Paired j as[j]? bs[j]? record) ∧
        Unpaired baseline treatment i as[i]? bs[i]? error) ∧
    ∀ expected got, load disk baseline treatment ≠ .error (.outOfOrder expected got) := by
  have hok := fun collection : FunctionCollection =>
    @load_eq_ok_iff_allPaired disk baseline treatment as bs has hbs collection
  have herror := fun error : Error =>
    @load_eq_error_iff_firstUnpaired disk baseline treatment as bs has hbs error
  simp only [FirstUnpaired, Nat.zero_add] at herror
  refine ⟨?_, fun collection hcollection => ?_, herror, fun expected got h => ?_⟩
  · have hexists := @exists_allPaired_iff as bs 0
    simp only [Nat.zero_add] at hexists
    rw [← hexists]
    constructor
    · rintro ⟨collection, hcollection⟩
      exact ⟨collection.records, (hok collection).mp hcollection⟩
    · rintro ⟨records, hrecords⟩
      exact ⟨⟨records⟩, (hok ⟨records⟩).mpr hrecords⟩
  · have hrecords := (hok collection).mp hcollection
    refine ⟨hrecords.first.symm, fun i record hrecord => ?_⟩
    have hpaired := hrecords.paired i record hrecord
    rw [Nat.zero_add] at hpaired
    obtain ⟨a, b, -, -, -, hmade⟩ := id hpaired
    exact ⟨hpaired, FunctionRecord.index_of_ofSeries hmade⟩
  · obtain ⟨i, -, hi⟩ := (herror _).mp h
    exact hi.ne_outOfOrder (fun hitem => FunctionRow.error_of_read has (List.mem_of_getElem? hitem))
      (fun hitem => FunctionRow.error_of_read hbs (List.mem_of_getElem? hitem)) rfl

def divergingFiles : Disk where
  entries := [(["a.csv"], .file (Text.encode "f,4\ng,1\n") ⟨1, 0⟩),
    (["b.csv"], .file (Text.encode "f,6\nh,1\n") ⟨1, 0⟩)]

theorem load_in_step_diverging :
    (divergingFiles.lines ⟨"a.csv"⟩).map (FunctionRow.read ⟨"a.csv"⟩) =
        .ok [.ok ⟨"f", [4]⟩, .ok ⟨"g", [1]⟩] ∧
      (divergingFiles.lines ⟨"b.csv"⟩).map (FunctionRow.read ⟨"b.csv"⟩) =
        .ok [.ok ⟨"f", [6]⟩, .ok ⟨"h", [1]⟩] ∧
      load divergingFiles ⟨"a.csv"⟩ ⟨"b.csv"⟩ =
        .error (.identifierMismatch "a.csv vs b.csv" 2 "g" "h") ∧
      ∃ collection, load divergingFiles ⟨"a.csv"⟩ ⟨"a.csv"⟩ = .ok collection := by
  have ha : (divergingFiles.lines ⟨"a.csv"⟩).map (FunctionRow.read ⟨"a.csv"⟩) =
      .ok [.ok ⟨"f", [4]⟩, .ok ⟨"g", [1]⟩] := by decide +kernel
  have hb : (divergingFiles.lines ⟨"b.csv"⟩).map (FunctionRow.read ⟨"b.csv"⟩) =
      .ok [.ok ⟨"f", [6]⟩, .ok ⟨"h", [1]⟩] := by decide +kernel
  have hpaired : ∀ {index : Nat} {name : String} {first second : List UInt64},
      (FunctionRecord.ofSeries index name first second).toOption.isSome →
      ∃ record, Paired index (some (.ok ⟨name, first⟩)) (some (.ok ⟨name, second⟩)) record := by
    intro index name first second hsome
    obtain ⟨record, hrecord⟩ := Option.isSome_iff_exists.mp hsome
    exact ⟨record, _, _, rfl, rfl, rfl, toOption_eq_some_iff.mp hrecord⟩
  have htext : ∀ {first second : Path}, first = ⟨"a.csv"⟩ → second = ⟨"b.csv"⟩ →
      s!"{first.text} vs {second.text}" = "a.csv vs b.csv" := by
    rintro _ _ rfl rfl
    decide
  obtain ⟨-, -, herror, -⟩ := load_in_step _ _ _ _ _ ha hb
  obtain ⟨hok, -⟩ := load_in_step _ _ _ _ _ ha ha
  refine ⟨ha, hb, (herror _).mpr ⟨1, ?_, htext rfl rfl ▸ .names (by decide)⟩, hok.mpr ⟨rfl, ?_⟩⟩
  · intro j hj
    obtain rfl : j = 0 := Nat.lt_one_iff.mp hj
    exact hpaired (by decide +kernel)
  · intro i hi
    match i, hi with
    | 0, _ => exact hpaired (by decide +kernel)
    | 1, _ => exact hpaired (by decide +kernel)

end FunctionCollection
end CycleCount
