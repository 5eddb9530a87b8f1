import CycleCount.Proofs.Assembly
import CycleCount.Proofs.Layout
import CycleCount.Proofs.Pairing
import CycleCount.Proofs.Quartiles

/-! A layout that passes validation does not fail in the middle of a run. Every
condition that is to be compared was measured, at least once, so that an analysis
can only fail on the measurements themselves. -/

namespace CycleCount

namespace Key

theorem get?_withValue_self {key : Key} {index : Nat} {old : String} (h : key.get? index = some old)
    (value : String) : (key.withValue index value).get? index = some value := by
  have hlt : index < key.values.length := (List.getElem?_eq_some_iff.mp h).1
  rw [get?, withValue, List.getElem?_set_self hlt]

theorem get?_withValue_of_ne (key : Key) {index other : Nat} (h : other ≠ index) (value : String) :
    (key.withValue index value).get? other = key.get? other := by
  rw [get?, withValue, List.getElem?_set_ne h.symm, get?]

end Key

namespace Experiment

def pairs (e : Experiment) : List (Condition × Condition) :=
  match e.comparison with
  | none => []
  | some (.columns baseline treatment) =>
    e.keys.map fun key => (⟨key, baseline⟩, ⟨key, treatment⟩)
  | some (.axis name baseline treatment) =>
    let index := e.axisNames.idxOf name
    (e.keys.filter fun key => key.get? index == some baseline).flatMap fun key =>
      e.columns.map fun label => (⟨key, label⟩, ⟨key.withValue index treatment, label⟩)

variable {e : Experiment} {disk : Disk} {dataset : Dataset}

theorem Valid.columns_of_comparison (h : e.Valid) {baseline treatment : String}
    (hcomparison : e.comparison = some (.columns baseline treatment)) :
    baseline ∈ e.columns ∧ treatment ∈ e.columns := by
  have hcheck := h.comparison
  simp only [checkComparison, hcomparison] at hcheck
  split_ifs at hcheck with hbaseline htreatment
  exact ⟨by simpa using hbaseline, by simpa using htreatment⟩

theorem getElem?_idxOf_axisNames {name : String} (h : name ∈ e.axisNames) :
    e.axisNames[e.axisNames.idxOf name]? = some name := by
  have hlt := List.idxOf_lt_length_of_mem h
  rw [List.getElem?_eq_getElem hlt, List.getElem_idxOf hlt]

theorem Valid.axis_of_comparison (h : e.Valid) {name baseline treatment : String}
    (hcomparison : e.comparison = some (.axis name baseline treatment)) :
    name ∈ e.axisNames ∧ ∃ axis, e.axes[e.axisNames.idxOf name]? = some axis ∧
      baseline ∈ axis.values ∧ treatment ∈ axis.values := by
  have hcheck := h.comparison
  simp only [checkComparison, hcomparison] at hcheck
  split at hcheck
  · cases hcheck
  · rename_i axis hfind
    split_ifs at hcheck with hbaseline htreatment
    have hmem : axis ∈ e.axes := List.mem_of_find?_eq_some hfind
    have hname : axis.name = name := by simpa using List.find?_some hfind
    have hnames : name ∈ e.axisNames := hname ▸ List.mem_map_of_mem hmem
    obtain ⟨found, hfound, hfoundName⟩ : ∃ found, e.axes[e.axisNames.idxOf name]? = some found ∧
        found.name = name := by
      have hat := getElem?_idxOf_axisNames hnames
      rw [Experiment.axisNames, List.getElem?_map] at hat
      exact Option.map_eq_some_iff.mp hat
    -- Only one axis has that name.
    have haxis : found = axis := List.inj_on_of_nodup_map h.axisNames
      (List.mem_of_getElem? hfound) hmem (hfoundName.trans hname.symm)
    subst haxis
    exact ⟨hnames, found, hfound, by simpa using hbaseline, by simpa using htreatment⟩

theorem Valid.withValue_mem_keys (h : e.Valid) {name baseline treatment : String}
    (hcomparison : e.comparison = some (.axis name baseline treatment)) {key : Key}
    (hkey : key ∈ e.keys) : key.withValue (e.axisNames.idxOf name) treatment ∈ e.keys := by
  obtain ⟨-, axis, haxis, -, htreatment⟩ := h.axis_of_comparison hcomparison
  rw [mem_keys_iff] at hkey ⊢
  exact set_mem_combinations hkey haxis htreatment

theorem Assembles.keys_entries (h : e.Assembles disk dataset) :
    dataset.entries.map (·.1) = e.keys := by
  rw [CycleCount.keys_entries, h.keys]

theorem Assembles.exists_get? (h : e.Assembles disk dataset) {key : Key} (hkey : key ∈ e.keys) :
    ∃ record, dataset.get? key = some record := by
  rw [← h.keys_entries] at hkey
  obtain ⟨⟨_, record⟩, hentry, rfl⟩ := List.mem_map.mp hkey
  exact ⟨record, mem_entries_iff.mp hentry⟩

theorem Assembles.readLeaf_of_get? (h : e.Assembles disk dataset) {key : Key} {record : RunRecord}
    (hrecord : dataset.get? key = some record) :
    key ∈ e.keys ∧ e.readLeaf disk (e.leafDirectory key) = .ok record := by
  have hmem := List.mem_reverse.mp (mem_of_lookup_eq_some hrecord)
  obtain ⟨key', hkey, heq, hread⟩ := exists_left_of_forall₂ h.records hmem
  cases heq
  exact ⟨hkey, hread⟩

theorem Assembles.filled (h : e.Assembles disk dataset) : dataset.Filled := by
  intro entry hentry
  obtain ⟨key, -, -, hread⟩ := exists_left_of_forall₂ h.records hentry
  exact exists_inserts_of_readLeaf hread

theorem axisPairs_eq_ok (h : e.Assembles disk dataset) {index : Nat} {treatment : String} {key : Key}
    (hother : key.withValue index treatment ∈ e.keys) :
    axisPairs dataset index treatment key =
      .ok (e.columns.map fun label => (⟨key, label⟩, ⟨key.withValue index treatment, label⟩)) := by
  obtain ⟨record, hrecord⟩ := h.exists_get? hother
  simp only [axisPairs, hrecord, h.labels]

theorem comparisonPairs_eq_ok (hvalid : e.Valid) (h : e.Assembles disk dataset) :
    comparisonPairs e.comparison dataset = .ok e.pairs := by
  unfold comparisonPairs pairs
  cases hcomparison : e.comparison with
  | none => rfl
  | some comparison =>
    cases comparison with
    | columns baseline treatment =>
      simp only [← h.keys_entries, List.map_map]
      rfl
    | axis name baseline treatment =>
      obtain ⟨hname, -⟩ := hvalid.axis_of_comparison hcomparison
      have hindex : dataset.axisIndex? name = some (e.axisNames.idxOf name) := by
        obtain ⟨index, hindex⟩ := Option.isSome_iff_exists.mp (List.isSome_idxOf?.mpr hname)
        rw [Dataset.axisIndex?, h.axes, List.idxOf_eq_getD_idxOf?, hindex, Option.getD_some]
      simp only [hindex, bind_eq_ok_iff, pure_eq_ok, Except.ok.injEq, mapM_eq_ok_iff]
      refine ⟨_, ?_, List.flatMap_def.symm⟩
      rw [← h.keys_entries, List.filter_map, List.map_map, List.forall₂_map_right_iff]
      refine List.forall₂_same.mpr fun entry hentry => ?_
      refine axisPairs_eq_ok h (hvalid.withValue_mem_keys hcomparison ?_)
      rw [← h.keys_entries]
      exact List.mem_map_of_mem (List.mem_of_mem_filter hentry)

theorem Valid.mem_of_pairs (h : e.Valid) {pair : Condition × Condition} (hpair : pair ∈ e.pairs) :
    (pair.1.key ∈ e.keys ∧ pair.1.label ∈ e.columns) ∧
      (pair.2.key ∈ e.keys ∧ pair.2.label ∈ e.columns) := by
  unfold pairs at hpair
  cases hcomparison : e.comparison with
  | none => simp [hcomparison] at hpair
  | some comparison =>
    cases comparison with
    | columns baseline treatment =>
      obtain ⟨hbaseline, htreatment⟩ := h.columns_of_comparison hcomparison
      simp only [hcomparison, List.mem_map] at hpair
      obtain ⟨key, hkey, rfl⟩ := hpair
      exact ⟨⟨hkey, hbaseline⟩, hkey, htreatment⟩
    | axis name baseline treatment =>
      simp only [hcomparison, List.mem_flatMap, List.mem_filter, List.mem_map] at hpair
      obtain ⟨key, ⟨hkey, -⟩, label, hlabel, rfl⟩ := hpair
      exact ⟨⟨hkey, hlabel⟩, h.withValue_mem_keys hcomparison hkey, hlabel⟩

theorem values_of_axis_pair {name baseline treatment : String}
    (hcomparison : e.comparison = some (.axis name baseline treatment))
    {pair : Condition × Condition} (hpair : pair ∈ e.pairs) :
    pair.1.label = pair.2.label ∧
      pair.1.key.get? (e.axisNames.idxOf name) = some baseline ∧
      pair.2.key.get? (e.axisNames.idxOf name) = some treatment ∧
      ∀ other ≠ e.axisNames.idxOf name, pair.2.key.get? other = pair.1.key.get? other := by
  simp only [pairs, hcomparison, List.mem_flatMap, List.mem_filter, List.mem_map] at hpair
  obtain ⟨key, ⟨-, hbaseline⟩, label, -, rfl⟩ := hpair
  have hvalue : key.get? (e.axisNames.idxOf name) = some baseline := by simpa using hbaseline
  exact ⟨rfl, hvalue, Key.get?_withValue_self hvalue treatment,
    fun other hother => key.get?_withValue_of_ne hother treatment⟩

end Experiment

theorem covers_of_configurations {dataset : Dataset} {configurations : List ConfigurationAnalysis}
    (h : dataset.entries.mapM (fun (key, record) => analyseConfiguration dataset.labels key record) =
      .ok configurations) :
    Report.Covers ⟨dataset.name, dataset.axes, dataset.labels, configurations, none, []⟩ none
      dataset [] :=
  ⟨rfl, rfl, rfl, rfl, mapM_eq_ok_iff.mp h, rfl, .nil⟩

theorem Report.Covers.exists_condition? {r : Report} {comparison : Option Comparison}
    {dataset : Dataset} {pairs : List (Condition × Condition)}
    (h : r.Covers comparison dataset pairs) {c : Condition}
    (hkey : c.key ∈ dataset.entries.map (·.1)) (hlabel : c.label ∈ dataset.labels) :
    ∃ a, r.condition? c = some a := by
  have hconfiguration : (r.configuration? c.key).isSome := by
    obtain ⟨entry, hentry, heq⟩ := List.mem_map.mp hkey
    obtain ⟨configuration, hmem, hok⟩ := exists_right_of_forall₂ h.configurations hentry
    refine List.find?_isSome.mpr ⟨configuration, hmem, ?_⟩
    rw [(labels_of_analyseConfiguration hok).1, heq, beq_self_eq_true]
  obtain ⟨configuration, hconfiguration⟩ := Option.isSome_iff_exists.mp hconfiguration
  have hanalysis : (configuration.label? c.label).isSome := by
    obtain ⟨entry, -, hok⟩ :=
      exists_left_of_forall₂ h.configurations (List.mem_of_find?_eq_some hconfiguration)
    obtain ⟨a, hmem, ha⟩ := exists_right_of_forall₂ (labels_of_analyseConfiguration hok).2 hlabel
    refine List.find?_isSome.mpr ⟨a, hmem, ?_⟩
    rw [(runs_of_analyseLabel ha).1, beq_self_eq_true]
  obtain ⟨a, ha⟩ := Option.isSome_iff_exists.mp hanalysis
  exact ⟨a, Option.bind_eq_some_iff.mpr ⟨configuration, hconfiguration, ha⟩⟩

theorem overheadEntry_eq_error {base treated : RunAnalysis} {error : Error}
    (h : overheadEntry base treated = .error error) : error = .zeroBaseline := by
  have hratio : ∀ {b t : Float}, ratioOfMeans b t = .error error → error = .zeroBaseline := by
    intro b t h
    unfold ratioOfMeans at h
    split_ifs at h
    cases h
    rfl
  obtain h | ⟨raw, -, h⟩ := bind_eq_error_iff.mp h
  · exact hratio h
  · obtain h | ⟨filtered, -, h⟩ := bind_eq_error_iff.mp h
    · exact hratio h
    · cases h

theorem LabelAnalysis.repetitions_ne_of_run? {a b : LabelAnalysis} {run : RunAnalysis}
    (hrun : run ∈ a.runs) (hnone : b.run? run.repetitions = none) :
    a.runs.map (·.repetitions) ≠ b.runs.map (·.repetitions) := by
  intro heq
  have hmem : run.repetitions ∈ b.runs.map (·.repetitions) := heq ▸ List.mem_map_of_mem hrun
  have hsome := isSome_run?_iff.mpr hmem
  rw [hnone] at hsome
  cases hsome

theorem compareConditions_eq_error {r : Report} {baseline treatment : Condition}
    {base treated : LabelAnalysis} (hbase : r.condition? baseline = some base)
    (htreated : r.condition? treatment = some treated)
    (hascending : (base.runs.map (·.repetitions)).Pairwise (· < ·))
    (hascending' : (treated.runs.map (·.repetitions)).Pairwise (· < ·)) {error : Error}
    (h : compareConditions r baseline treatment = .error error) :
    error = .zeroBaseline ∨
      base.runs.map (·.repetitions) ≠ treated.runs.map (·.repetitions) ∧
        ∃ present absent n, error = .unpairedRepetition present absent n := by
  simp only [compareConditions, lookUp, hbase, htreated, ok_bind] at h
  split at h
  · rename_i extra hextra
    cases h
    have hnone : base.run? extra.repetitions = none := by simpa using List.find?_some hextra
    exact .inr ⟨(LabelAnalysis.repetitions_ne_of_run? (List.mem_of_find?_eq_some hextra) hnone).symm,
      _, _, _, rfl⟩
  · rename_i hback
    obtain h | ⟨overheads, hoverheads, h⟩ := bind_eq_error_iff.mp h
    · obtain ⟨run, hrun, h⟩ := exists_error_of_mapM h
      split at h
      · exact .inl (overheadEntry_eq_error h)
      · rename_i hnone
        cases h
        exact .inr ⟨LabelAnalysis.repetitions_ne_of_run? hrun hnone, _, _, _, rfl⟩
    · -- All runs have partners, so that both sides have as many means.
      have hsome : ∀ run ∈ treated.runs, (base.run? run.repetitions).isSome := by
        intro run hrun
        simpa [Option.isSome_iff_ne_none] using List.find?_eq_none.mp hback run hrun
      have hsome' : ∀ run ∈ base.runs, (treated.run? run.repetitions).isSome := by
        intro run hrun
        obtain ⟨entry, -, hentry⟩ := exists_right_of_forall₂ (mapM_eq_ok_iff.mp hoverheads) hrun
        split at hentry
        · rename_i hpartner
          rw [hpartner, Option.isSome_some]
        · cases hentry
      have hcounts :=
        LabelAnalysis.repetitions_eq_of_partners hascending hascending' hsome hsome'
      have hlength : base.means.length = treated.means.length := by
        simpa [LabelAnalysis.means] using congrArg List.length hcounts
      obtain ⟨trend, htrend⟩ := Trend.exists_ofMeans hlength
      rw [htrend] at h
      cases h

namespace Experiment

variable {e : Experiment} {disk : Disk} {dataset : Dataset}

theorem Assembles.series_ne_nil (h : e.Assembles disk dataset) {key : Key} {record : RunRecord}
    (hrecord : dataset.get? key = some record) {label : String} {run : UInt64 × Series}
    (hrun : run ∈ record.labelSeries label) : run.2 ≠ [] := by
  obtain ⟨-, hread⟩ := h.readLeaf_of_get? hrecord
  obtain ⟨⟨n, conditions⟩, hmem, hlabelled⟩ := List.mem_filterMap.mp hrun
  obtain ⟨series, hseries, rfl⟩ := Option.map_eq_some_iff.mp hlabelled
  have hcondition := List.mem_reverse.mp (mem_of_lookup_eq_some hseries)
  exact series_ne_nil_of_readLeaf hread _ hmem _ hcondition

theorem Assembles.analyseConfiguration_eq_error (h : e.Assembles disk dataset) {key : Key}
    {record : RunRecord} (hrecord : dataset.get? key = some record) {labels : List String}
    {error : Error} (herror : analyseConfiguration labels key record = .error error) :
    ∃ context, error = .emptyFilteredSeries context := by
  obtain herror | ⟨_, -, herror⟩ := bind_eq_error_iff.mp herror
  · obtain ⟨label, -, herror⟩ := exists_error_of_mapM herror
    obtain herror | ⟨_, -, herror⟩ := bind_eq_error_iff.mp herror
    · obtain ⟨run, hrun, herror⟩ := exists_error_of_mapM herror
      obtain herror | ⟨_, -, herror⟩ := bind_eq_error_iff.mp herror
      · exact ⟨_, SeriesAnalysis.ofSeries_eq_error (h.series_ne_nil hrecord hrun) herror⟩
      · cases herror
    · cases herror
  · cases herror

theorem Assembles.repetitions_eq (h : e.Assembles disk dataset) {c : Condition} {record : RunRecord}
    (hrecord : dataset.get? c.key = some record) (hlabel : c.label ∈ e.columns) {a : LabelAnalysis}
    (ha : analyseLabel c.key record c.label = .ok a) :
    a.runs.map (·.repetitions) = record.runs.map (·.1) := by
  have hcomplete := complete_of_readLeaf (h.readLeaf_of_get? hrecord).2
  rw [← hcomplete.counts_labelSeries hlabel]
  exact map_eq_map_iff_forall₂.mpr
    ((runs_of_analyseLabel ha).2.flip.imp fun _ _ hrun => hrun.1)

theorem Assembles.repetitions_eq_of_columns (hvalid : e.Valid) (h : e.Assembles disk dataset)
    {baseline treatment : String} (hcomparison : e.comparison = some (.columns baseline treatment))
    {pair : Condition × Condition} (hpair : pair ∈ e.pairs) {r : Report}
    {comparison : Option Comparison} {pairs : List (Condition × Condition)}
    (hcovers : r.Covers comparison dataset pairs) {base treated : LabelAnalysis}
    (hbase : r.condition? pair.1 = some base) (htreated : r.condition? pair.2 = some treated) :
    base.runs.map (·.repetitions) = treated.runs.map (·.repetitions) := by
  obtain ⟨⟨-, hlabel⟩, -, hlabel'⟩ := hvalid.mem_of_pairs hpair
  have hkey : pair.2.key = pair.1.key := by
    simp only [Experiment.pairs, hcomparison, List.mem_map] at hpair
    obtain ⟨key, -, rfl⟩ := hpair
    rfl
  obtain ⟨record, hrecord, hok⟩ := hcovers.record_of_condition? hbase
  obtain ⟨record', hrecord', hok'⟩ := hcovers.record_of_condition? htreated
  obtain rfl : record' = record := by
    rw [hkey, hrecord] at hrecord'
    exact (Option.some.inj hrecord').symm
  rw [h.repetitions_eq hrecord hlabel hok, h.repetitions_eq hrecord' hlabel' hok']

theorem Assembles.analyse_eq_error (hvalid : e.Valid) (h : e.Assembles disk dataset) {error : Error}
    (herror : analyse e.comparison dataset = .error error) :
    (∃ context, error = .emptyFilteredSeries context) ∨ error = .zeroBaseline ∨
      (∃ name baseline treatment, e.comparison = some (.axis name baseline treatment)) ∧
        ∃ present absent n, error = .unpairedRepetition present absent n := by
  obtain herror | ⟨configurations, hconfigurations, herror⟩ := bind_eq_error_iff.mp herror
  · obtain ⟨⟨key, record⟩, hentry, herror⟩ := exists_error_of_mapM herror
    exact .inl (h.analyseConfiguration_eq_error (mem_entries_iff.mp hentry) herror)
  have hcovers := covers_of_configurations hconfigurations
  simp only [comparisonPairs_eq_ok hvalid h, ok_bind] at herror
  obtain herror | ⟨_, -, herror⟩ := bind_eq_error_iff.mp herror
  · obtain ⟨pair, hpair, herror⟩ := exists_error_of_mapM herror
    obtain ⟨⟨hkey, hlabel⟩, hkey', hlabel'⟩ := hvalid.mem_of_pairs hpair
    rw [← h.keys_entries] at hkey hkey'
    rw [← h.labels] at hlabel hlabel'
    obtain ⟨base, hbase⟩ := hcovers.exists_condition? hkey hlabel
    obtain ⟨treated, htreated⟩ := hcovers.exists_condition? hkey' hlabel'
    have hascending := (hcovers.lists_of_condition? h.filled hbase).ascending
    have hascending' := (hcovers.lists_of_condition? h.filled htreated).ascending
    rcases compareConditions_eq_error hbase htreated hascending hascending' herror with
      hzero | ⟨hdiffer, hunpaired⟩
    · exact .inr (.inl hzero)
    · refine .inr (.inr ⟨?_, hunpaired⟩)
      cases hcomparison : e.comparison with
      | none => simp [pairs, hcomparison] at hpair
      | some comparison =>
        cases comparison with
        | axis name baseline treatment => exact ⟨name, baseline, treatment, rfl⟩
        | columns baseline treatment =>
          exact absurd (h.repetitions_eq_of_columns hvalid hcomparison hpair hcovers hbase htreated)
            hdiffer
  · cases herror

/-- A valid layout fits the data set that is read for it: the configurations are
the combinations of values in their order, the pairs are those the layout calls
for, and the analysis fails on nothing but the measurements. -/
theorem layout_safe (e : Experiment) (disk : Disk) (dataset : Dataset)
    (hvalid : e.validate = .ok ()) (hassemble : e.assemble disk = .ok dataset) :
    ((∃ report, analyse e.comparison dataset = .ok report) ∨
      (∃ context, analyse e.comparison dataset = .error (.emptyFilteredSeries context)) ∨
      analyse e.comparison dataset = .error .zeroBaseline ∨
      (∃ name baseline treatment, e.comparison = some (.axis name baseline treatment)) ∧
        ∃ present absent n,
          analyse e.comparison dataset = .error (.unpairedRepetition present absent n)) ∧
    dataset.entries.map (·.1) = e.keys ∧
    comparisonPairs e.comparison dataset = .ok e.pairs ∧
    ∀ name baseline treatment, e.comparison = some (.axis name baseline treatment) →
      e.axisNames[e.axisNames.idxOf name]? = some name ∧
      ∀ pair ∈ e.pairs, pair.1.key ∈ e.keys ∧ pair.2.key ∈ e.keys ∧
        pair.1.label = pair.2.label ∧
        pair.1.key.get? (e.axisNames.idxOf name) = some baseline ∧
        pair.2.key.get? (e.axisNames.idxOf name) = some treatment ∧
        ∀ other ≠ e.axisNames.idxOf name, pair.2.key.get? other = pair.1.key.get? other := by
  have hlayout := valid_of_validate hvalid
  have hassembles := assemble_eq_ok_iff.mp hassemble
  refine ⟨?_, hassembles.keys_entries, comparisonPairs_eq_ok hlayout hassembles, ?_⟩
  · cases hanalyse : analyse e.comparison dataset with
    | ok report => exact .inl ⟨report, rfl⟩
    | error error =>
      refine .inr ?_
      rcases hassembles.analyse_eq_error hlayout hanalyse with
        ⟨context, rfl⟩ | rfl | ⟨haxis, present, absent, n, rfl⟩
      · exact .inl ⟨context, rfl⟩
      · exact .inr (.inl rfl)
      · exact .inr (.inr ⟨haxis, present, absent, n, rfl⟩)
  · intro name baseline treatment hcomparison
    obtain ⟨hname, -⟩ := hlayout.axis_of_comparison hcomparison
    refine ⟨getElem?_idxOf_axisNames hname, fun pair hpair => ?_⟩
    obtain ⟨⟨hkey, -⟩, hkey', -⟩ := hlayout.mem_of_pairs hpair
    exact ⟨hkey, hkey', values_of_axis_pair hcomparison hpair⟩

def locking : Experiment where
  name := "locking"
  root := ⟨"data"⟩
  columns := ["read", "write"]
  axes := [⟨"core", ["0", "1"]⟩, ⟨"lock", ["off", "on"]⟩]
  comparison := some (.axis "lock" "off" "on")
  cache := none

/-- On the second core the two settings were run with different counts. -/
def lockingDisk : Disk where
  entries :=
    [(["data"], .directory {}), (["data", "0"], .directory {}), (["data", "1"], .directory {}),
      (["data", "0", "off"], .directory {}), (["data", "0", "on"], .directory {}),
      (["data", "1", "off"], .directory {}), (["data", "1", "on"], .directory {}),
      (["data", "0", "off", "10.csv"], .file (Text.encode "4,6\n4,8\n") ⟨1, 0⟩),
      (["data", "0", "on", "10.csv"], .file (Text.encode "9,9\n9,12") ⟨1, 0⟩),
      (["data", "1", "off", "10.csv"], .file (Text.encode "5,5\n") ⟨1, 0⟩),
      (["data", "1", "on", "20.csv"], .file (Text.encode "7,7\n") ⟨1, 0⟩)]

theorem layout_safe_locking :
    ∃ dataset, locking.validate = .ok () ∧ locking.assemble lockingDisk = .ok dataset ∧
      dataset.entries.map (·.1) = [⟨["0", "off"]⟩, ⟨["0", "on"]⟩, ⟨["1", "off"]⟩, ⟨["1", "on"]⟩] ∧
      comparisonPairs locking.comparison dataset = .ok
        [(⟨⟨["0", "off"]⟩, "read"⟩, ⟨⟨["0", "on"]⟩, "read"⟩),
          (⟨⟨["0", "off"]⟩, "write"⟩, ⟨⟨["0", "on"]⟩, "write"⟩),
          (⟨⟨["1", "off"]⟩, "read"⟩, ⟨⟨["1", "on"]⟩, "read"⟩),
          (⟨⟨["1", "off"]⟩, "write"⟩, ⟨⟨["1", "on"]⟩, "write"⟩)] := by
  have hsome : (locking.assemble lockingDisk).toOption.isSome := by decide +kernel
  obtain ⟨dataset, hdataset⟩ := Option.isSome_iff_exists.mp hsome
  have hassemble := toOption_eq_some_iff.mp hdataset
  obtain ⟨-, hkeys, hpairs, -⟩ := layout_safe locking lockingDisk dataset rfl hassemble
  exact ⟨dataset, rfl, hassemble, hkeys, hpairs⟩

end Experiment
end CycleCount
