import CycleCount.Analysis.Report
import CycleCount.Proofs.Analysis
import CycleCount.Proofs.Assembly
import CycleCount.Proofs.Layout
import CycleCount.Proofs.Regrouping
import CycleCount.Proofs.Trend
import CycleCount.Snapshot.Store

/-! Reports that were computed from a directory tree are regular, so a snapshot
gives them back unchanged. -/

namespace CycleCount

theorem keys_of_covers {r : Report} {comparison : Option Comparison} {dataset : Dataset}
    {pairs : List (Condition × Condition)} (h : r.Covers comparison dataset pairs) :
    r.configurations.map (·.key) = dataset.records.map (·.1) := by
  rw [← keys_entries]
  refine (map_eq_map_iff_forall₂.mpr (h.configurations.imp fun entry c hc => ?_)).symm
  exact (labels_of_analyseConfiguration hc).1.symm

theorem belongsTo_iff_of_analyse {comparison : Option Comparison} {dataset : Dataset} {r : Report}
    (h : analyse comparison dataset = .ok r) (e : Experiment) :
    r.belongsTo e = true ↔ dataset.name = e.name ∧ dataset.axes = e.axisNames ∧
      dataset.labels = e.columns ∧ comparison = e.comparison ∧
      dataset.entries.map (·.1) = e.keys := by
  obtain ⟨pairs, hcovers⟩ := covers_of_analyse h
  have hkeys : r.configurations.map (·.key) = dataset.entries.map (·.1) := by
    rw [keys_of_covers hcovers, keys_entries]
  simp only [Report.belongsTo, Bool.and_eq_true, beq_iff_eq, hcovers.name, hcovers.axes,
    hcovers.labels, hcovers.setting, hkeys, and_assoc]

theorem regular_of_analyseConfiguration {e : Experiment} (hvalid : e.Valid) {key : Key}
    {record : RunRecord} (hrecord : e.Complete record) {c : ConfigurationAnalysis}
    (h : analyseConfiguration e.columns key record = .ok c) : c.Regular := by
  obtain ⟨-, hlabels⟩ := labels_of_analyseConfiguration h
  have hnames : c.labels.map (·.label) = e.columns := by
    rw [← List.map_id e.columns]
    refine map_eq_map_iff_forall₂.mpr (hlabels.flip.imp fun a label ha => ?_)
    exact (runs_of_analyseLabel ha).1
  have hruns : ∀ a ∈ c.labels, ∃ label ∈ e.columns, List.Forall₂ (fun entry run =>
      run.repetitions = entry.1 ∧ run.series.Describes entry.2) (record.labelSeries label) a.runs := by
    intro a ha
    obtain ⟨label, hlabel, hok⟩ := exists_left_of_forall₂ hlabels ha
    exact ⟨label, hlabel, (runs_of_analyseLabel hok).2⟩
  refine ⟨?_, ?_, fun a ha hnil => ?_, fun a ha run hrun => ?_⟩
  · rw [hnames]
    exact hvalid.columnNames
  · rintro hnil
    rw [hnil] at hnames
    exact hvalid.columns hnames.symm
  · obtain ⟨label, hlabel, hall⟩ := hruns a ha
    rw [hnil, List.forall₂_nil_right_iff] at hall
    exact hrecord.labelSeries_ne_nil hlabel hall
  · obtain ⟨label, -, hall⟩ := hruns a ha
    obtain ⟨entry, -, -, hdescribes⟩ := exists_left_of_forall₂ hall hrun
    exact ⟨hdescribes.rawPoints, hdescribes.filteredPoints⟩

theorem regular_of_analyse {e : Experiment} (hvalid : e.Valid) {disk : Disk} {dataset : Dataset}
    (hdataset : e.Assembles disk dataset) {comparison : Option Comparison} {r : Report}
    (h : analyse comparison dataset = .ok r) : r.Regular := by
  obtain ⟨pairs, hcovers⟩ := covers_of_analyse h
  refine ⟨?_, fun c hc => ?_, fun c hc => ?_⟩
  · rw [keys_of_covers hcovers, hdataset.keys]
    exact hvalid.nodup_keys
  · obtain ⟨⟨key, record⟩, hentry, hok⟩ := exists_left_of_forall₂ hcovers.configurations hc
    rw [hdataset.labels] at hok
    have hrecord := List.mem_reverse.mp (mem_of_lookup_eq_some (mem_entries_iff.mp hentry))
    exact regular_of_analyseConfiguration hvalid (hdataset.complete hrecord) hok
  · obtain ⟨pair, -, hok⟩ := exists_left_of_forall₂ hcovers.comparisons hc
    obtain ⟨-, -, base, treated, -, -, -, -, htrend⟩ := steps_of_compareConditions hok
    exact (Trend.pairs_perm_of_ofMeans htrend).2

/-- A snapshot gives a regular report back, whatever the stamps in it and
wherever it lies; and every report that is computed for a sound layout is
regular. -/
theorem snapshot_keeps_report :
    (∀ r : Report, r.Regular → ∀ (inputs : List InputStamp) (path : Path),
      inSnapshot path (DatasetSnapshot.ofReport r inputs).toReport = .ok r) ∧
    (∀ (e : Experiment) (disk : Disk) (dataset : Dataset) (comparison : Option Comparison)
      (r : Report), e.validate = .ok () → e.assemble disk = .ok dataset →
      analyse comparison dataset = .ok r → r.Regular) := by
  constructor
  · intro r hr inputs path
    rw [DatasetSnapshot.toReport_ofReport hr, inSnapshot]
  · intro e disk dataset comparison r hvalidate hassemble hanalyse
    exact regular_of_analyse (Experiment.valid_of_validate hvalidate)
      (Experiment.assemble_eq_ok_iff.mp hassemble) hanalyse

def accessCost : Experiment where
  name := "access"
  root := ⟨"data"⟩
  columns := ["unsafe", "safe"]
  axes := [⟨"access", ["read", "write"]⟩]
  comparison := some (.columns "unsafe" "safe")
  cache := some ⟨"access.json"⟩

def accessRuns : Disk :=
  let disk : Disk := {}
  let disk := disk.install ⟨"data/read/100.csv"⟩ (Text.encode "10,14\n") ⟨5, 0⟩
  disk.install ⟨"data/write/1_000.csv"⟩ (Text.encode "20,30\n") ⟨6, 0⟩

theorem snapshot_keeps_report_accessRuns :
    ∃ dataset r, accessCost.validate = .ok () ∧ accessCost.assemble accessRuns = .ok dataset ∧
      analyse accessCost.comparison dataset = .ok r ∧ r.Regular ∧
      inSnapshot ⟨"access.json"⟩ (DatasetSnapshot.ofReport r []).toReport = .ok r := by
  have hok : (accessCost.assemble accessRuns >>= analyse accessCost.comparison).toOption.isSome := by
    decide +kernel
  cases hr : accessCost.assemble accessRuns >>= analyse accessCost.comparison with
  | error e =>
    rw [hr] at hok
    cases hok
  | ok r =>
    obtain ⟨dataset, hdataset, hr⟩ := bind_eq_ok_iff.mp hr
    have hregular := snapshot_keeps_report.2 accessCost accessRuns dataset accessCost.comparison r
      rfl hdataset hr
    exact ⟨dataset, r, rfl, hdataset, hr, hregular, snapshot_keeps_report.1 r hregular [] _⟩

end CycleCount
