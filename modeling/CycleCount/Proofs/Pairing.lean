import CycleCount.Proofs.Analysis
import CycleCount.Proofs.RunRecord
import CycleCount.Proofs.Trend

/-! Compared conditions are aligned. Two conditions that could be compared were
run with the same repetition counts; each overhead relates the two series of one
count, and the trend is made of their means, pair by pair. Conditions with
different counts are never compared at all. -/

namespace CycleCount

namespace Dataset

def Filled (dataset : Dataset) : Prop :=
  ∀ entry ∈ dataset.records, ∃ inserts, entry.2 = RunRecord.ofInserts inserts

def series? (dataset : Dataset) (c : Condition) (repetitions : UInt64) : Option Series := do
  (← dataset.get? c.key).series? repetitions c.label

theorem Filled.ascending {dataset : Dataset} (h : dataset.Filled) {key : Key} {record : RunRecord}
    (hr : dataset.get? key = some record) : record.Ascending := by
  obtain ⟨inserts, rfl⟩ := h _ (List.mem_reverse.mp (mem_of_lookup_eq_some hr))
  exact RunRecord.ascending_ofInserts inserts

end Dataset

namespace LabelAnalysis

structure Lists (a : LabelAnalysis) (dataset : Dataset) (c : Condition) : Prop where
  ascending : (a.runs.map (·.repetitions)).Pairwise (· < ·)
  counts : ∀ n, n ∈ a.runs.map (·.repetitions) ↔ (dataset.series? c n).isSome
  series : ∀ run ∈ a.runs, ∃ series,
    dataset.series? c run.repetitions = some series ∧ run.series.Describes series

theorem of_run? {a : LabelAnalysis} {n : UInt64} {run : RunAnalysis} (h : a.run? n = some run) :
    run ∈ a.runs ∧ run.repetitions = n :=
  ⟨List.mem_of_find?_eq_some h, by simpa using List.find?_some h⟩

theorem isSome_run?_iff {a : LabelAnalysis} {n : UInt64} :
    (a.run? n).isSome ↔ n ∈ a.runs.map (·.repetitions) := by
  simp [run?, List.find?_isSome]

end LabelAnalysis

theorem Report.Covers.lists_of_condition? {r : Report} {comparison : Option Comparison}
    {dataset : Dataset} {pairs : List (Condition × Condition)}
    (h : r.Covers comparison dataset pairs) (hfilled : dataset.Filled) {c : Condition}
    {a : LabelAnalysis} (hc : r.condition? c = some a) : a.Lists dataset c := by
  obtain ⟨record, hget, hok⟩ := h.record_of_condition? hc
  obtain ⟨-, hruns⟩ := runs_of_analyseLabel hok
  have hasc := hfilled.ascending hget
  have hseries : ∀ n, dataset.series? c n = record.series? n c.label := by
    intro n
    simp [Dataset.series?, hget]
  have hcounts : (record.labelSeries c.label).map (·.1) = a.runs.map (·.repetitions) :=
    map_eq_map_iff_forall₂.mpr (hruns.imp fun _ _ hrun => hrun.1.symm)
  refine ⟨?_, fun n => ?_, fun run hrun => ?_⟩
  · rw [← hcounts]
    exact RunRecord.pairwise_labelSeries hasc c.label
  · rw [← hcounts, hseries, Option.isSome_iff_exists]
    simp [← RunRecord.mem_labelSeries_iff hasc]
  · obtain ⟨⟨n, series⟩, hmem, hn, hdesc⟩ := exists_left_of_forall₂ hruns hrun
    refine ⟨series, ?_, hdesc⟩
    rw [hseries, hn]
    exact (RunRecord.mem_labelSeries_iff hasc).mp hmem

theorem repetitions_of_overheadEntry {base treated : RunAnalysis} {entry : OverheadEntry}
    (h : overheadEntry base treated = .ok entry) : entry.repetitions = base.repetitions := by
  obtain ⟨raw, -, h⟩ := bind_eq_ok_iff.mp h
  obtain ⟨filtered, -, h⟩ := bind_eq_ok_iff.mp h
  cases h
  rfl

theorem ratios_of_overheadEntry {base treated : RunAnalysis} {entry : OverheadEntry}
    {series other : Series} (h : overheadEntry base treated = .ok entry)
    (hbase : base.series.Describes series) (htreated : treated.series.Describes other) :
    overheadRatio series other = .ok entry.raw ∧
      overheadRatio (retained Float series) (retained Float other) = .ok entry.filtered := by
  obtain ⟨raw, hraw, h⟩ := bind_eq_ok_iff.mp h
  obtain ⟨filtered, hfiltered, h⟩ := bind_eq_ok_iff.mp h
  cases h
  constructor
  · rw [overheadRatio, hbase.rawMean, htreated.rawMean]
    exact hraw
  · rw [overheadRatio, hbase.filteredMean, htreated.filteredMean]
    exact hfiltered

theorem eq_of_pairwise_lt {xs ys : List UInt64} (hx : xs.Pairwise (· < ·))
    (hy : ys.Pairwise (· < ·)) (h : ∀ n, n ∈ xs ↔ n ∈ ys) : xs = ys := by
  have hne : ∀ {a b : UInt64}, a < b → a ≠ b := by
    rintro a b hab rfl
    exact UInt64.lt_irrefl a hab
  refine List.Perm.eq_of_pairwise (fun a b _ _ hab hba => ?_) hx hy
    ((List.perm_ext_iff_of_nodup (hx.imp hne) (hy.imp hne)).mpr h)
  exact absurd (UInt64.lt_trans hab hba) (UInt64.lt_irrefl a)

theorem LabelAnalysis.repetitions_eq_of_partners {base treated : LabelAnalysis}
    (hbase : (base.runs.map (·.repetitions)).Pairwise (· < ·))
    (htreated : (treated.runs.map (·.repetitions)).Pairwise (· < ·))
    (hback : ∀ run ∈ treated.runs, (base.run? run.repetitions).isSome)
    (hforth : ∀ run ∈ base.runs, (treated.run? run.repetitions).isSome) :
    base.runs.map (·.repetitions) = treated.runs.map (·.repetitions) := by
  refine eq_of_pairwise_lt hbase htreated fun n => ⟨fun hn => ?_, fun hn => ?_⟩
  · obtain ⟨run, hrun, rfl⟩ := List.mem_map.mp hn
    exact isSome_run?_iff.mp (hforth run hrun)
  · obtain ⟨run, hrun, rfl⟩ := List.mem_map.mp hn
    exact isSome_run?_iff.mp (hback run hrun)

structure Aligned (dataset : Dataset) (pair : Condition × Condition) (c : ComparisonAnalysis) :
    Prop where
  baseline : c.baseline = pair.1
  treatment : c.treatment = pair.2
  ascending : (c.overheads.map (·.repetitions)).Pairwise (· < ·)
  baselineCounts : ∀ n,
    n ∈ c.overheads.map (·.repetitions) ↔ (dataset.series? pair.1 n).isSome
  treatmentCounts : ∀ n,
    n ∈ c.overheads.map (·.repetitions) ↔ (dataset.series? pair.2 n).isSome
  ratios : ∀ entry ∈ c.overheads, ∃ base treated,
    dataset.series? pair.1 entry.repetitions = some base ∧
    dataset.series? pair.2 entry.repetitions = some treated ∧
    overheadRatio base treated = .ok entry.raw ∧
    overheadRatio (retained Float base) (retained Float treated) = .ok entry.filtered
  trend : ∃ means : List (Float × Float),
    List.Forall₂ (fun entry mean =>
      (dataset.series? pair.1 entry.repetitions).bind mean? = some mean.1 ∧
      (dataset.series? pair.2 entry.repetitions).bind mean? = some mean.2) c.overheads means ∧
    c.trend.pairs.Perm means

theorem LabelAnalysis.Lists.mean {a : LabelAnalysis} {dataset : Dataset} {c : Condition}
    (h : a.Lists dataset c) {run : RunAnalysis} (hrun : run ∈ a.runs) :
    (dataset.series? c run.repetitions).bind mean? = some run.series.rawSummary.mean := by
  obtain ⟨series, hseries, hdesc⟩ := h.series run hrun
  rw [hseries, Option.bind_some, hdesc.rawMean]

/-- Means that are zipped by position belong to one count where the counts of the
runs agree position by position. -/
theorem forall₂_zip_means (left right : UInt64 → Option Float) {entries : List OverheadEntry}
    {base treated : List RunAnalysis}
    (hentries : base.map (·.repetitions) = entries.map (·.repetitions))
    (hcounts : base.map (·.repetitions) = treated.map (·.repetitions))
    (hleft : ∀ run ∈ base, left run.repetitions = some run.series.rawSummary.mean)
    (hright : ∀ run ∈ treated, right run.repetitions = some run.series.rawSummary.mean) :
    List.Forall₂ (fun entry mean =>
      left entry.repetitions = some mean.1 ∧ right entry.repetitions = some mean.2) entries
      ((base.map (·.series.rawSummary.mean)).zip (treated.map (·.series.rawSummary.mean))) := by
  induction base generalizing entries treated with
  | nil =>
    obtain rfl : entries = [] := List.map_eq_nil_iff.mp hentries.symm
    exact .nil
  | cons run base ih =>
    obtain ⟨entry, entries, rfl, hentry, hentries⟩ := List.map_eq_cons_iff.mp hentries.symm
    obtain ⟨partner, treated, rfl, hpartner, hcounts⟩ := List.map_eq_cons_iff.mp hcounts.symm
    refine .cons ⟨?_, ?_⟩ (ih hentries.symm hcounts.symm
      (fun run hrun => hleft run (List.mem_cons_of_mem _ hrun))
      (fun run hrun => hright run (List.mem_cons_of_mem _ hrun)))
    · rw [hentry]
      exact hleft run (List.mem_cons_self ..)
    · rw [hentry, ← hpartner]
      exact hright partner (List.mem_cons_self ..)

theorem Report.Covers.aligned {r : Report} {comparison : Option Comparison} {dataset : Dataset}
    {pairs : List (Condition × Condition)} (h : r.Covers comparison dataset pairs)
    (hfilled : dataset.Filled) {pair : Condition × Condition} {c : ComparisonAnalysis}
    (hc : compareConditions r pair.1 pair.2 = .ok c) : Aligned dataset pair c := by
  obtain ⟨hbaseline, htreatment, base, treated, hbase, htreated, hback, hforth, htrend⟩ :=
    steps_of_compareConditions hc
  have hb := h.lists_of_condition? hfilled hbase
  have ht := h.lists_of_condition? hfilled htreated
  have hentries : base.runs.map (·.repetitions) = c.overheads.map (·.repetitions) :=
    map_eq_map_iff_forall₂.mpr (hforth.imp fun _ _ ⟨_, _, hentry⟩ =>
      (repetitions_of_overheadEntry hentry).symm)
  have hcounts : base.runs.map (·.repetitions) = treated.runs.map (·.repetitions) := by
    refine LabelAnalysis.repetitions_eq_of_partners hb.ascending ht.ascending hback fun run hrun => ?_
    obtain ⟨entry, -, partner, hpartner, -⟩ := exists_right_of_forall₂ hforth hrun
    rw [hpartner, Option.isSome_some]
  have hmeans := forall₂_zip_means (fun n => (dataset.series? pair.1 n).bind mean?)
    (fun n => (dataset.series? pair.2 n).bind mean?) hentries hcounts (fun _ => hb.mean)
    (fun _ => ht.mean)
  refine ⟨hbaseline, htreatment, ?_, ?_, ?_, fun entry hentry => ?_,
    base.means.zip treated.means, hmeans, (Trend.pairs_perm_of_ofMeans htrend).1⟩
  · rw [← hentries]
    exact hb.ascending
  · rw [← hentries]
    exact hb.counts
  · rw [← hentries, hcounts]
    exact ht.counts
  · obtain ⟨run, hrun, partner, hpartner, hok⟩ := exists_left_of_forall₂ hforth hentry
    obtain ⟨hmem, hreps⟩ := LabelAnalysis.of_run? hpartner
    obtain ⟨series, hseries, hdesc⟩ := hb.series run hrun
    obtain ⟨other, hother, hdesc'⟩ := ht.series partner hmem
    rw [repetitions_of_overheadEntry hok]
    rw [hreps] at hother
    exact ⟨series, other, hseries, hother, ratios_of_overheadEntry hok hdesc hdesc'⟩

/-- Every comparison of an analysis is aligned, one for each pair and in their
order; and no analysis succeeds if the counts of some pair differ. -/
theorem comparisons_aligned (comparison : Option Comparison) (dataset : Dataset)
    (hfilled : dataset.Filled) :
    (∀ r, analyse comparison dataset = .ok r →
      ∃ pairs, comparisonPairs comparison dataset = .ok pairs ∧
        List.Forall₂ (Aligned dataset) pairs r.comparisons) ∧
    (∀ pairs, comparisonPairs comparison dataset = .ok pairs →
      (∃ pair ∈ pairs, ∃ n,
        (dataset.series? pair.1 n).isSome ≠ (dataset.series? pair.2 n).isSome) →
      ∃ e, analyse comparison dataset = .error e) := by
  have key : ∀ r, analyse comparison dataset = .ok r →
      ∃ pairs, comparisonPairs comparison dataset = .ok pairs ∧
        List.Forall₂ (Aligned dataset) pairs r.comparisons := by
    intro r hr
    obtain ⟨pairs, hcovers⟩ := covers_of_analyse hr
    exact ⟨pairs, hcovers.paired, hcovers.comparisons.imp fun _ _ hc => hcovers.aligned hfilled hc⟩
  refine ⟨key, fun pairs hpairs hdiffer => ?_⟩
  cases hr : analyse comparison dataset with
  | error e => exact ⟨e, rfl⟩
  | ok r =>
    obtain ⟨pairs', hpairs', haligned⟩ := key r hr
    rw [hpairs] at hpairs'
    cases hpairs'
    obtain ⟨pair, hmem, n, hne⟩ := hdiffer
    obtain ⟨c, -, hc⟩ := exists_right_of_forall₂ haligned hmem
    exact absurd (Bool.eq_iff_iff.mpr ((hc.baselineCounts n).symm.trans (hc.treatmentCounts n))) hne

/-- Two runs put in by descending count, and a third that is refused. -/
def crossedRuns : Dataset where
  name := "crossed"
  axes := ["access"]
  labels := ["unsafe", "safe"]
  records := [(⟨["read"]⟩, RunRecord.ofInserts
    [(200, [("unsafe", [20]), ("safe", [30])]), (100, [("unsafe", [10]), ("safe", [14])]),
      (200, [("unsafe", [99])])])]

theorem comparisons_aligned_crossedRuns :
    crossedRuns.Filled ∧
      ∃ r, analyse (some (.columns "unsafe" "safe")) crossedRuns = .ok r ∧
        List.Forall₂ (Aligned crossedRuns)
          [(⟨⟨["read"]⟩, "unsafe"⟩, ⟨⟨["read"]⟩, "safe"⟩)] r.comparisons := by
  have hfilled : crossedRuns.Filled := by
    intro entry hentry
    obtain rfl := List.mem_singleton.mp hentry
    exact ⟨_, rfl⟩
  have hok : (analyse (some (.columns "unsafe" "safe")) crossedRuns).toOption.isSome := by
    decide +kernel
  refine ⟨hfilled, ?_⟩
  cases hr : analyse (some (.columns "unsafe" "safe")) crossedRuns with
  | error e =>
    rw [hr] at hok
    cases hok
  | ok r =>
    obtain ⟨pairs, hpairs, haligned⟩ := (comparisons_aligned _ _ hfilled).1 r hr
    cases hpairs
    exact ⟨r, rfl, haligned⟩

end CycleCount
