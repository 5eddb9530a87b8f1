import CycleCount.Analysis.Compare
import CycleCount.Proofs.Lookup
import CycleCount.Proofs.Outcome

/-! What a successful analysis says about its data set: which measurements each
part of the report was computed from. -/

namespace CycleCount

structure SeriesAnalysis.Describes (a : SeriesAnalysis) (series : Series) : Prop where
  raw : a.raw = series
  filtered : a.filtered = retained Float series
  rawMean : mean? series = some a.rawSummary.mean
  filteredMean : mean? (retained Float series) = some a.filteredSummary.mean
  rawPoints : a.rawSummary.ecdf.points ≠ []
  filteredPoints : a.filteredSummary.ecdf.points ≠ []

theorem runEndsFrom_ne_nil {α : Type} [BEq α] (x : α) (seen : Nat) (ys : List α) :
    runEndsFrom x seen ys ≠ [] := by
  induction ys generalizing x seen with
  | nil => simp [runEndsFrom]
  | cons y ys ih =>
    rw [runEndsFrom]
    split_ifs
    · exact ih x (seen + 1)
    · simp

theorem points_ne_nil_of_ofSamples? {series : Series} {ecdf : Ecdf}
    (h : Ecdf.ofSamples? series = some ecdf) : ecdf.points ≠ [] := by
  simp only [Ecdf.ofSamples?] at h
  split_ifs at h with hne
  cases h
  simp only [ne_eq, List.map_eq_nil_iff]
  cases hs : ascending series with
  | nil =>
    have hlen := (List.mergeSort_perm series fun a b => decide (a ≤ b)).length_eq
    change (ascending series).length = _ at hlen
    rw [hs, List.length_nil] at hlen
    simp [List.length_eq_zero_iff.mp hlen.symm] at hne
  | cons x xs => exact runEndsFrom_ne_nil x 1 xs

theorem Summary.of_ofSamples {series : Series} {s : Summary} (h : Summary.ofSamples series = .ok s) :
    mean? series = some s.mean ∧ s.ecdf.points ≠ [] := by
  unfold Summary.ofSamples at h
  split at h
  · rename_i mean deviation ecdf hmean _ hecdf
    cases h
    exact ⟨hmean, points_ne_nil_of_ofSamples? hecdf⟩
  · cases h

theorem SeriesAnalysis.describes_of_ofSeries {series : Series} {context : String}
    {a : SeriesAnalysis} (h : ofSeries series context = .ok a) : a.Describes series := by
  simp only [ofSeries, ofFiltered] at h
  split_ifs at h
  obtain ⟨rawSummary, hraw, h⟩ := bind_eq_ok_iff.mp h
  obtain ⟨filteredSummary, hfiltered, h⟩ := bind_eq_ok_iff.mp h
  split at h
  · cases h
    have hr := Summary.of_ofSamples hraw
    have hf := Summary.of_ofSamples hfiltered
    exact ⟨rfl, rfl, hr.1, hf.1, hr.2, hf.2⟩
  · cases h

theorem runs_of_analyseLabel {key : Key} {record : RunRecord} {label : String} {a : LabelAnalysis}
    (h : analyseLabel key record label = .ok a) :
    a.label = label ∧
      List.Forall₂ (fun entry run => run.repetitions = entry.1 ∧ run.series.Describes entry.2)
        (record.labelSeries label) a.runs := by
  obtain ⟨runs, hruns, h⟩ := bind_eq_ok_iff.mp h
  cases h
  refine ⟨rfl, (mapM_eq_ok_iff.mp hruns).imp fun entry run hrun => ?_⟩
  obtain ⟨series, hseries, h⟩ := bind_eq_ok_iff.mp hrun
  cases h
  exact ⟨rfl, SeriesAnalysis.describes_of_ofSeries hseries⟩

theorem labels_of_analyseConfiguration {labels : List String} {key : Key} {record : RunRecord}
    {c : ConfigurationAnalysis} (h : analyseConfiguration labels key record = .ok c) :
    c.key = key ∧
      List.Forall₂ (fun label a => analyseLabel key record label = .ok a) labels c.labels := by
  obtain ⟨analyses, hanalyses, h⟩ := bind_eq_ok_iff.mp h
  cases h
  exact ⟨rfl, mapM_eq_ok_iff.mp hanalyses⟩

structure Report.Covers (r : Report) (comparison : Option Comparison) (dataset : Dataset)
    (pairs : List (Condition × Condition)) : Prop where
  name : r.name = dataset.name
  axes : r.axes = dataset.axes
  labels : r.labels = dataset.labels
  setting : r.comparison = comparison
  configurations : List.Forall₂
    (fun entry c => analyseConfiguration dataset.labels entry.1 entry.2 = .ok c)
    dataset.entries r.configurations
  paired : comparisonPairs comparison dataset = .ok pairs
  comparisons : List.Forall₂ (fun pair c => compareConditions r pair.1 pair.2 = .ok c)
    pairs r.comparisons

theorem covers_of_analyse {comparison : Option Comparison} {dataset : Dataset} {r : Report}
    (h : analyse comparison dataset = .ok r) : ∃ pairs, r.Covers comparison dataset pairs := by
  obtain ⟨configurations, hconfigurations, h⟩ := bind_eq_ok_iff.mp h
  obtain ⟨pairs, hpairs, h⟩ := bind_eq_ok_iff.mp h
  obtain ⟨comparisons, hcomparisons, h⟩ := bind_eq_ok_iff.mp h
  cases h
  exact ⟨pairs, rfl, rfl, rfl, rfl, mapM_eq_ok_iff.mp hconfigurations, hpairs,
    mapM_eq_ok_iff.mp hcomparisons⟩

theorem keys_entries (dataset : Dataset) :
    dataset.entries.map (·.1) = dataset.records.map (·.1) := by
  refine keys_filterMap fun entry hentry => ?_
  have hmem : entry.1 ∈ dataset.records.reverse.map (·.1) := by
    rw [List.map_reverse, List.mem_reverse]
    exact List.mem_map_of_mem hentry
  obtain ⟨record, hrecord⟩ := Option.isSome_iff_exists.mp (isSome_lookup_iff.mpr hmem)
  simp only [Dataset.get?, hrecord, Option.map_some]

theorem mem_entries_iff {dataset : Dataset} {key : Key} {record : RunRecord} :
    (key, record) ∈ dataset.entries ↔ dataset.get? key = some record := by
  simp only [Dataset.entries, List.mem_filterMap, Option.map_eq_some_iff, Prod.mk.injEq]
  constructor
  · rintro ⟨⟨k, _⟩, -, r, hr, rfl, rfl⟩
    exact hr
  · intro h
    have hmem := List.mem_reverse.mp (mem_of_lookup_eq_some h)
    exact ⟨(key, record), hmem, record, h, rfl, rfl⟩

theorem Report.Covers.record_of_condition? {r : Report} {comparison : Option Comparison}
    {dataset : Dataset} {pairs : List (Condition × Condition)}
    (h : r.Covers comparison dataset pairs) {c : Condition} {a : LabelAnalysis}
    (hc : r.condition? c = some a) :
    ∃ record, dataset.get? c.key = some record ∧ analyseLabel c.key record c.label = .ok a := by
  obtain ⟨configuration, hconf, hlabel⟩ := Option.bind_eq_some_iff.mp hc
  have hkey := List.find?_some hconf
  obtain ⟨⟨key, record⟩, hentry, hok⟩ :=
    exists_left_of_forall₂ h.configurations (List.mem_of_find?_eq_some hconf)
  obtain ⟨hk, hlabels⟩ := labels_of_analyseConfiguration hok
  obtain ⟨label, -, hok⟩ := exists_left_of_forall₂ hlabels (List.mem_of_find?_eq_some hlabel)
  have hl := List.find?_some hlabel
  rw [(runs_of_analyseLabel hok).1] at hl
  rw [hk] at hkey
  simp only [beq_iff_eq] at hkey hl
  subst hkey hl
  exact ⟨record, mem_entries_iff.mp hentry, hok⟩

theorem exists_of_lookUp {r : Report} {c : Condition} {a : LabelAnalysis}
    (h : lookUp r.condition? c = .ok a) : r.condition? c = some a := by
  unfold lookUp at h
  split at h
  · cases h
    assumption
  · cases h

theorem steps_of_compareConditions {r : Report} {baseline treatment : Condition}
    {c : ComparisonAnalysis} (h : compareConditions r baseline treatment = .ok c) :
    c.baseline = baseline ∧ c.treatment = treatment ∧
      ∃ base treated, r.condition? baseline = some base ∧ r.condition? treatment = some treated ∧
        (∀ run ∈ treated.runs, (base.run? run.repetitions).isSome) ∧
        List.Forall₂ (fun run entry => ∃ partner,
          treated.run? run.repetitions = some partner ∧ overheadEntry run partner = .ok entry)
          base.runs c.overheads ∧
        Trend.ofMeans base.means treated.means = .ok c.trend := by
  obtain ⟨base, hbase, h⟩ := bind_eq_ok_iff.mp h
  obtain ⟨treated, htreated, h⟩ := bind_eq_ok_iff.mp h
  split at h
  · cases h
  · rename_i hnone
    obtain ⟨overheads, hoverheads, h⟩ := bind_eq_ok_iff.mp h
    obtain ⟨trend, htrend, h⟩ := bind_eq_ok_iff.mp h
    cases h
    refine ⟨rfl, rfl, base, treated, exists_of_lookUp hbase, exists_of_lookUp htreated,
      fun run hrun => ?_, (mapM_eq_ok_iff.mp hoverheads).imp fun run entry hentry => ?_, htrend⟩
    · have hsome := List.find?_eq_none.mp hnone run hrun
      cases hrun? : base.run? run.repetitions with
      | none => simp [hrun?] at hsome
      | some partner => rfl
    · split at hentry
      · exact ⟨_, ‹_›, hentry⟩
      · cases hentry

end CycleCount
