import Mathlib.Data.List.Nodup
import CycleCount.Proofs.Outcome
import CycleCount.Snapshot.Basic

/-! Snapshots keep whole reports. The runs of a report are written one after the
other and put together again by key and label; where keys and labels tell the
groups apart and no group is empty, every run returns to its place. -/

namespace CycleCount

structure ConfigurationAnalysis.Regular (c : ConfigurationAnalysis) : Prop where
  labels : (c.labels.map (·.label)).Nodup
  labelled : c.labels ≠ []
  measured : ∀ a ∈ c.labels, a.runs ≠ []
  points : ∀ a ∈ c.labels, ∀ run ∈ a.runs,
    run.series.rawSummary.ecdf.points ≠ [] ∧ run.series.filteredSummary.ecdf.points ≠ []

structure Report.Regular (r : Report) : Prop where
  keys : (r.configurations.map (·.key)).Nodup
  configurations : ∀ c ∈ r.configurations, c.Regular
  trends : ∀ c ∈ r.comparisons, c.trend.baseline.length = c.trend.treatment.length

theorem SummaryRecord.toSummary_ofSummary {s : Summary} (h : s.ecdf.points ≠ []) :
    (ofSummary s).toSummary = .ok s := by
  obtain ⟨count, mean, deviation, ⟨points⟩⟩ := s
  have hpoints : points ≠ [] := h
  simp [toSummary, ofSummary, Ecdf.ofColumns, Ecdf.values, Ecdf.probabilities, hpoints,
    ← List.zip_of_prod rfl rfl]

theorem SeriesValues.toAnalysis_ofAnalysis {a : SeriesAnalysis}
    (hraw : a.rawSummary.ecdf.points ≠ []) (hfiltered : a.filteredSummary.ecdf.points ≠ []) :
    (ofAnalysis a).toAnalysis = .ok a := by
  simp [toAnalysis, ofAnalysis, SummaryRecord.toSummary_ofSummary hraw,
    SummaryRecord.toSummary_ofSummary hfiltered]

namespace ComparisonRecord

theorem overheads_columns (entries : List OverheadEntry) :
    overheads (entries.map (·.repetitions)) (entries.map (·.raw)) (entries.map (·.filtered)) =
      entries := by
  induction entries with
  | nil => rfl
  | cons entry entries ih => simp [overheads, ih]

theorem toAnalysis_ofAnalysis {c : ComparisonAnalysis}
    (h : c.trend.baseline.length = c.trend.treatment.length) : (ofAnalysis c).toAnalysis = .ok c := by
  simp [toAnalysis, ofAnalysis, overheads_columns, baseline, treatment, h]

end ComparisonRecord

namespace DatasetSnapshot

def labelled (labels : List LabelAnalysis) : List (String × RunAnalysis) :=
  labels.flatMap fun a => a.runs.map (a.label, ·)

def keyed (configurations : List ConfigurationAnalysis) : List (Key × String × RunAnalysis) :=
  configurations.flatMap fun c => (labelled c.labels).map (c.key, ·)

def putLabelled (labels : List LabelAnalysis) (entry : String × RunAnalysis) : List LabelAnalysis :=
  addToLabels entry.1 entry.2 labels

def putKeyed (configurations : List ConfigurationAnalysis) (entry : Key × String × RunAnalysis) :
    List ConfigurationAnalysis :=
  addRun entry.1 entry.2.1 entry.2.2 configurations

theorem addToLabels_append {label : String} {run : RunAnalysis} {front : List LabelAnalysis}
    (h : ∀ a ∈ front, a.label ≠ label) (rest : List LabelAnalysis) :
    addToLabels label run (front ++ rest) = front ++ addToLabels label run rest := by
  induction front with
  | nil => rfl
  | cons a front ih =>
    rw [List.cons_append, addToLabels, if_neg (h a (List.mem_cons_self ..)),
      ih fun b hb => h b (List.mem_cons_of_mem a hb), List.cons_append]

theorem addRun_append {key : Key} {label : String} {run : RunAnalysis}
    {front : List ConfigurationAnalysis} (h : ∀ c ∈ front, c.key ≠ key)
    (rest : List ConfigurationAnalysis) :
    addRun key label run (front ++ rest) = front ++ addRun key label run rest := by
  induction front with
  | nil => rfl
  | cons c front ih =>
    rw [List.cons_append, addRun, if_neg (h c (List.mem_cons_self ..)),
      ih fun b hb => h b (List.mem_cons_of_mem c hb), List.cons_append]

theorem foldl_putLabelled_last {front : List LabelAnalysis} {label : String}
    (h : ∀ a ∈ front, a.label ≠ label) (before runs : List RunAnalysis) :
    (runs.map (label, ·)).foldl putLabelled (front ++ [⟨label, before⟩]) =
      front ++ [⟨label, before ++ runs⟩] := by
  induction runs generalizing before with
  | nil => simp
  | cons run runs ih =>
    rw [List.map_cons, List.foldl_cons, putLabelled, addToLabels_append h, addToLabels, if_pos rfl,
      ih, List.append_assoc, List.singleton_append]

theorem foldl_putLabelled_new {front : List LabelAnalysis} {a : LabelAnalysis}
    (h : ∀ b ∈ front, b.label ≠ a.label) (hruns : a.runs ≠ []) :
    (a.runs.map (a.label, ·)).foldl putLabelled front = front ++ [a] := by
  obtain ⟨label, runs⟩ := a
  obtain ⟨run, runs, rfl⟩ := List.exists_cons_of_ne_nil hruns
  have hfirst : putLabelled front (label, run) = front ++ [⟨label, [run]⟩] :=
    calc putLabelled front (label, run) = addToLabels label run (front ++ []) := by
          rw [List.append_nil, putLabelled]
      _ = front ++ [⟨label, [run]⟩] := addToLabels_append h []
  rw [List.map_cons, List.foldl_cons, hfirst, foldl_putLabelled_last h, List.singleton_append]

theorem foldl_putLabelled {front labels : List LabelAnalysis}
    (hdistinct : ((front ++ labels).map (·.label)).Nodup) (hruns : ∀ a ∈ labels, a.runs ≠ []) :
    (labelled labels).foldl putLabelled front = front ++ labels := by
  induction labels generalizing front with
  | nil => simp [labelled]
  | cons a labels ih =>
    -- The labels in front are complete, and none of them takes a run of `a`.
    have hnew : ∀ b ∈ front, b.label ≠ a.label := by
      rw [List.map_append, List.nodup_append] at hdistinct
      exact fun b hb => hdistinct.2.2 _ (List.mem_map_of_mem hb) _ (by simp)
    rw [labelled, List.flatMap_cons, List.foldl_append, ← labelled,
      foldl_putLabelled_new hnew (hruns a (List.mem_cons_self ..)), ih]
    · rw [List.append_assoc, List.singleton_append]
    · rwa [List.append_assoc, List.singleton_append]
    · exact fun b hb => hruns b (List.mem_cons_of_mem a hb)

theorem foldl_putKeyed_last {front : List ConfigurationAnalysis} {key : Key}
    (h : ∀ c ∈ front, c.key ≠ key) (labels : List LabelAnalysis)
    (entries : List (String × RunAnalysis)) :
    (entries.map (key, ·)).foldl putKeyed (front ++ [⟨key, labels⟩]) =
      front ++ [⟨key, entries.foldl putLabelled labels⟩] := by
  induction entries generalizing labels with
  | nil => rfl
  | cons entry entries ih =>
    rw [List.map_cons, List.foldl_cons, putKeyed, addRun_append h, addRun, if_pos rfl, ih,
      List.foldl_cons, putLabelled]

theorem foldl_putKeyed_new {front : List ConfigurationAnalysis} {c : ConfigurationAnalysis}
    (h : ∀ b ∈ front, b.key ≠ c.key) (hc : c.Regular) :
    ((labelled c.labels).map (c.key, ·)).foldl putKeyed front = front ++ [c] := by
  have hall : (labelled c.labels).foldl putLabelled [] = c.labels :=
    foldl_putLabelled (by simpa using hc.labels) hc.measured
  -- A configuration without runs would leave no record behind.
  have hne : labelled c.labels ≠ [] := by
    intro hnil
    rw [hnil, List.foldl_nil] at hall
    exact hc.labelled hall.symm
  obtain ⟨entry, entries, hcons⟩ := List.exists_cons_of_ne_nil hne
  have hfirst : putKeyed front (c.key, entry) = front ++ [⟨c.key, putLabelled [] entry⟩] :=
    calc putKeyed front (c.key, entry) = addRun c.key entry.1 entry.2 (front ++ []) := by
          rw [List.append_nil, putKeyed]
      _ = front ++ [⟨c.key, putLabelled [] entry⟩] := addRun_append h []
  rw [hcons, List.foldl_cons] at hall
  rw [hcons, List.map_cons, List.foldl_cons, hfirst, foldl_putKeyed_last h, hall]

theorem foldl_putKeyed {front configurations : List ConfigurationAnalysis}
    (hdistinct : ((front ++ configurations).map (·.key)).Nodup)
    (hregular : ∀ c ∈ configurations, c.Regular) :
    (keyed configurations).foldl putKeyed front = front ++ configurations := by
  induction configurations generalizing front with
  | nil => simp [keyed]
  | cons c configurations ih =>
    have hnew : ∀ b ∈ front, b.key ≠ c.key := by
      rw [List.map_append, List.nodup_append] at hdistinct
      exact fun b hb => hdistinct.2.2 _ (List.mem_map_of_mem hb) _ (by simp)
    rw [keyed, List.flatMap_cons, List.foldl_append, ← keyed,
      foldl_putKeyed_new hnew (hregular c (List.mem_cons_self ..)), ih]
    · rw [List.append_assoc, List.singleton_append]
    · rwa [List.append_assoc, List.singleton_append]
    · exact fun b hb => hregular b (List.mem_cons_of_mem c hb)

def recordOf (entry : Key × String × RunAnalysis) : SeriesRecord :=
  { configuration := entry.1.values, label := entry.2.1, repetitions := entry.2.2.repetitions
    values := .ofAnalysis entry.2.2.series }

theorem seriesOf_eq (r : Report) : seriesOf r = (keyed r.configurations).map recordOf := by
  simp [seriesOf, keyed, labelled, List.map_flatMap, Function.comp_def, recordOf]

theorem addRecord_recordOf {entry : Key × String × RunAnalysis}
    (hraw : entry.2.2.series.rawSummary.ecdf.points ≠ [])
    (hfiltered : entry.2.2.series.filteredSummary.ecdf.points ≠ [])
    (configurations : List ConfigurationAnalysis) :
    addRecord configurations (recordOf entry) = .ok (putKeyed configurations entry) := by
  rw [addRecord, recordOf, SeriesValues.toAnalysis_ofAnalysis hraw hfiltered]
  rfl

theorem foldlM_addRecord {entries : List (Key × String × RunAnalysis)}
    (hraw : ∀ entry ∈ entries, entry.2.2.series.rawSummary.ecdf.points ≠ [])
    (hfiltered : ∀ entry ∈ entries, entry.2.2.series.filteredSummary.ecdf.points ≠ [])
    (configurations : List ConfigurationAnalysis) :
    (entries.map recordOf).foldlM addRecord configurations =
      .ok (entries.foldl putKeyed configurations) := by
  induction entries generalizing configurations with
  | nil => rfl
  | cons entry entries ih =>
    rw [List.map_cons, List.foldlM_cons,
      addRecord_recordOf (hraw entry (List.mem_cons_self ..)) (hfiltered entry (List.mem_cons_self ..)),
      ok_bind, ih (fun e he => hraw e (List.mem_cons_of_mem entry he))
        (fun e he => hfiltered e (List.mem_cons_of_mem entry he)), List.foldl_cons]

theorem mem_keyed {configurations : List ConfigurationAnalysis}
    {entry : Key × String × RunAnalysis} (h : entry ∈ keyed configurations) :
    ∃ c ∈ configurations, ∃ a ∈ c.labels, entry.2.2 ∈ a.runs := by
  simp only [keyed, labelled, List.mem_flatMap, List.mem_map] at h
  obtain ⟨c, hc, _, ⟨a, ha, run, hrun, rfl⟩, rfl⟩ := h
  exact ⟨c, hc, a, ha, hrun⟩

theorem toReport_ofReport {r : Report} (h : r.Regular) (inputs : List InputStamp) :
    (ofReport r inputs).toReport = .ok r := by
  have hpoints : ∀ entry ∈ keyed r.configurations,
      entry.2.2.series.rawSummary.ecdf.points ≠ [] ∧
        entry.2.2.series.filteredSummary.ecdf.points ≠ [] := by
    intro entry hentry
    obtain ⟨c, hc, a, ha, hrun⟩ := mem_keyed hentry
    exact (h.configurations c hc).points a ha _ hrun
  have hseries : (seriesOf r).foldlM addRecord [] = .ok r.configurations := by
    rw [seriesOf_eq, foldlM_addRecord (fun e he => (hpoints e he).1) (fun e he => (hpoints e he).2),
      foldl_putKeyed (by simpa using h.keys) h.configurations, List.nil_append]
  have hcomparisons : (r.comparisons.map ComparisonRecord.ofAnalysis).mapM
      ComparisonRecord.toAnalysis = .ok r.comparisons := by
    rw [mapM_eq_ok_iff, List.forall₂_map_left_iff, List.forall₂_same]
    exact fun c hc => ComparisonRecord.toAnalysis_ofAnalysis (h.trends c hc)
  rw [toReport, ofReport, hseries, ok_bind, hcomparisons]
  rfl

end DatasetSnapshot
end CycleCount
