import CycleCount.Proofs.TotalOrder
import CycleCount.Proofs.Trend

/-! A function report shows one selection of records in several ways. Nothing is
lost or shown twice, and the sorted overheads do not tell in which order the
records stood. -/

namespace CycleCount.FunctionCollection

theorem select_eq (c : FunctionCollection) (only : Option String) :
    c.select only =
      match only with
      | none => c.records
      | some name => c.records.filter (·.name = name) := by
  cases only with
  | none => exact List.filter_true _
  | some name => simp only [select, Option.all_some, Bool.beq_eq_decide_eq]

structure Shows (report : FunctionReport) (records : List FunctionRecord) : Prop where
  functions : report.functions = records
  overheads : Ascends report.overheads (records.map (·.rawOverhead))
  filteredOverheads : Ascends report.filteredOverheads (records.map (·.filteredOverhead))
  pairs : report.trend.pairs.Perm
    (records.map fun r => (r.baseline.rawSummary.mean, r.treatment.rawSummary.mean))
  baseline : report.trend.baseline.length = records.length
  treatment : report.trend.treatment.length = records.length

theorem exists_report (c : FunctionCollection) (only : Option String) :
    ∃ report, c.report only = .ok report ∧ report.only = only ∧
      Shows report (c.select only) := by
  -- Means of the same records are as many on either side, so that merging cannot fail.
  have hsides : ((c.select only).map (·.baseline.rawSummary.mean)).length =
      ((c.select only).map (·.treatment.rawSummary.mean)).length := by
    rw [List.length_map, List.length_map]
  obtain ⟨trend, htrend⟩ := Trend.exists_ofMeans hsides
  have hreport : c.report only = .ok {
      only, functions := c.select only, trend
      overheads := sortedTotally ((c.select only).map (·.rawOverhead))
      filteredOverheads := sortedTotally ((c.select only).map (·.filteredOverhead)) } := by
    rw [report, htrend]
    rfl
  obtain ⟨hpairs, hlength⟩ := Trend.pairs_perm_of_ofMeans htrend
  rw [List.zip_map'] at hpairs
  have hcount : trend.baseline.length = (c.select only).length := by
    have hzip := hpairs.length_eq
    rwa [Trend.pairs, List.length_zip, ← hlength, min_self, List.length_map] at hzip
  exact ⟨_, hreport, rfl, rfl, ascends_sortedTotally _, ascends_sortedTotally _, hpairs, hcount,
    hlength ▸ hcount⟩

/-- Reports can always be made, of all records or of those with one name, in the
order of the collection. The sorted overheads of two reports are equal just when
the overheads they were sorted from are the same up to order. -/
theorem report_shows_selection (c : FunctionCollection) (only : Option String) :
    ∃ report, c.report only = .ok report ∧ report.only = only ∧
      Shows report
        (match only with
        | none => c.records
        | some name => c.records.filter (·.name = name)) ∧
      ∀ (c' : FunctionCollection) (only' : Option String) (report' : FunctionReport),
        c'.report only' = .ok report' →
          (report.overheads = report'.overheads ↔
            (report.functions.map (·.rawOverhead)).Perm
              (report'.functions.map (·.rawOverhead))) ∧
          (report.filteredOverheads = report'.filteredOverheads ↔
            (report.functions.map (·.filteredOverhead)).Perm
              (report'.functions.map (·.filteredOverhead))) := by
  obtain ⟨report, hreport, honly, hshows⟩ := c.exists_report only
  refine ⟨report, hreport, honly, select_eq c only ▸ hshows, ?_⟩
  intro c' only' report' hreport'
  obtain ⟨_, hmade, -, hshows'⟩ := c'.exists_report only'
  cases hmade.symm.trans hreport'
  rw [hshows.functions, hshows'.functions]
  exact ⟨hshows.overheads.eq_iff_perm hshows'.overheads,
    hshows.filteredOverheads.eq_iff_perm hshows'.filteredOverheads⟩

end CycleCount.FunctionCollection
