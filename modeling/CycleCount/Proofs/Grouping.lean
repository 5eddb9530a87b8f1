import CycleCount.Proofs.Regrouping
import Mathlib.Data.List.Induction

/-! Putting records together, in whatever order they come. Configurations and
labels stand in the order in which they first appear, and the runs of a condition
are its records in their own order; nothing is lost, and nothing occurs twice. -/

namespace CycleCount

section Groups

variable {α β γ : Type} [DecidableEq α]

def addEntry (step : List γ → β → List γ) : List (α × List γ) → α × β → List (α × List γ)
  | [], entry => [(entry.1, step [] entry.2)]
  | group :: groups, entry =>
    if group.1 = entry.1 then (group.1, step group.2 entry.2) :: groups
    else group :: addEntry step groups entry

def valuesOf (entries : List (α × β)) (key : α) : List β :=
  (entries.filter (·.1 = key)).map (·.2)

theorem valuesOf_concat (entries : List (α × β)) (entry : α × β) (key : α) :
    valuesOf (entries ++ [entry]) key =
      if key = entry.1 then valuesOf entries key ++ [entry.2] else valuesOf entries key := by
  unfold valuesOf
  rw [List.filter_append, List.map_append]
  by_cases hkey : entry.1 = key
  · simp [hkey]
  · simp [hkey, Ne.symm hkey]

theorem eraseDups_concat (xs : List α) (x : α) :
    (xs ++ [x]).eraseDups = if x ∈ xs then xs.eraseDups else xs.eraseDups ++ [x] := by
  rw [List.eraseDups_append]
  by_cases hx : x ∈ xs
  · simp [List.removeAll, hx]
  · simp [List.removeAll, hx, List.eraseDups_cons]

theorem nodup_eraseDups (xs : List α) : xs.eraseDups.Nodup := by
  induction xs using List.reverseRecOn with
  | nil => exact List.nodup_nil
  | append_singleton xs x ih =>
    rw [eraseDups_concat]
    split_ifs with hx
    · exact ih
    · have hnew : x ∉ xs.eraseDups := fun hmem => hx (List.mem_eraseDups.mp hmem)
      exact List.nodup_append.mpr ⟨ih, List.nodup_singleton x, by
        rintro y hy _ hz rfl
        exact hnew (List.mem_singleton.mp hz ▸ hy)⟩

theorem addEntry_map (step : List γ → β → List γ) {keys : List α} (hkeys : keys.Nodup)
    (values : α → List γ) (entry : α × β) :
    addEntry step (keys.map fun key => (key, values key)) entry =
      if entry.1 ∈ keys then
        keys.map fun key => (key, if key = entry.1 then step (values key) entry.2 else values key)
      else keys.map (fun key => (key, values key)) ++ [(entry.1, step [] entry.2)] := by
  induction keys with
  | nil => rfl
  | cons key keys ih =>
    obtain ⟨hkey, hkeys⟩ := List.nodup_cons.mp hkeys
    have hrest := ih hkeys
    rw [List.map_cons, addEntry]
    by_cases hfirst : key = entry.1
    · -- The other keys are different ones, so their groups stay as they are.
      have hothers : ∀ other ∈ keys, other ≠ entry.1 := by
        rintro other hother rfl
        exact hkey (hfirst ▸ hother)
      have hsame : keys.map (fun other =>
          (other, if other = entry.1 then step (values other) entry.2 else values other)) =
          keys.map fun other => (other, values other) :=
        List.map_congr_left fun other hother => by rw [if_neg (hothers other hother)]
      rw [if_pos hfirst, if_pos (hfirst ▸ List.mem_cons_self ..), List.map_cons, if_pos hfirst,
        hsame]
    · rw [if_neg hfirst, hrest]
      by_cases hmem : entry.1 ∈ keys
      · rw [if_pos hmem, if_pos (List.mem_cons_of_mem key hmem), List.map_cons, if_neg hfirst]
      · have hnot : entry.1 ∉ key :: keys := by
          rw [List.mem_cons, not_or]
          exact ⟨Ne.symm hfirst, hmem⟩
        rw [if_neg hmem, if_neg hnot, List.cons_append]

theorem foldl_addEntry (step : List γ → β → List γ) (entries : List (α × β)) :
    entries.foldl (addEntry step) [] =
      (entries.map (·.1)).eraseDups.map fun key => (key, (valuesOf entries key).foldl step []) := by
  induction entries using List.reverseRecOn with
  | nil => rfl
  | append_singleton entries entry ih =>
    have hkeys : (entries ++ [entry]).map (·.1) = entries.map (·.1) ++ [entry.1] :=
      List.map_append
    have hvalues : ∀ key, (valuesOf (entries ++ [entry]) key).foldl step [] =
        if key = entry.1 then step ((valuesOf entries key).foldl step []) entry.2
        else (valuesOf entries key).foldl step [] := by
      intro key
      rw [valuesOf_concat]
      split_ifs
      · rw [List.foldl_append, List.foldl_cons, List.foldl_nil]
      · rfl
    rw [List.foldl_append, List.foldl_cons, List.foldl_nil, ih,
      addEntry_map step (nodup_eraseDups _), hkeys, eraseDups_concat]
    simp only [hvalues, List.mem_eraseDups]
    split_ifs with hmem
    · rfl
    · have hnone : valuesOf entries entry.1 = [] := by
        rw [valuesOf, List.map_eq_nil_iff, List.filter_eq_nil_iff]
        intro other hother hkey
        exact hmem (List.mem_map.mpr ⟨other, hother, of_decide_eq_true hkey⟩)
      have hold : ∀ key ∈ (entries.map (·.1)).eraseDups, key ≠ entry.1 := by
        rintro key hkey rfl
        exact hmem (List.mem_eraseDups.mp hkey)
      rw [List.map_append, List.map_singleton, if_pos rfl, hnone, List.foldl_nil]
      congr 1
      exact List.map_congr_left fun key hkey => by rw [if_neg (hold key hkey)]

theorem map_valuesOf (entries : List (α × β)) (key : α) :
    (valuesOf entries key).map (key, ·) = entries.filter (·.1 = key) := by
  rw [valuesOf, List.map_map]
  calc (entries.filter (·.1 = key)).map ((key, ·) ∘ (·.2))
      = (entries.filter (·.1 = key)).map id := List.map_congr_left fun entry hentry => by
        have hkey : entry.1 = key := of_decide_eq_true (List.mem_filter.mp hentry).2
        rw [Function.comp_apply, ← hkey, id]
    _ = entries.filter (·.1 = key) := List.map_id _

theorem mem_valuesOf {entries : List (α × β)} {key : α} {value : β} :
    value ∈ valuesOf entries key ↔ (key, value) ∈ entries := by
  simp [valuesOf]

theorem valuesOf_ne_nil {entries : List (α × β)} {key : α}
    (h : key ∈ (entries.map (·.1)).eraseDups) : valuesOf entries key ≠ [] := by
  obtain ⟨⟨_, value⟩, hentry, rfl⟩ := List.mem_map.mp (List.mem_eraseDups.mp h)
  exact List.ne_nil_of_mem (mem_valuesOf.mpr hentry)

def ungroup (view : List γ → List β) (groups : List (α × List γ)) : List (α × β) :=
  groups.flatMap fun group => (view group.2).map (group.1, ·)

theorem ungroup_addEntry {step : List γ → β → List γ} {view : List γ → List β}
    (hnil : view [] = [])
    (hstep : ∀ values value, (view (step values value)).Perm (value :: view values))
    (groups : List (α × List γ)) (entry : α × β) :
    (ungroup view (addEntry step groups entry)).Perm (entry :: ungroup view groups) := by
  induction groups with
  | nil =>
    have hsingle : view (step [] entry.2) = [entry.2] :=
      List.perm_singleton.mp (hnil ▸ hstep [] entry.2)
    simp [ungroup, addEntry, hsingle]
  | cons group groups ih =>
    rw [addEntry]
    split_ifs with hkey
    · have hvalues : ((view (step group.2 entry.2)).map (group.1, ·)).Perm
          (entry :: (view group.2).map (group.1, ·)) := by
        rw [hkey]
        exact (hstep group.2 entry.2).map fun value => (entry.1, value)
      exact hvalues.append_right (ungroup view groups)
    · exact (ih.append_left _).trans List.perm_middle

theorem ungroup_foldl_addEntry {step : List γ → β → List γ} {view : List γ → List β}
    (hnil : view [] = [])
    (hstep : ∀ values value, (view (step values value)).Perm (value :: view values))
    (entries : List (α × β)) :
    (ungroup view (entries.foldl (addEntry step) [])).Perm entries := by
  induction entries using List.reverseRecOn with
  | nil => exact List.Perm.refl []
  | append_singleton entries entry ih =>
    rw [List.foldl_append, List.foldl_cons, List.foldl_nil]
    calc (ungroup view (addEntry step (entries.foldl (addEntry step) []) entry)).Perm _ :=
          ungroup_addEntry hnil hstep _ entry
      _ |>.Perm (entry :: entries) := ih.cons entry
      _ |>.Perm (entries ++ [entry]) := List.perm_append_singleton entry entries |>.symm

end Groups

theorem Ecdf.columns_of_ofColumns {values probabilities : List Float} {e : Ecdf}
    (h : ofColumns values probabilities = .ok e) :
    values = e.values ∧ probabilities = e.probabilities ∧ e.points ≠ [] := by
  unfold ofColumns at h
  split_ifs at h with hlength hempty
  have hlength : values.length = probabilities.length := not_not.mp hlength
  cases h
  refine ⟨(List.map_fst_zip (Nat.le_of_eq hlength)).symm,
    (List.map_snd_zip (Nat.le_of_eq hlength.symm)).symm, ?_⟩
  intro hnil
  rcases List.zip_eq_nil_iff.mp hnil with hvalues | hprobabilities
  · exact hempty (List.isEmpty_iff.mpr hvalues)
  · rw [hprobabilities, List.length_nil, List.length_eq_zero_iff] at hlength
    exact hempty (List.isEmpty_iff.mpr hlength)

theorem SummaryRecord.eq_of_toSummary {record : SummaryRecord} {s : Summary}
    (h : record.toSummary = .ok s) : record = ofSummary s ∧ s.ecdf.points ≠ [] := by
  unfold toSummary at h
  split at h
  · rename_i ecdf hecdf
    cases h
    obtain ⟨hvalues, hprobabilities, hpoints⟩ := Ecdf.columns_of_ofColumns hecdf
    refine ⟨?_, hpoints⟩
    rw [ofSummary, ← hvalues, ← hprobabilities]
  · cases h
  · cases h

def SeriesAnalysis.HasPoints (a : SeriesAnalysis) : Prop :=
  a.rawSummary.ecdf.points ≠ [] ∧ a.filteredSummary.ecdf.points ≠ []

theorem SeriesValues.eq_of_toAnalysis {values : SeriesValues} {a : SeriesAnalysis}
    (h : values.toAnalysis = .ok a) : values = ofAnalysis a ∧ a.HasPoints := by
  obtain ⟨rawSummary, hraw, hrest⟩ := bind_eq_ok_iff.mp h
  obtain ⟨filteredSummary, hfiltered, hanalysis⟩ := bind_eq_ok_iff.mp hrest
  obtain ⟨hraw, hrawPoints⟩ := SummaryRecord.eq_of_toSummary hraw
  obtain ⟨hfiltered, hfilteredPoints⟩ := SummaryRecord.eq_of_toSummary hfiltered
  cases hanalysis
  refine ⟨?_, hrawPoints, hfilteredPoints⟩
  rw [ofAnalysis, ← hraw, ← hfiltered]

theorem ComparisonRecord.columns_overheads {repetitions : List UInt64} {raw filtered : List Float}
    (hraw : raw.length = repetitions.length) (hfiltered : filtered.length = repetitions.length) :
    (overheads repetitions raw filtered).map (·.repetitions) = repetitions ∧
      (overheads repetitions raw filtered).map (·.raw) = raw ∧
      (overheads repetitions raw filtered).map (·.filtered) = filtered := by
  fun_induction overheads repetitions raw filtered with
  | case1 n ns x raw y filtered ih =>
    obtain ⟨hns, hraw, hfiltered⟩ := ih (Nat.succ.inj hraw) (Nat.succ.inj hfiltered)
    simp [hns, hraw, hfiltered]
  | case2 ns raw filtered hshort =>
    cases ns with
    | nil => simp_all
    | cons n ns =>
      obtain ⟨x, raw, rfl⟩ := List.exists_cons_of_length_eq_add_one hraw
      obtain ⟨y, filtered, rfl⟩ := List.exists_cons_of_length_eq_add_one hfiltered
      exact absurd rfl (hshort n ns x raw y filtered rfl rfl)

theorem ComparisonRecord.eq_of_toAnalysis {record : ComparisonRecord} {c : ComparisonAnalysis}
    (h : record.toAnalysis = .ok c) :
    record = ofAnalysis c ∧ c.trend.baseline.length = c.trend.treatment.length := by
  unfold toAnalysis at h
  dsimp only at h
  split_ifs at h with hlengths
  simp only [not_or, ne_eq, not_not] at hlengths
  obtain ⟨hraw, hfiltered, htrend⟩ := hlengths
  cases h
  obtain ⟨hrepetitions, hraws, hfiltereds⟩ := columns_overheads hraw hfiltered
  refine ⟨?_, htrend⟩
  rw [ofAnalysis, hrepetitions, hraws, hfiltereds]
  rfl

namespace DatasetSnapshot

def keyOf (record : SeriesRecord) : Key := ⟨record.configuration⟩

def labelsOf (groups : List (String × List RunAnalysis)) : List LabelAnalysis :=
  groups.map fun group => ⟨group.1, group.2⟩

def configurationsOf (groups : List (Key × List LabelAnalysis)) : List ConfigurationAnalysis :=
  groups.map fun group => ⟨group.1, group.2⟩

theorem putLabelled_labelsOf (groups : List (String × List RunAnalysis))
    (entry : String × RunAnalysis) :
    putLabelled (labelsOf groups) entry =
      labelsOf (addEntry (fun runs run => runs ++ [run]) groups entry) := by
  induction groups with
  | nil => rfl
  | cons group groups ih =>
    rw [putLabelled, labelsOf, List.map_cons, addToLabels, ← labelsOf, ← putLabelled, ih, addEntry]
    split_ifs <;> rfl

theorem putKeyed_configurationsOf (groups : List (Key × List LabelAnalysis))
    (entry : Key × String × RunAnalysis) :
    putKeyed (configurationsOf groups) entry =
      configurationsOf (addEntry putLabelled groups entry) := by
  induction groups with
  | nil => rfl
  | cons group groups ih =>
    rw [putKeyed, configurationsOf, List.map_cons, addRun, ← configurationsOf, ← putKeyed, ih,
      addEntry]
    split_ifs <;> rfl

theorem foldl_putLabelled_nil (entries : List (String × RunAnalysis)) :
    entries.foldl putLabelled [] =
      labelsOf (entries.foldl (addEntry fun runs run => runs ++ [run]) []) := by
  rw [← List.foldl_hom labelsOf putLabelled_labelsOf]
  rfl

theorem foldl_putKeyed_nil (entries : List (Key × String × RunAnalysis)) :
    entries.foldl putKeyed [] = configurationsOf (entries.foldl (addEntry putLabelled) []) := by
  rw [← List.foldl_hom configurationsOf putKeyed_configurationsOf]
  rfl

theorem foldl_putLabelled_eq (entries : List (String × RunAnalysis)) :
    entries.foldl putLabelled [] =
      (entries.map (·.1)).eraseDups.map fun label => ⟨label, valuesOf entries label⟩ := by
  have hruns : ∀ runs : List RunAnalysis, runs.foldl (fun runs run => runs ++ [run]) [] = runs := by
    intro runs
    rw [List.foldl_append_eq_append, List.nil_append, ← List.flatMap_def, List.flatMap_singleton']
  rw [foldl_putLabelled_nil, foldl_addEntry, labelsOf, List.map_map]
  simp only [Function.comp_def, hruns]

theorem foldl_putKeyed_eq (entries : List (Key × String × RunAnalysis)) :
    entries.foldl putKeyed [] = (entries.map (·.1)).eraseDups.map fun key =>
      ⟨key, (valuesOf entries key).foldl putLabelled []⟩ := by
  rw [foldl_putKeyed_nil, foldl_addEntry, configurationsOf, List.map_map]
  rfl

theorem labelled_labelsOf (groups : List (String × List RunAnalysis)) :
    labelled (labelsOf groups) = ungroup id groups := List.flatMap_map ..

theorem keyed_configurationsOf (groups : List (Key × List LabelAnalysis)) :
    keyed (configurationsOf groups) = ungroup labelled groups := List.flatMap_map ..

theorem labelled_putLabelled (labels : List LabelAnalysis) (entry : String × RunAnalysis) :
    (labelled (putLabelled labels entry)).Perm (entry :: labelled labels) := by
  obtain ⟨groups, rfl⟩ : ∃ groups, labels = labelsOf groups :=
    ⟨labels.map fun a => (a.label, a.runs), by
      rw [labelsOf, List.map_map]
      exact (List.map_id labels).symm⟩
  rw [putLabelled_labelsOf, labelled_labelsOf, labelled_labelsOf]
  exact ungroup_addEntry rfl (fun _ _ => List.perm_append_singleton ..) groups entry

theorem keyed_foldl_putKeyed (entries : List (Key × String × RunAnalysis)) :
    (keyed (entries.foldl putKeyed [])).Perm entries := by
  rw [foldl_putKeyed_nil, keyed_configurationsOf]
  exact ungroup_foldl_addEntry rfl labelled_putLabelled entries

theorem regular_foldl_putLabelled {key : Key} {entries : List (String × RunAnalysis)}
    (hne : entries ≠ [])
    (hpoints : ∀ entry ∈ entries, entry.2.series.HasPoints) :
    (⟨key, entries.foldl putLabelled []⟩ : ConfigurationAnalysis).Regular := by
  have heq := foldl_putLabelled_eq entries
  have hmem : ∀ a ∈ entries.foldl putLabelled [], ∃ label ∈ (entries.map (·.1)).eraseDups,
      a = ⟨label, valuesOf entries label⟩ := by
    rw [heq]
    intro a ha
    obtain ⟨label, hlabel, rfl⟩ := List.mem_map.mp ha
    exact ⟨label, hlabel, rfl⟩
  refine ⟨?_, ?_, ?_, ?_⟩
  · show ((entries.foldl putLabelled []).map (·.label)).Nodup
    rw [heq, List.map_map]
    exact (List.map_id _).symm ▸ nodup_eraseDups _
  · show entries.foldl putLabelled [] ≠ []
    rw [heq, Ne, List.map_eq_nil_iff]
    obtain ⟨entry, hentry⟩ := List.exists_mem_of_ne_nil entries hne
    exact List.ne_nil_of_mem (List.mem_eraseDups.mpr (List.mem_map_of_mem hentry))
  · intro a ha
    obtain ⟨label, hlabel, rfl⟩ := hmem a ha
    exact valuesOf_ne_nil hlabel
  · intro a ha run hrun
    obtain ⟨label, -, rfl⟩ := hmem a ha
    exact hpoints (label, run) (mem_valuesOf.mp hrun)

theorem exists_recordOf {configurations configurations' : List ConfigurationAnalysis}
    {record : SeriesRecord} (h : addRecord configurations record = .ok configurations') :
    ∃ entry, record = recordOf entry ∧ entry.2.2.series.HasPoints ∧
      configurations' = putKeyed configurations entry := by
  obtain ⟨series, hseries, hrun⟩ := bind_eq_ok_iff.mp h
  obtain ⟨hvalues, hpoints⟩ := SeriesValues.eq_of_toAnalysis hseries
  cases hrun
  refine ⟨(keyOf record, record.label, ⟨record.repetitions, series⟩), ?_, hpoints, rfl⟩
  rw [recordOf, ← hvalues]
  rfl

theorem exists_entries {series : List SeriesRecord}
    {configurations configurations' : List ConfigurationAnalysis}
    (h : series.foldlM addRecord configurations = .ok configurations') :
    ∃ entries : List (Key × String × RunAnalysis), series = entries.map recordOf ∧
      (∀ entry ∈ entries, entry.2.2.series.HasPoints) ∧
      configurations' = entries.foldl putKeyed configurations := by
  induction series generalizing configurations with
  | nil =>
    cases h
    exact ⟨[], rfl, List.forall_mem_nil _, rfl⟩
  | cons record series ih =>
    obtain ⟨next, hrecord, hrest⟩ := foldlM_cons_eq_ok_iff.mp h
    obtain ⟨entry, rfl, hentry, rfl⟩ := exists_recordOf hrecord
    obtain ⟨entries, rfl, hentries, rfl⟩ := ih hrest
    exact ⟨entry :: entries, rfl, List.forall_mem_cons.mpr ⟨hentry, hentries⟩, rfl⟩

theorem filter_keyOf (entries : List (Key × String × RunAnalysis)) (key : Key) :
    (entries.map recordOf).filter (keyOf · = key) =
      (valuesOf entries key).map fun entry => recordOf (key, entry) := by
  rw [List.filter_map]
  have hpairs := congrArg (List.map recordOf) (map_valuesOf entries key)
  rw [List.map_map] at hpairs
  exact hpairs.symm

theorem filter_label (key : Key) (entries : List (String × RunAnalysis)) (label : String) :
    (entries.map fun entry => recordOf (key, entry)).filter (·.label = label) =
      (valuesOf entries label).map fun run => recordOf (key, label, run) := by
  rw [List.filter_map]
  have hpairs := congrArg (List.map fun entry => recordOf (key, entry)) (map_valuesOf entries label)
  rw [List.map_map] at hpairs
  exact hpairs.symm

theorem regular_foldl_putKeyed {entries : List (Key × String × RunAnalysis)}
    (h : ∀ entry ∈ entries, entry.2.2.series.HasPoints) :
    ((entries.foldl putKeyed []).map (·.key)).Nodup ∧
      ∀ c ∈ entries.foldl putKeyed [], c.Regular := by
  rw [foldl_putKeyed_eq]
  constructor
  · rw [List.map_map]
    exact (List.map_id _).symm ▸ nodup_eraseDups _
  · intro c hc
    obtain ⟨key, hkey, rfl⟩ := List.mem_map.mp hc
    exact regular_foldl_putLabelled (valuesOf_ne_nil hkey) fun entry hentry =>
      h (key, entry) (mem_valuesOf.mp hentry)

theorem comparisons_of_mapM {records : List ComparisonRecord}
    {comparisons : List ComparisonAnalysis} (h : records.mapM ComparisonRecord.toAnalysis = .ok comparisons) :
    records = comparisons.map ComparisonRecord.ofAnalysis ∧
      ∀ c ∈ comparisons, c.trend.baseline.length = c.trend.treatment.length := by
  have hall := mapM_eq_ok_iff.mp h
  constructor
  · rw [← List.map_id records, map_eq_map_iff_forall₂]
    exact hall.imp fun _ _ hrecord => (ComparisonRecord.eq_of_toAnalysis hrecord).1
  · intro c hc
    obtain ⟨record, -, hrecord⟩ := exists_left_of_forall₂ hall hc
    exact (ComparisonRecord.eq_of_toAnalysis hrecord).2

theorem exists_entries_of_toReport {s : DatasetSnapshot} {r : Report} (h : s.toReport = .ok r) :
    ∃ entries : List (Key × String × RunAnalysis), s.series = entries.map recordOf ∧
      r.configurations = entries.foldl putKeyed [] ∧
      r.Regular ∧ ofReport r s.inputs = { s with series := seriesOf r } := by
  obtain ⟨configurations, hseries, hrest⟩ := bind_eq_ok_iff.mp h
  obtain ⟨comparisons, hcomparisons, hreport⟩ := bind_eq_ok_iff.mp hrest
  obtain ⟨entries, hentries, hpoints, rfl⟩ := exists_entries hseries
  obtain ⟨hrecords, htrends⟩ := comparisons_of_mapM hcomparisons
  cases hreport
  obtain ⟨hkeys, hregular⟩ := regular_foldl_putKeyed hpoints
  refine ⟨entries, hentries, rfl, ⟨hkeys, hregular, htrends⟩, ?_⟩
  rw [ofReport, ← hrecords]

/-- Whatever the order of the records of a snapshot, its report has their
configurations and labels in the order in which they first appear, and the runs of
a condition are its records in their own order. Written again, the report has the
same records, perhaps rearranged, and it reads back as it is. -/
theorem regroups {s : DatasetSnapshot} {r : Report} (h : s.toReport = .ok r) :
    r.configurations.map (·.key) = (s.series.map keyOf).eraseDups ∧
    (∀ c ∈ r.configurations, c.labels.map (·.label) =
      ((s.series.filter (keyOf · = c.key)).map (·.label)).eraseDups) ∧
    (∀ c ∈ r.configurations, ∀ a ∈ c.labels,
      a.runs.map (fun run => recordOf (c.key, a.label, run)) =
        s.series.filter fun record => keyOf record = c.key ∧ record.label = a.label) ∧
    (∃ series, series.Perm s.series ∧ ofReport r s.inputs = { s with series }) ∧
    (ofReport r s.inputs).toReport = .ok r := by
  obtain ⟨entries, hentries, hconfigurations, hregular, hwritten⟩ := exists_entries_of_toReport h
  have hgroups := hconfigurations.trans (foldl_putKeyed_eq entries)
  have hkeyed : ∀ c ∈ r.configurations,
      c.labels = (valuesOf entries c.key).foldl putLabelled [] := by
    rw [hgroups]
    intro c hc
    obtain ⟨key, -, rfl⟩ := List.mem_map.mp hc
    rfl
  refine ⟨?_, ?_, ?_, ⟨seriesOf r, ?_, hwritten⟩, toReport_ofReport hregular s.inputs⟩
  · rw [hgroups, hentries, List.map_map, List.map_map]
    exact List.map_id _
  · intro c hc
    rw [hkeyed c hc, foldl_putLabelled_eq, hentries, filter_keyOf, List.map_map, List.map_map]
    exact List.map_id _
  · intro c hc a ha
    rw [hkeyed c hc, foldl_putLabelled_eq] at ha
    obtain ⟨label, -, rfl⟩ := List.mem_map.mp ha
    rw [hentries, ← filter_label, ← filter_keyOf, List.filter_filter]
    simp only [Bool.decide_and, Bool.and_comm]
  · rw [seriesOf_eq, hconfigurations, hentries]
    exact (keyed_foldl_putKeyed entries).map recordOf

def constantValues : SeriesValues :=
  { raw := [7], filtered := [7]
    rawSummary := ⟨1, 7, 0, [7], [1]⟩, filteredSummary := ⟨1, 7, 0, [7], [1]⟩
    quartiles := ⟨1, 7, 7, 7, 7, 7⟩ }

def interleaved : DatasetSnapshot :=
  { inputs := [], name := "sleep", axes := ["ns"], labels := ["with", "without"]
    series := [⟨["90"], "with", 1, constantValues⟩, ⟨["10"], "without", 1, constantValues⟩,
      ⟨["90"], "without", 1, constantValues⟩, ⟨["90"], "with", 2, constantValues⟩]
    comparison := none, comparisons := [] }

theorem regroups_interleaved : ∃ r, interleaved.toReport = .ok r ∧
    r.configurations.map (·.key) = [⟨["90"]⟩, ⟨["10"]⟩] ∧
    (seriesOf r).map (fun record => (record.configuration, record.label, record.repetitions)) =
      [(["90"], "with", 1), (["90"], "with", 2), (["90"], "without", 1), (["10"], "without", 1)] ∧
    (ofReport r []).toReport = .ok r := by
  obtain ⟨hkeys, -, -, -, hagain⟩ := regroups (s := interleaved) rfl
  exact ⟨_, rfl, hkeys.trans (by decide), rfl, hagain⟩

end DatasetSnapshot
end CycleCount
