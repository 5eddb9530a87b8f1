import CycleCount.Analysis.Report
import CycleCount.Proofs.Leaves
import CycleCount.Proofs.RoundTrip

/-! Which experiments a report belongs to. Of the axes only their names and the
list of all keys are compared; since no axis is without values and none lists a
value twice, that list tells the values of every axis and their order. -/

namespace CycleCount

theorem combinations_ne_nil {axes : List Axis} (h : ∀ axis ∈ axes, axis.values ≠ []) :
    combinations axes ≠ [] := by
  induction axes with
  | nil => simp [combinations]
  | cons axis axes ih =>
    have hrest := ih fun other hother => h other (List.mem_cons_of_mem axis hother)
    obtain ⟨value, values, hvalues⟩ := List.exists_cons_of_ne_nil (h axis (List.mem_cons_self ..))
    rw [combinations_cons, hvalues, List.flatMap_cons]
    intro hnil
    have hfirst := (List.append_eq_nil_iff.mp hnil).1
    exact hrest (List.map_eq_nil_iff.mp hfirst)

theorem combinations_cons_inj {axis other : Axis} {axes others : List Axis}
    (haxes : ∀ a ∈ axis :: axes, a.values ≠ [] ∧ a.values.Nodup)
    (hothers : ∀ a ∈ other :: others, a.values ≠ [] ∧ a.values.Nodup)
    (h : combinations (axis :: axes) = combinations (other :: others)) :
    axis.values = other.values ∧ combinations axes = combinations others := by
  have hgroup : ∀ {axis : Axis} {axes : List Axis},
      (∀ a ∈ axis :: axes, a.values ≠ [] ∧ a.values.Nodup) →
        ∀ value ∈ axis.values, combinations axes ≠ [] ∧ (combinations axes).Nodup := by
    intro axis axes hvalues value _
    have hrest := fun a ha => hvalues a (List.mem_cons_of_mem axis ha)
    exact ⟨combinations_ne_nil fun a ha => (hrest a ha).1,
      nodup_combinations fun a ha => (hrest a ha).2⟩
  have hcons : Function.Injective fun entry : String × List String => entry.1 :: entry.2 := by
    rintro ⟨value, values⟩ ⟨value', values'⟩ heq
    cases heq
    rfl
  -- The combinations with one first value are a group, told from the next by that value.
  have hpairs : axis.values.flatMap (fun value => (combinations axes).map (value, ·)) =
      other.values.flatMap (fun value => (combinations others).map (value, ·)) := by
    apply List.map_injective_iff.mpr hcons
    rw [combinations_cons, combinations_cons] at h
    simpa only [List.map_flatMap, List.map_map, Function.comp_def] using h
  obtain ⟨hvalues, hrest⟩ := groups_eq_of_flatMap_eq (hgroup haxes) (hgroup hothers) hpairs
  obtain ⟨value, hvalue⟩ := List.exists_mem_of_ne_nil _ (haxes axis (List.mem_cons_self ..)).1
  exact ⟨hvalues, hrest value hvalue⟩

theorem values_eq_of_combinations_eq {axes others : List Axis}
    (haxes : ∀ axis ∈ axes, axis.values ≠ [] ∧ axis.values.Nodup)
    (hothers : ∀ axis ∈ others, axis.values ≠ [] ∧ axis.values.Nodup)
    (h : combinations axes = combinations others) :
    axes.map (·.values) = others.map (·.values) := by
  induction axes generalizing others with
  | nil =>
    have hempty : [] ∈ combinations others := h ▸ List.mem_singleton_self []
    rw [mem_combinations_iff, List.forall₂_nil_left_iff] at hempty
    rw [hempty]
  | cons axis axes ih =>
    cases others with
    | nil =>
      have hempty : [] ∈ combinations (axis :: axes) := h ▸ List.mem_singleton_self []
      rw [mem_combinations_iff] at hempty
      cases hempty
    | cons other others =>
      obtain ⟨hvalues, hrest⟩ := combinations_cons_inj haxes hothers h
      have htail := ih (fun a ha => haxes a (List.mem_cons_of_mem axis ha))
        (fun a ha => hothers a (List.mem_cons_of_mem other ha)) hrest
      rw [List.map_cons, List.map_cons, hvalues, htail]

theorem axes_eq_of_names_of_values {axes others : List Axis}
    (hnames : axes.map (·.name) = others.map (·.name))
    (hvalues : axes.map (·.values) = others.map (·.values)) : axes = others := by
  have hpair : Function.Injective fun axis : Axis => (axis.name, axis.values) := by
    rintro ⟨name, values⟩ ⟨name', values'⟩ heq
    cases heq
    rfl
  apply List.map_injective_iff.mpr hpair
  rw [← List.zip_map', hnames, hvalues, List.zip_map']

namespace Experiment

variable {e c : Experiment}

theorem Valid.axes_eq (he : e.Valid) (hc : c.Valid) (hnames : c.axisNames = e.axisNames)
    (hkeys : c.keys = e.keys) : c.axes = e.axes := by
  have hcombinations : combinations c.axes = combinations e.axes :=
    List.map_injective_iff.mpr (fun _ _ => Key.mk.inj) hkeys
  exact axes_eq_of_names_of_values hnames
    (values_eq_of_combinations_eq hc.values he.values hcombinations)

end Experiment

/-- A report that was computed for a sound layout belongs to the experiments with
that layout and to no others; where their files and snapshots lie does not
matter. -/
theorem belongsTo_iff_same_layout (e c : Experiment) (he : e.validate = .ok ())
    (hc : c.validate = .ok ()) (dataset : Dataset) (hname : dataset.name = e.name)
    (haxes : dataset.axes = e.axisNames) (hlabels : dataset.labels = e.columns)
    (hkeys : dataset.entries.map (·.1) = e.keys) (r : Report)
    (hr : analyse e.comparison dataset = .ok r) :
    r.belongsTo c = true ↔
      c.name = e.name ∧ c.columns = e.columns ∧ c.comparison = e.comparison ∧ c.axes = e.axes := by
  rw [belongsTo_iff_of_analyse hr, hname, haxes, hlabels, hkeys]
  constructor
  · rintro ⟨hname, hnames, hcolumns, hcomparison, hkeys⟩
    have hsame := (Experiment.valid_of_validate he).axes_eq (Experiment.valid_of_validate hc)
      hnames.symm hkeys.symm
    exact ⟨hname.symm, hcolumns.symm, hcomparison.symm, hsame⟩
  · rintro ⟨hname, hcolumns, hcomparison, hsame⟩
    have hnames : c.axisNames = e.axisNames := congrArg (List.map Axis.name) hsame
    have hkeys : c.keys = e.keys := congrArg CycleCount.keys hsame
    exact ⟨hname.symm, hnames.symm, hcolumns.symm, hcomparison.symm, hkeys.symm⟩

theorem belongsTo_iff_same_layout_accessCost :
    ∃ dataset r, accessCost.assemble accessRuns = .ok dataset ∧
      analyse accessCost.comparison dataset = .ok r ∧
      r.belongsTo { accessCost with root := ⟨"moved"⟩, cache := none } = true ∧
      r.belongsTo { accessCost with axes := [⟨"access", ["write", "read"]⟩] } = false := by
  have hok : (accessCost.assemble accessRuns >>= analyse accessCost.comparison).toOption.isSome := by
    decide +kernel
  obtain ⟨r, hr⟩ := Option.isSome_iff_exists.mp hok
  obtain ⟨dataset, hdataset, hr⟩ := bind_eq_ok_iff.mp (toOption_eq_some_iff.mp hr)
  have hassembles := Experiment.assemble_eq_ok_iff.mp hdataset
  have hkeys : dataset.entries.map (·.1) = accessCost.keys := by rw [keys_entries, hassembles.keys]
  have hiff := fun c hc => belongsTo_iff_same_layout accessCost c rfl hc dataset hassembles.name
    hassembles.axes hassembles.labels hkeys r hr
  refine ⟨dataset, r, hdataset, hr, (hiff _ rfl).mpr ⟨rfl, rfl, rfl, rfl⟩, ?_⟩
  rw [← Bool.not_eq_true, hiff _ rfl]
  decide

end CycleCount
