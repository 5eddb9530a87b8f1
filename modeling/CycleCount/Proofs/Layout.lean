import Mathlib.Data.List.Nodup
import CycleCount.Experiment.Basic
import CycleCount.Proofs.Outcome

/-! Layouts that pass validation: names and values occur once each, so the
combinations of values are distinct configurations. -/

namespace CycleCount

theorem firstRepeat?_eq_none_iff {seen xs : List String} :
    firstRepeat? seen xs = none ↔ xs.Nodup ∧ ∀ x ∈ xs, x ∉ seen := by
  induction xs generalizing seen with
  | nil => simp [firstRepeat?]
  | cons x xs ih =>
    rw [firstRepeat?]
    split_ifs with hx
    · simp only [List.contains_iff_mem] at hx
      simp [hx]
    · simp only [List.contains_iff_mem] at hx
      rw [ih, List.nodup_cons]
      constructor
      · rintro ⟨hnodup, hseen⟩
        refine ⟨⟨fun hmem => hseen x hmem (List.mem_cons_self ..), hnodup⟩, fun y hy => ?_⟩
        rcases List.mem_cons.mp hy with rfl | hy
        · exact hx
        · exact fun h => hseen y hy (List.mem_cons_of_mem x h)
      · rintro ⟨⟨hnot, hnodup⟩, hseen⟩
        refine ⟨hnodup, fun y hy h => ?_⟩
        rcases List.mem_cons.mp h with rfl | h
        · exact hnot hy
        · exact hseen y (List.mem_cons_of_mem x hy) h

theorem of_checkAxes {seen : List String} {axes : List Axis} (h : checkAxes seen axes = .ok ()) :
    ((axes.map (·.name)).Nodup ∧ ∀ axis ∈ axes, axis.name ∉ seen) ∧
      ∀ axis ∈ axes, axis.values ≠ [] ∧ axis.values.Nodup := by
  induction axes generalizing seen with
  | nil => simp
  | cons axis axes ih =>
    rw [checkAxes] at h
    split_ifs at h with hseen hempty
    split at h
    · cases h
    · rename_i hrepeat
      obtain ⟨⟨hnames, hnew⟩, hvalues⟩ := ih h
      simp only [List.contains_iff_mem] at hseen
      refine ⟨⟨?_, ?_⟩, ?_⟩
      · rw [List.map_cons, List.nodup_cons]
        refine ⟨fun hmem => ?_, hnames⟩
        obtain ⟨other, hother, hname⟩ := List.mem_map.mp hmem
        exact hnew other hother (hname ▸ List.mem_cons_self ..)
      · intro other hother
        rcases List.mem_cons.mp hother with rfl | hother
        · exact hseen
        · exact fun hin => hnew other hother (List.mem_cons_of_mem _ hin)
      · intro other hother
        rcases List.mem_cons.mp hother with rfl | hother
        · exact ⟨by simpa using hempty, (firstRepeat?_eq_none_iff.mp hrepeat).1⟩
        · exact hvalues other hother

structure Experiment.Valid (e : Experiment) : Prop where
  axes : e.axes ≠ []
  axisNames : e.axisNames.Nodup
  values : ∀ axis ∈ e.axes, axis.values ≠ [] ∧ axis.values.Nodup
  columns : e.columns ≠ []
  columnNames : e.columns.Nodup
  comparison : e.checkComparison = .ok ()

theorem Experiment.valid_of_validate {e : Experiment} (h : e.validate = .ok ()) : e.Valid := by
  unfold validate at h
  split_ifs at h with haxes hcolumns
  split at h
  · cases h
  · rename_i hrepeat
    obtain ⟨_, hcheck, hcomparison⟩ := bind_eq_ok_iff.mp h
    obtain ⟨⟨hnames, -⟩, hvalues⟩ := of_checkAxes hcheck
    exact ⟨by simpa using haxes, hnames, hvalues, by simpa using hcolumns,
      (firstRepeat?_eq_none_iff.mp hrepeat).1, hcomparison⟩

theorem nodup_combinations {axes : List Axis} (h : ∀ axis ∈ axes, axis.values.Nodup) :
    (combinations axes).Nodup := by
  induction axes with
  | nil => simp [combinations]
  | cons axis axes ih =>
    have hrest := ih fun other hother => h other (List.mem_cons_of_mem axis hother)
    rw [combinations_cons, List.nodup_flatMap]
    refine ⟨fun value _ => hrest.map (List.cons_injective ..), ?_⟩
    refine (h axis (List.mem_cons_self ..)).imp fun hne => ?_
    simp only [Function.onFun, List.disjoint_left, List.mem_map]
    rintro _ ⟨rest, -, rfl⟩ ⟨other, -, heq⟩
    exact hne (List.cons.inj heq).1.symm

theorem Experiment.Valid.nodup_keys {e : Experiment} (h : e.Valid) : e.keys.Nodup :=
  (nodup_combinations fun axis haxis => (h.values axis haxis).2).map fun _ _ => Key.mk.inj

theorem mem_combinations_iff {axes : List Axis} {values : List String} :
    values ∈ combinations axes ↔
      List.Forall₂ (fun value axis => value ∈ axis.values) values axes := by
  induction axes generalizing values with
  | nil => simp [combinations]
  | cons axis axes ih =>
    simp only [combinations_cons, List.mem_flatMap, List.mem_map, ih, List.forall₂_cons_right_iff]
    constructor
    · rintro ⟨value, hvalue, rest, hrest, rfl⟩
      exact ⟨value, rest, hvalue, hrest, rfl⟩
    · rintro ⟨value, rest, hvalue, hrest, rfl⟩
      exact ⟨value, hvalue, rest, hrest, rfl⟩

theorem set_mem_combinations {axes : List Axis} {values : List String}
    (h : values ∈ combinations axes) {index : Nat} {axis : Axis} (haxis : axes[index]? = some axis)
    {value : String} (hvalue : value ∈ axis.values) :
    values.set index value ∈ combinations axes := by
  rw [mem_combinations_iff] at h ⊢
  induction h generalizing index with
  | nil => simp at haxis
  | cons hfirst hrest ih =>
    cases index with
    | zero =>
      cases haxis
      exact .cons hvalue hrest
    | succ index => exact .cons hfirst (ih haxis)

theorem Experiment.mem_keys_iff {e : Experiment} {key : Key} :
    key ∈ e.keys ↔ key.values ∈ combinations e.axes := by
  obtain ⟨values⟩ := key
  simp [keys, CycleCount.keys]

end CycleCount
