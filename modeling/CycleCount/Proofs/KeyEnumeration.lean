import Mathlib.Algebra.BigOperators.Group.List.Basic
import CycleCount.Proofs.Layout
import CycleCount.Proofs.Paths

/-! The configurations in their order. Counting through them is counting in a mixed
radix, one place for each axis, so that every combination of values has its turn. Keys
that differ lead to directories that differ. -/

namespace CycleCount

theorem getElem?_flatMap_eq_some_iff {α β : Type} {f : α → List β} {n : Nat}
    (h : ∀ x, (f x).length = n) {xs : List α} {i : Nat} {y : β} :
    (xs.flatMap f)[i]? = some y ↔ ∃ x, xs[i / n]? = some x ∧ (f x)[i % n]? = some y := by
  induction xs generalizing i with
  | nil => simp
  | cons x xs ih =>
    rw [List.flatMap_cons]
    by_cases hi : i < n
    · rw [List.getElem?_append_left (by rwa [h x]), Nat.div_eq_of_lt hi, Nat.mod_eq_of_lt hi]
      simp
    · have hle : n ≤ i := Nat.not_lt.mp hi
      rw [List.getElem?_append_right (by rwa [h x]), h x, ih]
      rcases Nat.eq_zero_or_pos n with rfl | hn
      · have hnil (x : α) : f x = [] := List.eq_nil_of_length_eq_zero (h x)
        simp [hnil]
      · rw [Nat.div_eq_sub_div hn hle, Nat.mod_eq_sub_mod hle, List.getElem?_cons_succ]

/-- The digit of `i` at place `j`, the first place being the most significant one. -/
def mixedDigit (radices : List Nat) (i j : Nat) : Nat :=
  i / (radices.drop (j + 1)).prod % radices[j]?.getD 1

theorem mixedDigit_mod_prod {radices : List Nat} {j : Nat} (h : j < radices.length) (i : Nat) :
    mixedDigit radices (i % radices.prod) j = mixedDigit radices i j := by
  have hradix : radices[j]?.getD 1 = radices[j] := by simp [h]
  have hdvd : (radices.drop (j + 1)).prod * radices[j] ∣ radices.prod := by
    rw [← List.prod_take_mul_prod_drop radices j, List.drop_eq_getElem_cons h, List.prod_cons,
      Nat.mul_comm radices[j]]
    exact Nat.dvd_mul_left ..
  rw [mixedDigit, mixedDigit, hradix, ← Nat.mod_mul_right_div_self, ← Nat.mod_mul_right_div_self,
    Nat.mod_mod_of_dvd i hdvd]

def Axis.size (axis : Axis) : Nat := axis.values.length

theorem length_combinations (axes : List Axis) :
    (combinations axes).length = (axes.map Axis.size).prod := by
  induction axes with
  | nil => rfl
  | cons axis axes ih =>
    rw [combinations_cons, List.length_flatMap]
    simp [ih, Axis.size]

theorem getElem?_combinations_cons {axis : Axis} {axes : List Axis} {i : Nat}
    {values : List String} :
    (combinations (axis :: axes))[i]? = some values ↔ ∃ value rest,
      axis.values[i / (axes.map Axis.size).prod]? = some value ∧
      (combinations axes)[i % (axes.map Axis.size).prod]? = some rest ∧ values = value :: rest := by
  have hlength (value : String) : ((combinations axes).map (value :: ·)).length =
      (axes.map Axis.size).prod := by rw [List.length_map, length_combinations]
  rw [combinations_cons, getElem?_flatMap_eq_some_iff hlength]
  simp only [List.getElem?_map, Option.map_eq_some_iff, exists_and_left, @eq_comm _ values]

theorem value_of_combinations {axes : List Axis} {i : Nat} {values : List String}
    (h : (combinations axes)[i]? = some values) {j : Nat} {axis : Axis}
    (haxis : axes[j]? = some axis) :
    ∃ value, axis.values[mixedDigit (axes.map Axis.size) i j]? = some value ∧
      values[j]? = some value := by
  induction axes generalizing i j values with
  | nil => simp at haxis
  | cons first axes ih =>
    obtain ⟨value, rest, hvalue, hrest, rfl⟩ := getElem?_combinations_cons.mp h
    cases j with
    | zero =>
      cases haxis
      have hlt : i / (axes.map Axis.size).prod < axis.size :=
        (List.getElem?_eq_some_iff.mp hvalue).1
      have hdigit : mixedDigit ((axis :: axes).map Axis.size) i 0 =
          i / (axes.map Axis.size).prod := Nat.mod_eq_of_lt hlt
      exact ⟨value, hdigit ▸ hvalue, rfl⟩
    | succ j =>
      obtain ⟨hj, -⟩ := List.getElem?_eq_some_iff.mp haxis
      have hturn : mixedDigit (axes.map Axis.size) (i % (axes.map Axis.size).prod) j =
          mixedDigit (axes.map Axis.size) i j := mixedDigit_mod_prod (by simpa using hj) i
      obtain ⟨other, hother, hget⟩ := ih hrest haxis
      rw [hturn] at hother
      exact ⟨other, hother, hget⟩

theorem getElem?_keys {axes : List Axis} {i : Nat} {key : Key} :
    (keys axes)[i]? = some key ↔ (combinations axes)[i]? = some key.values := by
  obtain ⟨values⟩ := key
  simp [keys]

theorem mem_keys_iff_forall₂ {axes : List Axis} {key : Key} :
    key ∈ keys axes ↔ List.Forall₂ (fun value axis => value ∈ axis.values) key.values axes := by
  obtain ⟨values⟩ := key
  simp [keys, mem_combinations_iff]

theorem components_leafDirectory (root : Path) {values : List String}
    (h : ∀ value ∈ values, Path.IsName value) :
    (leafDirectory root ⟨values⟩).components = root.components ++ values.map .name := by
  induction values generalizing root with
  | nil => simp [leafDirectory]
  | cons value values ih =>
    obtain ⟨hvalue, hvalues⟩ := List.forall_mem_cons.mp h
    have hfirst : leafDirectory root ⟨value :: values⟩ =
        leafDirectory (root.join ⟨value⟩) ⟨values⟩ := rfl
    rw [hfirst, ih (root.join ⟨value⟩) hvalues, Path.components_join root hvalue]
    simp

theorem foldl_enter_names (location : Disk.Location) (values : List String) :
    (values.map Path.Component.name).foldl Disk.enter location = location ++ values := by
  induction values generalizing location with
  | nil => simp
  | cons value values ih => simp [Disk.enter, ih]

theorem place_leafDirectory (disk : Disk) (root : Path) {values : List String}
    (h : ∀ value ∈ values, Path.IsName value) :
    disk.place (leafDirectory root ⟨values⟩) = disk.place root ++ values := by
  rw [Disk.place, Disk.placeOf, components_leafDirectory root h, List.foldl_append,
    foldl_enter_names]
  rfl

theorem leafDirectory_ne (root : Path) {key other : Key} (hne : key ≠ other)
    (hkey : ∀ value ∈ key.values, Path.IsName value)
    (hother : ∀ value ∈ other.values, Path.IsName value) :
    (leafDirectory root key).sameAs (leafDirectory root other) = false ∧
      ∀ disk : Disk,
        disk.place (leafDirectory root key) ≠ disk.place (leafDirectory root other) := by
  obtain ⟨values⟩ := key
  obtain ⟨others⟩ := other
  have hvalues : values ≠ others := fun heq => hne (congrArg Key.mk heq)
  have hname : Function.Injective Path.Component.name := fun _ _ => Path.Component.name.inj
  constructor
  · rw [Path.sameAs, components_leafDirectory root hkey, components_leafDirectory root hother,
      beq_eq_false_iff_ne]
    intro heq
    have hnames := List.append_cancel_left heq
    exact hvalues (List.map_injective_iff.mpr hname hnames)
  · intro disk heq
    rw [place_leafDirectory disk root hkey, place_leafDirectory disk root hother] at heq
    exact hvalues (List.append_cancel_left heq)

/-- The keys are as many as the product of the axis sizes. The key at position `i` has on
each axis the value picked by the digit of `i` in the mixed radix of these sizes, and the
keys are all the combinations of values. Where no axis repeats a value, which validation
sees to, no key occurs twice, and where the values are plain names, no two keys share a
directory. -/
theorem keys_enumerate (axes : List Axis) :
    (keys axes).length = (axes.map Axis.size).prod ∧
    (∀ (i : Nat) (key : Key), (keys axes)[i]? = some key →
      key.values.length = axes.length ∧
      ∀ (j : Nat) (axis : Axis), axes[j]? = some axis → ∃ value,
        axis.values[mixedDigit (axes.map Axis.size) i j]? = some value ∧
        key.get? j = some value) ∧
    (∀ key : Key, key ∈ keys axes ↔
      List.Forall₂ (fun value axis => value ∈ axis.values) key.values axes) ∧
    ((∀ axis ∈ axes, axis.values.Nodup) → (keys axes).Nodup) ∧
    (∀ e : Experiment, e.validate = .ok () → ∀ axis ∈ e.axes, axis.values.Nodup) ∧
    ((∀ axis ∈ axes, ∀ value ∈ axis.values, Path.IsName value) →
      ∀ (root : Path), ∀ key ∈ keys axes, ∀ other ∈ keys axes, key ≠ other →
        (leafDirectory root key).sameAs (leafDirectory root other) = false ∧
        ∀ disk : Disk,
          disk.place (leafDirectory root key) ≠ disk.place (leafDirectory root other)) := by
  have hlength : (keys axes).length = (axes.map Axis.size).prod := by
    rw [keys, List.length_map, length_combinations]
  refine ⟨hlength, fun i key hkey => ⟨?_, fun j axis haxis => ?_⟩, fun key => mem_keys_iff_forall₂,
    fun hnodup => ?_, fun e he axis haxis => ?_, fun hnames root key hkey other hother hne => ?_⟩
  · exact (mem_keys_iff_forall₂.mp (List.mem_of_getElem? hkey)).length_eq
  · exact value_of_combinations (getElem?_keys.mp hkey) haxis
  · exact (nodup_combinations hnodup).map fun _ _ => Key.mk.inj
  · exact ((Experiment.valid_of_validate he).values axis haxis).2
  · have hplain : ∀ key ∈ keys axes, ∀ value ∈ key.values, Path.IsName value := by
      intro key hkey value hvalue
      obtain ⟨axis, haxis, hmem⟩ := exists_right_of_forall₂ (mem_keys_iff_forall₂.mp hkey) hvalue
      exact hnames axis haxis value hmem
    exact leafDirectory_ne root hne (hplain key hkey) (hplain other hother)

def accessAxes : List Axis :=
  [⟨"mpk", ["with_mpk", "without_mpk"]⟩, ⟨"access", ["read", "write", "read_write"]⟩]

theorem keys_enumerate_accessAxes :
    (∀ axis ∈ accessAxes, axis.values.Nodup) ∧
    (∀ axis ∈ accessAxes, ∀ value ∈ axis.values, Path.IsName value) ∧
    (keys accessAxes).length = 6 ∧ (keys accessAxes).Nodup ∧
    (keys accessAxes)[4]? = some ⟨["without_mpk", "write"]⟩ ∧
    (leafDirectory ⟨"data"⟩ ⟨["with_mpk", "read"]⟩).sameAs
      (leafDirectory ⟨"data"⟩ ⟨["with_mpk", "write"]⟩) = false := by
  have hnodup : ∀ axis ∈ accessAxes, axis.values.Nodup := by decide
  have hnames : ∀ axis ∈ accessAxes, ∀ value ∈ axis.values, Path.IsName value := by decide
  obtain ⟨hlength, -, -, hdistinct, -, hdirectories⟩ := keys_enumerate accessAxes
  refine ⟨hnodup, hnames, hlength, hdistinct hnodup, by decide, ?_⟩
  exact (hdirectories hnames ⟨"data"⟩ ⟨["with_mpk", "read"]⟩ (by decide)
    ⟨["with_mpk", "write"]⟩ (by decide) (by decide)).1

end CycleCount
