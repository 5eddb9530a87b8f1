import Mathlib.Data.List.Nodup

/-! Association lists: what a look-up finds, and what it finds where no key occurs
twice. -/

namespace CycleCount

variable {α β : Type} [BEq α] [LawfulBEq α] {entries : List (α × β)} {key : α} {value : β}

theorem isSome_lookup_iff : (entries.lookup key).isSome ↔ key ∈ entries.map (·.1) := by
  induction entries with
  | nil => simp
  | cons entry entries ih =>
    rw [List.lookup_cons, List.map_cons, List.mem_cons]
    by_cases h : key = entry.1
    · simp [h]
    · simp [beq_false_of_ne h, h, ih]

omit [BEq α] [LawfulBEq α] in
theorem keys_filterMap {γ : Type} {f : α × β → Option (α × γ)}
    (h : ∀ entry ∈ entries, (f entry).map (·.1) = some entry.1) :
    (entries.filterMap f).map (·.1) = entries.map (·.1) := by
  rw [List.map_filterMap, List.filterMap_congr h]
  exact congrFun List.filterMap_eq_map entries

theorem mem_of_lookup_eq_some (h : entries.lookup key = some value) : (key, value) ∈ entries := by
  obtain ⟨before, after, rfl, -⟩ := List.lookup_eq_some_iff.mp h
  simp

def IsFirst (entries : List (α × β)) (key : α) (value : β) : Prop :=
  ∃ before after, entries = before ++ (key, value) :: after ∧ key ∉ before.map (·.1)

def IsLast (entries : List (α × β)) (key : α) (value : β) : Prop :=
  ∃ before after, entries = before ++ (key, value) :: after ∧ key ∉ after.map (·.1)

theorem lookup_eq_some_iff_isFirst :
    entries.lookup key = some value ↔ IsFirst entries key value := by
  have habsent : ∀ before : List (α × β),
      (∀ entry ∈ before, (key != entry.1) = true) ↔ key ∉ before.map (·.1) := by
    intro before
    simp only [bne_iff_ne, List.mem_map, not_exists, not_and]
    exact forall₂_congr fun _ _ => ne_comm
  simp only [List.lookup_eq_some_iff, habsent, IsFirst]

omit [BEq α] [LawfulBEq α] in
theorem isFirst_reverse_iff : IsFirst entries.reverse key value ↔ IsLast entries key value := by
  constructor
  · rintro ⟨before, after, heq, habsent⟩
    refine ⟨after.reverse, before.reverse, ?_, by simpa using habsent⟩
    rw [← List.reverse_reverse entries, heq]
    simp
  · rintro ⟨before, after, rfl, habsent⟩
    exact ⟨after.reverse, before.reverse, by simp, by simpa using habsent⟩

theorem lookup_eq_some_iff_mem (hkeys : (entries.map (·.1)).Nodup) :
    entries.lookup key = some value ↔ (key, value) ∈ entries := by
  refine ⟨mem_of_lookup_eq_some, fun h => ?_⟩
  induction entries with
  | nil => cases h
  | cons entry entries ih =>
    rw [List.map_cons, List.nodup_cons] at hkeys
    rw [List.lookup_cons]
    rcases List.mem_cons.mp h with rfl | h
    · simp
    · have hne : key ≠ entry.1 := by
        rintro rfl
        exact hkeys.1 (List.mem_map.mpr ⟨_, h, rfl⟩)
      simp [beq_false_of_ne hne, ih hkeys.2 h]

theorem lookup_replace [DecidableEq α] (entries : List (α × β)) (key other : α) (value : β) :
    (entries.map fun entry => if entry.1 = key then (key, value) else entry).lookup other =
      if other = key then (entries.lookup key).map fun _ => value else entries.lookup other := by
  induction entries with
  | nil => simp
  | cons entry entries ih =>
    obtain ⟨name, old⟩ := entry
    rw [List.map_cons]
    by_cases hname : name = key
    · subst hname
      by_cases hother : other = name
      · simp [hother]
      · simp [List.lookup_cons, hother, beq_false_of_ne hother, ih]
    · by_cases hother : other = key
      · subst hother
        simp [List.lookup_cons, hname, beq_false_of_ne (Ne.symm hname), ih]
      · simp [List.lookup_cons, hname, hother, ih]

theorem lookup_filter_ne [DecidableEq α] (entries : List (α × β)) (key other : α) :
    (entries.filter fun entry => entry.1 ≠ key).lookup other =
      if other = key then none else entries.lookup other := by
  induction entries with
  | nil => simp
  | cons entry entries ih =>
    obtain ⟨name, value⟩ := entry
    by_cases hname : name = key
    · subst hname
      rw [List.filter_cons_of_neg (by simp), ih]
      split_ifs with hother
      · rfl
      · rw [List.lookup_cons, beq_false_of_ne hother]
    · rw [List.filter_cons_of_pos (by simpa using hname), List.lookup_cons, List.lookup_cons, ih]
      by_cases hother : other = name
      · subst hother
        simp [hname]
      · simp [beq_false_of_ne hother]

end CycleCount
