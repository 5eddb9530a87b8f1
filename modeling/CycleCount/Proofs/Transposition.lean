import CycleCount.Proofs.Outcome
import CycleCount.Trials.Reshape
import Mathlib.Order.Nat

/-! Reshaping is a checked transposition. Measurements are accepted exactly if they
make up whole trials that name the same functions, and then row `i` holds what the
trials say in their `i`-th place. -/

namespace CycleCount

structure Measurement where
  line : Nat
  function : String
  cycles : UInt64
deriving DecidableEq, Repr

namespace Measurement

def Repeats (functions : Nat) (input : List Measurement) : Prop :=
  ∀ k < input.length, input[k]?.map (·.function) = input[k % functions]?.map (·.function)

structure WholeTrials (shape : TrialShape) (trials : Nat) (input : List Measurement) : Prop where
  pos : 0 < trials
  promised : ∀ n ∈ shape.trials, n = trials
  length : input.length = trials * shape.functions
  repeats : Repeats shape.functions input

/-- There is a row for each function of a trial, and its cycle counts are those of
the measurements in the same place of every trial, in order. -/
structure Transposed (shape : TrialShape) (trials : Nat) (input : List Measurement)
    (rows : List FunctionRow) : Prop where
  length : rows.length = shape.functions
  names : ∀ (i : Nat) (row : FunctionRow), rows[i]? = some row →
    input[i]?.map (·.function) = some row.function
  counts : ∀ row ∈ rows, row.cycles.length = trials
  cycles : ∀ (i : Nat) (row : FunctionRow), rows[i]? = some row → ∀ j < trials,
    row.cycles[j]? = input[j * shape.functions + i]?.map (·.cycles)

structure Fits (shape : TrialShape) (input : List Measurement) : Prop where
  promised : ∀ n ∈ shape.trials, input.length ≤ n * shape.functions
  repeats : Repeats shape.functions input

structure Follows (shape : TrialShape) (input : List Measurement) (m : Measurement) : Prop where
  promised : ∀ n ∈ shape.trials, input.length < n * shape.functions
  repeats : shape.functions ≤ input.length →
    input[input.length % shape.functions]?.map (·.function) = some m.function

variable {shape : TrialShape} {input rest : List Measurement} {m : Measurement}

theorem fits_nil (shape : TrialShape) : Fits shape [] :=
  ⟨fun _ _ => Nat.zero_le _, nofun⟩

theorem Fits.of_append (h : Fits shape (input ++ rest)) : Fits shape input := by
  have hlength : (input ++ rest).length = input.length + rest.length := List.length_append
  constructor
  · intro n hn
    have hpromised := h.promised n hn
    omega
  · intro k hk
    have hmod : k % shape.functions ≤ k := Nat.mod_le k shape.functions
    have hrepeats := h.repeats k (by omega)
    rw [List.getElem?_append_left hk, List.getElem?_append_left (by omega)] at hrepeats
    exact hrepeats

theorem fits_concat_iff : Fits shape (input ++ [m]) ↔ Fits shape input ∧ Follows shape input m := by
  have hlength : (input ++ [m]).length = input.length + 1 := by simp
  have hlast : (input ++ [m])[input.length]? = some m := List.getElem?_concat_length
  constructor
  · intro h
    refine ⟨h.of_append, fun n hn => ?_, fun hfull => ?_⟩
    · have hpromised := h.promised n hn
      omega
    · have hmod : input.length % shape.functions < shape.functions :=
        Nat.mod_lt _ shape.functions_pos
      have hrepeats := h.repeats input.length (by omega)
      rw [hlast, List.getElem?_append_left (by omega)] at hrepeats
      exact hrepeats.symm
  · rintro ⟨hfits, hfollows⟩
    constructor
    · intro n hn
      have hpromised := hfollows.promised n hn
      omega
    · intro k hk
      rcases Nat.lt_or_ge k input.length with hold | hnew
      · have hmod : k % shape.functions ≤ k := Nat.mod_le k shape.functions
        rw [List.getElem?_append_left hold, List.getElem?_append_left (by omega)]
        exact hfits.repeats k hold
      · obtain rfl : k = input.length := by omega
        rcases Nat.lt_or_ge input.length shape.functions with hfirst | hfull
        · rw [Nat.mod_eq_of_lt hfirst]
        · have hmod : input.length % shape.functions < shape.functions :=
            Nat.mod_lt _ shape.functions_pos
          rw [hlast, List.getElem?_append_left (by omega)]
          exact (hfollows.repeats hfull).symm

theorem Transposed.eq {trials : Nat} {rows rows' : List FunctionRow}
    (h : Transposed shape trials input rows) (h' : Transposed shape trials input rows') :
    rows = rows' := by
  apply List.ext_getElem
  · rw [h.length, h'.length]
  · intro i hi hi'
    have hrow := List.getElem?_eq_getElem hi
    have hrow' := List.getElem?_eq_getElem hi'
    have hcounts := h.counts _ (List.getElem_mem hi)
    have hcounts' := h'.counts _ (List.getElem_mem hi')
    have hname : rows[i].function = rows'[i].function :=
      Option.some.inj ((h.names i _ hrow).symm.trans (h'.names i _ hrow'))
    have hcycles : rows[i].cycles = rows'[i].cycles := by
      apply List.ext_getElem?
      intro j
      rcases Nat.lt_or_ge j trials with hj | hj
      · rw [h.cycles i _ hrow j hj, h'.cycles i _ hrow' j hj]
      · rw [List.getElem?_eq_none (hcounts ▸ hj), List.getElem?_eq_none (hcounts' ▸ hj)]
    calc rows[i] = ⟨rows[i].function, rows[i].cycles⟩ := rfl
      _ = ⟨rows'[i].function, rows'[i].cycles⟩ := by rw [hname, hcycles]
      _ = rows'[i] := rfl

end Measurement

theorem position_eq_iff {functions trial slot n : Nat} (hslot : slot < functions) :
    trial * functions + slot = n ↔ n / functions = trial ∧ n % functions = slot := by
  rw [Nat.div_mod_unique (Nat.zero_lt_of_lt hslot), Nat.mul_comm, Nat.add_comm]
  exact (and_iff_left hslot).symm

theorem position_lt_iff {functions trial slot trials : Nat} (hslot : slot < functions) :
    trial * functions + slot < trials * functions ↔ trial < trials := by
  have htrial : (trial * functions + slot) / functions = trial :=
    ((position_eq_iff hslot).mp rfl).1
  rw [← Nat.div_lt_iff_lt_mul (Nat.zero_lt_of_lt hslot), htrial]

theorem getElem?_concat_of_ne {α : Type} {xs : List α} {n : Nat} (h : n ≠ xs.length) (x : α) :
    (xs ++ [x])[n]? = xs[n]? := by
  rcases Nat.lt_or_ge n xs.length with hlt | hge
  · exact List.getElem?_append_left hlt
  · have hlong : (xs ++ [x]).length ≤ n := by
      rw [List.length_append, List.length_singleton]
      omega
    rw [List.getElem?_eq_none hlong, List.getElem?_eq_none hge]

open Measurement

namespace TrialAccumulator

variable {acc acc' : TrialAccumulator} {input rest : List Measurement} {m : Measurement}

theorem allows_iff {shape : TrialShape} {trial : Nat} :
    allows shape trial = true ↔ ∀ n ∈ shape.trials, trial < n := by
  simp [allows, Option.all_eq_true]

section InPlace

variable {α β : Type} (acc : TrialAccumulator)

theorem run_get_bind (f : TrialAccumulator → InPlace α) :
    (get >>= f : InPlace α).run.run acc = (f acc).run.run acc := rfl

theorem run_modify (f : TrialAccumulator → TrialAccumulator) :
    (modify f : InPlace PUnit).run.run acc = some (.ok (), f acc) := rfl

theorem run_modify_bind (f : TrialAccumulator → TrialAccumulator) (g : PUnit → InPlace α) :
    (modify f >>= g : InPlace α).run.run acc = (g ()).run.run (f acc) := rfl

theorem run_read_bind (b : Option β) (f : β → InPlace α) :
    (liftM b >>= f : InPlace α).run.run acc = b.bind fun b => (f b).run.run acc := by
  cases b with
  | none => rfl
  | some b => rfl

end InPlace

/-- What a call does: the first trial opens the rows, and a later one adds to the row of
the same function. Every check stands before the first change. -/
theorem run_feed (acc : TrialAccumulator) (line : Nat) (function : String) (cycles : UInt64) :
    (feed line function cycles).run.run acc =
      if !allows acc.shape (acc.seen / acc.shape.functions) then
        some (.error (.malformedLine acc.origin line
          (.beyondTrials (acc.shape.trials.getD 0))), acc)
      else if acc.seen / acc.shape.functions = 0 then
        some (.ok (), { acc with
          rows := acc.rows ++ [⟨function, [cycles]⟩], seen := acc.seen + 1 })
      else acc.rows[acc.seen % acc.shape.functions]?.bind fun row =>
        if row.function ≠ function then
          some (.error (.identifierMismatch acc.origin.text line row.function function), acc)
        else some (.ok (), { acc with
          rows := acc.rows.set (acc.seen % acc.shape.functions)
            { row with cycles := row.cycles ++ [cycles] }
          seen := acc.seen + 1 }) := by
  simp only [feed, run_get_bind]
  cases hallowed : allows acc.shape (acc.seen / acc.shape.functions) with
  | false => rfl
  | true =>
    simp only [Bool.not_true, Bool.false_eq_true, if_false]
    by_cases hfirst : acc.seen / acc.shape.functions = 0
    · simp only [hfirst, if_true, run_modify_bind, run_modify]
    · simp only [hfirst, if_false]
      rw [run_read_bind]
      congr 1
      funext row
      split_ifs with hname
      · rfl
      · simp only [run_modify_bind, run_modify]

theorem push_eq_ok_iff {line : Nat} {function : String} {cycles : UInt64} :
    acc.push line function cycles = .ok acc' ↔
      (∀ n ∈ acc.shape.trials, acc.seen < n * acc.shape.functions) ∧
      (acc.seen < acc.shape.functions ∧
          acc' = { acc with rows := acc.rows ++ [⟨function, [cycles]⟩], seen := acc.seen + 1 } ∨
        acc.shape.functions ≤ acc.seen ∧
          ((∃ row, acc.rows[acc.seen % acc.shape.functions]? = some row ∧
              row.function = function ∧
              acc' = { acc with
                rows := acc.rows.set (acc.seen % acc.shape.functions)
                  { row with cycles := row.cycles ++ [cycles] }
                seen := acc.seen + 1 }) ∨
            acc.rows[acc.seen % acc.shape.functions]? = none ∧ acc' = acc)) := by
  have hpos := acc.shape.functions_pos
  have hallows : allows acc.shape (acc.seen / acc.shape.functions) = true ↔
      ∀ n ∈ acc.shape.trials, acc.seen < n * acc.shape.functions := by
    rw [allows_iff]
    exact forall₂_congr fun n _ => Nat.div_lt_iff_lt_mul hpos
  have hfirst : acc.seen / acc.shape.functions = 0 ↔ acc.seen < acc.shape.functions :=
    Nat.div_eq_zero_iff_lt hpos
  rw [← hallows, ← hfirst, ← Nat.not_lt, ← hfirst, push, run_feed]
  cases hallowed : allows acc.shape (acc.seen / acc.shape.functions) with
  | false => simp
  | true =>
    by_cases hzero : acc.seen / acc.shape.functions = 0
    · simp [hzero, eq_comm]
    · simp only [hzero, Bool.not_true, Bool.false_eq_true, if_false, true_and, false_and, false_or,
        not_false_eq_true]
      cases acc.rows[acc.seen % acc.shape.functions]? with
      | none => simp [eq_comm]
      | some row =>
        by_cases hname : row.function = function
        · simp [hname, eq_comm]
        · simp [hname]

def cyclesOf (acc : TrialAccumulator) (i : Nat) : List UInt64 :=
  (acc.rows[i]?.map (·.cycles)).getD []

structure Holds (acc : TrialAccumulator) (input : List Measurement) : Prop where
  seen : acc.seen = input.length
  names : acc.rows.map (·.function) = (input.take acc.shape.functions).map (·.function)
  cycles : ∀ i < acc.shape.functions, ∀ j,
    (acc.cyclesOf i)[j]? = input[j * acc.shape.functions + i]?.map (·.cycles)

theorem holds_nil (shape : TrialShape) (origin : Path) : Holds { shape, origin } [] :=
  ⟨rfl, by simp, fun _ _ _ => rfl⟩

theorem Holds.length (h : acc.Holds input) :
    acc.rows.length = min acc.shape.functions input.length := by
  have hnames := congrArg List.length h.names
  rwa [List.length_map, List.length_map, List.length_take] at hnames

theorem Holds.slot_lt (h : acc.Holds input) (hfull : acc.shape.functions ≤ acc.seen) :
    acc.seen % acc.shape.functions < acc.rows.length := by
  have hslot := Nat.mod_lt acc.seen acc.shape.functions_pos
  have hlength := h.length
  have hseen := h.seen
  omega

theorem Holds.push_cases (h : acc.Holds input)
    (hpush : acc.push m.line m.function m.cycles = .ok acc') :
    acc.seen < acc.shape.functions ∧
        acc' = { acc with
          rows := acc.rows ++ [⟨m.function, [m.cycles]⟩], seen := acc.seen + 1 } ∨
      acc.shape.functions ≤ acc.seen ∧ ∃ row,
        acc.rows[acc.seen % acc.shape.functions]? = some row ∧
          acc' = { acc with
            rows := acc.rows.set (acc.seen % acc.shape.functions)
              { row with cycles := row.cycles ++ [m.cycles] }
            seen := acc.seen + 1 } := by
  obtain ⟨-, hfirst | ⟨hfull, ⟨row, hrow, -, hnext⟩ | ⟨hmissing, -⟩⟩⟩ := push_eq_ok_iff.mp hpush
  · exact .inl hfirst
  · exact .inr ⟨hfull, row, hrow, hnext⟩
  · exact absurd (h.slot_lt hfull) (Nat.not_lt.mpr (List.getElem?_eq_none_iff.mp hmissing))

theorem Holds.exists_push_iff (h : acc.Holds input) :
    (∃ acc', acc.push m.line m.function m.cycles = .ok acc') ↔ Follows acc.shape input m := by
  have hseen := h.seen
  have hslot : acc.seen % acc.shape.functions < acc.shape.functions :=
    Nat.mod_lt _ acc.shape.functions_pos
  have hname : acc.rows[acc.seen % acc.shape.functions]?.map (·.function) =
      input[input.length % acc.shape.functions]?.map (·.function) := by
    rw [← List.getElem?_map, h.names, List.getElem?_map, List.getElem?_take_of_lt hslot, hseen]
  constructor
  · rintro ⟨acc', hpush⟩
    obtain ⟨hpromised, hstep⟩ := push_eq_ok_iff.mp hpush
    refine ⟨fun n hn => hseen ▸ hpromised n hn, fun hfull => ?_⟩
    rw [← hseen] at hfull
    rcases hstep with ⟨hfirst, -⟩ | ⟨-, ⟨row, hrow, hmatch, -⟩ | ⟨hmissing, -⟩⟩
    · omega
    · rw [← hname, hrow, ← hmatch]
      rfl
    · exact absurd (h.slot_lt hfull) (Nat.not_lt.mpr (List.getElem?_eq_none_iff.mp hmissing))
  · rintro ⟨hpromised, hrepeats⟩
    have hallowed : ∀ n ∈ acc.shape.trials, acc.seen < n * acc.shape.functions :=
      fun n hn => hseen ▸ hpromised n hn
    rcases Nat.lt_or_ge acc.seen acc.shape.functions with hfirst | hfull
    · exact ⟨_, push_eq_ok_iff.mpr ⟨hallowed, .inl ⟨hfirst, rfl⟩⟩⟩
    · have hrepeated := hrepeats (hseen ▸ hfull)
      rw [← hname] at hrepeated
      obtain ⟨row, hrow, hmatch⟩ := Option.map_eq_some_iff.mp hrepeated
      exact ⟨_, push_eq_ok_iff.mpr ⟨hallowed, .inr ⟨hfull, .inl ⟨row, hrow, hmatch, rfl⟩⟩⟩⟩

theorem Holds.names_push (h : acc.Holds input)
    (hpush : acc.push m.line m.function m.cycles = .ok acc') :
    acc'.rows.map (·.function) =
      ((input ++ [m]).take acc.shape.functions).map (·.function) := by
  have hseen := h.seen
  obtain ⟨hfirst, rfl⟩ | ⟨hfull, row, hrow, rfl⟩ := h.push_cases hpush
  · have hshort : (input ++ [m]).length ≤ acc.shape.functions := by
      rw [List.length_append, List.length_singleton]
      omega
    rw [List.map_append, h.names, List.take_of_length_le hshort,
      List.take_of_length_le (by omega), List.map_append]
    rfl
  · rw [List.take_append_of_le_length (by omega), ← h.names, List.map_set]
    obtain ⟨hlt, hrow⟩ := List.getElem?_eq_some_iff.mp hrow
    have hmember : acc.seen % acc.shape.functions < (acc.rows.map (·.function)).length := by
      rwa [List.length_map]
    have hname : row.function = (acc.rows.map (·.function))[acc.seen % acc.shape.functions] := by
      rw [List.getElem_map, hrow]
    rw [hname]
    exact List.set_getElem_self hmember

theorem Holds.cyclesOf_push (h : acc.Holds input)
    (hpush : acc.push m.line m.function m.cycles = .ok acc') (i : Nat) :
    acc'.cyclesOf i =
      if i = input.length % acc.shape.functions then acc.cyclesOf i ++ [m.cycles]
      else acc.cyclesOf i := by
  have hseen := h.seen
  have hlength := h.length
  obtain ⟨hfirst, rfl⟩ | ⟨hfull, row, hrow, rfl⟩ := h.push_cases hpush
  · rw [Nat.mod_eq_of_lt (hseen ▸ hfirst)]
    have hrows : acc.rows.length = input.length := by omega
    unfold cyclesOf
    split_ifs with hi
    · rw [hi, ← hrows, List.getElem?_concat_length, List.getElem?_eq_none (Nat.le_refl _)]
      rfl
    · rw [getElem?_concat_of_ne (hrows ▸ hi)]
  · obtain ⟨hmember, -⟩ := List.getElem?_eq_some_iff.mp hrow
    unfold cyclesOf
    rw [← hseen]
    split_ifs with hi
    · rw [hi, List.getElem?_set_self hmember, hrow]
      rfl
    · rw [List.getElem?_set_ne (Ne.symm hi)]

theorem Holds.lt_length_cyclesOf_iff (h : acc.Holds input) {i : Nat}
    (hi : i < acc.shape.functions) (j : Nat) :
    j < (acc.cyclesOf i).length ↔ j * acc.shape.functions + i < input.length := by
  rw [← Nat.not_le, ← Nat.not_le, ← List.getElem?_eq_none_iff, ← List.getElem?_eq_none_iff,
    h.cycles i hi j, Option.map_eq_none_iff]

theorem Holds.length_row (h : acc.Holds input) {i : Nat} (hi : i < acc.shape.functions) :
    (acc.cyclesOf i).length = input.length / acc.shape.functions +
      if i < input.length % acc.shape.functions then 1 else 0 := by
  have hslot : input.length % acc.shape.functions < acc.shape.functions :=
    Nat.mod_lt _ acc.shape.functions_pos
  have hdivision := Nat.div_add_mod' input.length acc.shape.functions
  apply eq_of_forall_lt_iff
  intro j
  rw [h.lt_length_cyclesOf_iff hi]
  rcases Nat.lt_trichotomy j (input.length / acc.shape.functions) with hlt | rfl | hgt
  · have hscale : (j + 1) * acc.shape.functions ≤
        input.length / acc.shape.functions * acc.shape.functions := Nat.mul_le_mul_right _ hlt
    rw [Nat.succ_mul] at hscale
    omega
  · split_ifs <;> omega
  · have hscale : (input.length / acc.shape.functions + 1) * acc.shape.functions ≤
        j * acc.shape.functions := Nat.mul_le_mul_right _ hgt
    rw [Nat.succ_mul] at hscale
    split_ifs <;> omega

theorem Holds.length_cyclesOf (h : acc.Holds input) :
    (acc.cyclesOf (input.length % acc.shape.functions)).length =
      input.length / acc.shape.functions := by
  rw [h.length_row (Nat.mod_lt _ acc.shape.functions_pos), if_neg (Nat.lt_irrefl _), Nat.add_zero]

theorem Holds.push (h : acc.Holds input)
    (hpush : acc.push m.line m.function m.cycles = .ok acc') :
    acc'.shape = acc.shape ∧ acc'.Holds (input ++ [m]) := by
  have hnames := h.names_push hpush
  have hcyclesOf := h.cyclesOf_push hpush
  have hkept : acc'.shape = acc.shape ∧ acc'.seen = acc.seen + 1 := by
    obtain ⟨-, rfl⟩ | ⟨-, -, -, rfl⟩ := h.push_cases hpush
    · exact ⟨rfl, rfl⟩
    · exact ⟨rfl, rfl⟩
  obtain ⟨hshape, hseen⟩ := hkept
  refine ⟨hshape, ?_, ?_, ?_⟩
  · rw [hseen, h.seen, List.length_append, List.length_singleton]
  · rw [hshape, hnames]
  · rw [hshape]
    intro i hi j
    have hposition : j * acc.shape.functions + i = input.length ↔
        input.length / acc.shape.functions = j ∧ input.length % acc.shape.functions = i :=
      position_eq_iff hi
    have hold := h.cycles i hi j
    rw [hcyclesOf]
    by_cases hnext : j * acc.shape.functions + i = input.length
    · obtain ⟨rfl, rfl⟩ := hposition.mp hnext
      rw [if_pos rfl, hnext, ← h.length_cyclesOf, List.getElem?_concat_length,
        List.getElem?_concat_length, Option.map_some]
    · rw [getElem?_concat_of_ne hnext, ← hold]
      split_ifs with hslot
      · refine getElem?_concat_of_ne (fun hlength => hnext ?_) m.cycles
        rw [hslot] at hlength
        rw [hlength, hslot, h.length_cyclesOf]
        exact Nat.div_add_mod' _ _
      · rfl

def pushAll (acc : TrialAccumulator) (input : List Measurement) : Except Error TrialAccumulator :=
  input.foldlM (fun (acc : TrialAccumulator) m => acc.push m.line m.function m.cycles) acc

theorem Holds.pushAll (h : acc.Holds input) (hrun : acc.pushAll rest = .ok acc') :
    acc'.shape = acc.shape ∧ acc'.Holds (input ++ rest) := by
  induction rest generalizing acc input with
  | nil =>
    cases hrun
    rw [List.append_nil]
    exact ⟨rfl, h⟩
  | cons m rest ih =>
    obtain ⟨next, hpush, hrun⟩ := foldlM_cons_eq_ok_iff.mp hrun
    obtain ⟨hshape, hnext⟩ := h.push hpush
    obtain ⟨hshape', hlast⟩ := ih hnext hrun
    rw [List.append_assoc, List.singleton_append] at hlast
    exact ⟨hshape'.trans hshape, hlast⟩

theorem Holds.exists_pushAll_iff (h : acc.Holds input) (hinput : Fits acc.shape input) :
    (∃ acc', acc.pushAll rest = .ok acc') ↔ Fits acc.shape (input ++ rest) := by
  induction rest generalizing acc input with
  | nil =>
    rw [List.append_nil]
    exact ⟨fun _ => hinput, fun _ => ⟨acc, rfl⟩⟩
  | cons m rest ih =>
    have hsplit : input ++ m :: rest = (input ++ [m]) ++ rest := by simp
    constructor
    · rintro ⟨acc', hrun⟩
      obtain ⟨next, hpush, hrun⟩ := foldlM_cons_eq_ok_iff.mp hrun
      obtain ⟨hshape, hnext⟩ := h.push hpush
      have hfits : Fits acc.shape (input ++ [m]) :=
        fits_concat_iff.mpr ⟨hinput, h.exists_push_iff.mp ⟨next, hpush⟩⟩
      rw [hsplit, ← hshape]
      exact (ih hnext (hshape ▸ hfits)).mp ⟨acc', hrun⟩
    · intro hall
      rw [hsplit] at hall
      have hfits : Fits acc.shape (input ++ [m]) := hall.of_append
      obtain ⟨next, hpush⟩ := h.exists_push_iff.mpr (fits_concat_iff.mp hfits).2
      obtain ⟨hshape, hnext⟩ := h.push hpush
      obtain ⟨acc', hrun⟩ := (ih hnext (hshape ▸ hfits)).mpr (hshape ▸ hall)
      exact ⟨acc', foldlM_cons_eq_ok_iff.mpr ⟨next, hpush, hrun⟩⟩

theorem isComplete_iff : acc.isComplete = true ↔
    ∃ trials, 0 < trials ∧ (∀ n ∈ acc.shape.trials, n = trials) ∧
      acc.seen = trials * acc.shape.functions := by
  have hpos := acc.shape.functions_pos
  simp only [isComplete, Bool.and_eq_true, decide_eq_true_eq, beq_iff_eq, Option.all_eq_true]
  constructor
  · rintro ⟨⟨hseen, hwhole⟩, hpromised⟩
    have hproduct : acc.seen / acc.shape.functions * acc.shape.functions = acc.seen :=
      Nat.div_mul_cancel (Nat.dvd_of_mod_eq_zero hwhole)
    have htrials : 0 < acc.seen / acc.shape.functions :=
      Nat.pos_of_mul_pos_right (hproduct ▸ hseen)
    exact ⟨_, htrials, hpromised, hproduct.symm⟩
  · rintro ⟨trials, htrials, hpromised, hseen⟩
    rw [hseen, Nat.mul_mod_left, Nat.mul_div_cancel _ hpos]
    exact ⟨⟨Nat.mul_pos htrials hpos, rfl⟩, hpromised⟩

theorem finish_eq_ok_iff {rows : List FunctionRow} :
    acc.finish = .ok rows ↔ acc.isComplete = true ∧ rows = acc.rows := by
  unfold finish
  split_ifs with hcomplete
  · simp [hcomplete, eq_comm]
  · simp [hcomplete]

theorem Holds.transposed (h : acc.Holds input) {trials : Nat}
    (hinput : WholeTrials acc.shape trials input) : Transposed acc.shape trials input acc.rows := by
  have hpos := acc.shape.functions_pos
  have hlength : acc.rows.length = acc.shape.functions := by
    have hrows := h.length
    have hmany : acc.shape.functions ≤ input.length :=
      hinput.length ▸ Nat.le_mul_of_pos_left _ hinput.pos
    omega
  have hrow : ∀ (i : Nat) (row : FunctionRow), acc.rows[i]? = some row →
      i < acc.shape.functions ∧ acc.cyclesOf i = row.cycles := by
    intro i row hrow
    obtain ⟨hi, -⟩ := List.getElem?_eq_some_iff.mp hrow
    refine ⟨hlength ▸ hi, ?_⟩
    rw [cyclesOf, hrow]
    rfl
  refine ⟨hlength, ?_, ?_, ?_⟩
  · intro i row hi
    have hnames := congrArg (·[i]?) h.names
    simp only [List.getElem?_map, hi, Option.map_some] at hnames
    rw [hnames, List.getElem?_take_of_lt (hrow i row hi).1]
  · intro row hmem
    obtain ⟨i, hi⟩ := List.mem_iff_getElem?.mp hmem
    obtain ⟨hslot, hcycles⟩ := hrow i row hi
    rw [← hcycles]
    apply eq_of_forall_lt_iff
    intro j
    rw [h.lt_length_cyclesOf_iff hslot, hinput.length, position_lt_iff hslot]
  · intro i row hi j hj
    obtain ⟨hslot, hcycles⟩ := hrow i row hi
    rw [← hcycles, h.cycles i hslot]

end TrialAccumulator

namespace TrialShape

open TrialAccumulator

variable {shape : TrialShape} {origin : Path} {input : List Measurement} {rows : List FunctionRow}

def collect (shape : TrialShape) (origin : Path) (input : List Measurement) :
    Except Error (List FunctionRow) := do
  let acc ← pushAll { shape, origin } input
  acc.finish

theorem collect_eq_ok_iff : shape.collect origin input = .ok rows ↔
    ∃ acc, pushAll { shape, origin } input = .ok acc ∧ acc.isComplete = true ∧ rows = acc.rows := by
  simp only [collect, bind_eq_ok_iff, finish_eq_ok_iff]

theorem exists_collect_iff :
    (∃ rows, shape.collect origin input = .ok rows) ↔
      ∃ trials, WholeTrials shape trials input := by
  have hstart := holds_nil shape origin
  have hfits : (∃ acc, pushAll { shape, origin } input = .ok acc) ↔ Fits shape input :=
    hstart.exists_pushAll_iff (fits_nil shape)
  simp only [collect_eq_ok_iff]
  constructor
  · rintro ⟨rows, acc, hrun, hcomplete, -⟩
    obtain ⟨hshape, hacc⟩ := hstart.pushAll hrun
    obtain ⟨trials, hpos, hpromised, hseen⟩ := isComplete_iff.mp hcomplete
    rw [List.nil_append] at hacc
    rw [hshape] at hpromised hseen
    exact ⟨trials, hpos, hpromised, hacc.seen.symm.trans hseen, (hfits.mp ⟨acc, hrun⟩).repeats⟩
  · rintro ⟨trials, hinput⟩
    have hpromised : ∀ n ∈ shape.trials, input.length ≤ n * shape.functions := by
      intro n hn
      rw [hinput.promised n hn, hinput.length]
    obtain ⟨acc, hrun⟩ := hfits.mpr ⟨hpromised, hinput.repeats⟩
    obtain ⟨hshape, hacc⟩ := hstart.pushAll hrun
    have hcomplete : acc.isComplete = true := by
      rw [isComplete_iff, hshape, hacc.seen]
      exact ⟨trials, hinput.pos, hinput.promised, hinput.length⟩
    exact ⟨acc.rows, acc, hrun, hcomplete, rfl⟩

theorem transposed_of_collect (h : shape.collect origin input = .ok rows) :
    ∃ trials, WholeTrials shape trials input ∧ Transposed shape trials input rows := by
  obtain ⟨trials, hinput⟩ := exists_collect_iff.mp ⟨rows, h⟩
  obtain ⟨acc, hrun, -, rfl⟩ := collect_eq_ok_iff.mp h
  obtain ⟨hshape, hacc⟩ := (holds_nil shape origin).pushAll hrun
  rw [List.nil_append] at hacc
  have htransposed := hacc.transposed (by rwa [hshape])
  rw [hshape] at htransposed
  exact ⟨trials, hinput, htransposed⟩

theorem collect_eq_ok_iff_transposed : shape.collect origin input = .ok rows ↔
    ∃ trials, WholeTrials shape trials input ∧ Transposed shape trials input rows := by
  refine ⟨transposed_of_collect, ?_⟩
  rintro ⟨trials, hinput, hrows⟩
  obtain ⟨rows', hcollect⟩ := exists_collect_iff.mpr ⟨trials, hinput⟩
  obtain ⟨trials', hinput', hrows'⟩ := transposed_of_collect hcollect
  obtain rfl : trials = trials' := by
    have hlength := hinput.length.symm.trans hinput'.length
    exact Nat.eq_of_mul_eq_mul_right shape.functions_pos hlength
  rw [hrows.eq hrows']
  exact hcollect

def OnLine (m : Measurement) (line : Except Error Records.Line) : Prop :=
  ∃ count, line = .ok ⟨m.line, [m.function, count]⟩ ∧ Decimal.word? count.toList = some m.cycles

theorem measurement_eq_ok_iff {line : Records.Line} {function : String} {cycles : UInt64} :
    measurement origin line = .ok (function, cycles) ↔
      ∃ count, line.fields = [function, count] ∧ Decimal.word? count.toList = some cycles := by
  unfold measurement
  split
  · rename_i name count hfields
    simp only [bind_eq_ok_iff, pure_eq_ok, Except.ok.injEq, Prod.mk.injEq, hfields, Records.cycles]
    constructor
    · rintro ⟨n, hn, rfl, rfl⟩
      split at hn
      · cases hn
        exact ⟨count, rfl, by assumption⟩
      · cases hn
    · rintro ⟨other, heq, hword⟩
      cases heq
      exact ⟨cycles, by rw [hword], rfl, rfl⟩
  · rename_i hfields
    constructor
    · intro h
      cases h
    · rintro ⟨count, heq, -⟩
      exact absurd heq (hfields function count)

def pushLine (origin : Path) (acc : TrialAccumulator) (line : Except Error Records.Line) :
    Except Error TrialAccumulator := do
  let line ← line
  let (function, cycles) ← measurement origin line
  acc.push line.number function cycles

theorem pushLine_eq_ok_iff {acc acc' : TrialAccumulator} {line : Except Error Records.Line} :
    pushLine origin acc line = .ok acc' ↔
      ∃ m, OnLine m line ∧ acc.push m.line m.function m.cycles = .ok acc' := by
  constructor
  · intro h
    obtain ⟨⟨number, fields⟩, hline, hrest⟩ := bind_eq_ok_iff.mp h
    obtain ⟨⟨function, cycles⟩, hmeasurement, hpush⟩ := bind_eq_ok_iff.mp hrest
    obtain ⟨count, rfl, hword⟩ := measurement_eq_ok_iff.mp hmeasurement
    exact ⟨⟨number, function, cycles⟩, ⟨count, hline, hword⟩, hpush⟩
  · rintro ⟨m, ⟨count, rfl, hword⟩, hpush⟩
    have hmeasurement : measurement origin ⟨m.line, [m.function, count]⟩ =
        .ok (m.function, m.cycles) := measurement_eq_ok_iff.mpr ⟨count, rfl, hword⟩
    rw [pushLine, ok_bind, hmeasurement, ok_bind]
    exact hpush

theorem foldlM_pushLine_eq_ok_iff {acc acc' : TrialAccumulator}
    {lines : List (Except Error Records.Line)} :
    lines.foldlM (pushLine origin) acc = .ok acc' ↔
      ∃ input, List.Forall₂ OnLine input lines ∧ acc.pushAll input = .ok acc' := by
  induction lines generalizing acc with
  | nil => simp [pushAll]
  | cons line lines ih =>
    simp only [foldlM_cons_eq_ok_iff, pushLine_eq_ok_iff, ih, List.forall₂_cons_right_iff]
    constructor
    · rintro ⟨next, ⟨m, hline, hpush⟩, input, hlines, hrun⟩
      exact ⟨m :: input, ⟨m, input, hline, hlines, rfl⟩,
        foldlM_cons_eq_ok_iff.mpr ⟨next, hpush, hrun⟩⟩
    · rintro ⟨_, ⟨m, input, hline, hlines, rfl⟩, hrun⟩
      obtain ⟨next, hpush, hrun⟩ := foldlM_cons_eq_ok_iff.mp hrun
      exact ⟨next, ⟨m, hline, hpush⟩, input, hlines, hrun⟩

theorem reshape_eq_ok_iff {lines : List (Except Error Records.Line)} :
    shape.reshape origin lines = .ok rows ↔
      ∃ input, List.Forall₂ OnLine input lines ∧ shape.collect origin input = .ok rows := by
  have hreshape : shape.reshape origin lines =
      lines.foldlM (pushLine origin) { shape, origin } >>= finish := rfl
  simp only [hreshape, bind_eq_ok_iff, foldlM_pushLine_eq_ok_iff, collect]
  constructor
  · rintro ⟨acc, ⟨input, hlines, hrun⟩, hfinish⟩
    exact ⟨input, hlines, acc, hrun, hfinish⟩
  · rintro ⟨input, hlines, acc, hrun, hfinish⟩
    exact ⟨acc, ⟨input, hlines, hrun⟩, hfinish⟩

/-- Reshaping accepts whole trials and nothing else, and gives their transpose. So
it does with the measurements themselves, and with the lines that they stand on. -/
theorem reshape_transposes (shape : TrialShape) (origin : Path) :
    (∀ input : List Measurement,
      ((∃ rows, shape.collect origin input = .ok rows) ↔
        ∃ trials, WholeTrials shape trials input) ∧
      ∀ rows, shape.collect origin input = .ok rows ↔
        ∃ trials, WholeTrials shape trials input ∧ Transposed shape trials input rows) ∧
    ∀ lines : List (Except Error Records.Line),
      ((∃ rows, shape.reshape origin lines = .ok rows) ↔
        ∃ input trials, List.Forall₂ OnLine input lines ∧ WholeTrials shape trials input) ∧
      ∀ rows, shape.reshape origin lines = .ok rows ↔
        ∃ input trials, List.Forall₂ OnLine input lines ∧ WholeTrials shape trials input ∧
          Transposed shape trials input rows := by
  refine ⟨fun input => ⟨exists_collect_iff, fun rows => collect_eq_ok_iff_transposed⟩, ?_⟩
  intro lines
  constructor
  · constructor
    · rintro ⟨rows, h⟩
      obtain ⟨input, hlines, hcollect⟩ := reshape_eq_ok_iff.mp h
      obtain ⟨trials, hinput⟩ := exists_collect_iff.mp ⟨rows, hcollect⟩
      exact ⟨input, trials, hlines, hinput⟩
    · rintro ⟨input, trials, hlines, hinput⟩
      obtain ⟨rows, hcollect⟩ := exists_collect_iff.mpr ⟨trials, hinput⟩
      exact ⟨rows, reshape_eq_ok_iff.mpr ⟨input, hlines, hcollect⟩⟩
  · intro rows
    simp only [reshape_eq_ok_iff, collect_eq_ok_iff_transposed, exists_and_left]

end TrialShape
end CycleCount
