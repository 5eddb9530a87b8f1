import CycleCount.Proofs.Transposition

/-! Refused measurements leave no trace. An accumulator is fed in place, and feeding goes
on after a refusal. Every check stands before the first change, so that a call that fails
has changed nothing, and what is reached is what the accepted calls alone reach. -/

namespace CycleCount

open Measurement

namespace TrialAccumulator

variable {acc next last : TrialAccumulator} {input calls : List Measurement} {m : Measurement}

theorem Holds.run_feed (h : acc.Holds input) (m : Measurement) :
    (feed m.line m.function m.cycles).run.run acc =
      some (match acc.push m.line m.function m.cycles with
        | .ok next => (.ok (), next)
        | .error e => (.error e, acc)) := by
  rw [TrialAccumulator.push, TrialAccumulator.run_feed]
  split_ifs with hbeyond hfirst
  · rfl
  · rfl
  · have hfull : acc.shape.functions ≤ acc.seen :=
      Nat.not_lt.mp fun hlt => hfirst (Nat.div_eq_of_lt hlt)
    rw [List.getElem?_eq_getElem (h.slot_lt hfull), Option.bind_some]
    split_ifs with hname
    · rfl
    · rfl

theorem Holds.feed_of_push (h : acc.Holds input)
    (hpush : acc.push m.line m.function m.cycles = .ok next) :
    (feed m.line m.function m.cycles).run.run acc = some (.ok (), next) := by
  rw [h.run_feed, hpush]

theorem Holds.feed_of_refusal (h : acc.Holds input) {e : Error}
    (hpush : acc.push m.line m.function m.cycles = .error e) :
    (feed m.line m.function m.cycles).run.run acc = some (.error e, acc) := by
  rw [h.run_feed, hpush]

theorem Holds.feed_cases (h : acc.Holds input) (m : Measurement) :
    ∃ reply next, (feed m.line m.function m.cycles).run.run acc = some (reply, next) ∧
      (reply = .ok () ↔ Follows acc.shape input m) ∧ ∀ e, reply = .error e → next = acc := by
  have hfollows := h.exists_push_iff (m := m)
  cases hpush : acc.push m.line m.function m.cycles with
  | ok next =>
    have hnext : Follows acc.shape input m := hfollows.mp ⟨next, hpush⟩
    exact ⟨_, _, h.feed_of_push hpush, iff_of_true rfl hnext, nofun⟩
  | error e =>
    have hnext : ¬Follows acc.shape input m := by
      intro hnext
      obtain ⟨next, hok⟩ := hfollows.mpr hnext
      rw [hpush] at hok
      cases hok
    exact ⟨_, _, h.feed_of_refusal hpush, iff_of_false nofun hnext, fun _ _ => rfl⟩

def feedAll (calls : List Measurement) :
    StateT TrialAccumulator Option (List (Except Error Unit)) :=
  calls.mapM fun m => (feed m.line m.function m.cycles).run

def accepted (calls : List Measurement) (replies : List (Except Error Unit)) : List Measurement :=
  ((calls.zip replies).filter (·.2.isOk)).map (·.1)

theorem feedAll_cons {reply : Except Error Unit} {replies : List (Except Error Unit)}
    (hfirst : (feed m.line m.function m.cycles).run.run acc = some (reply, next))
    (hrest : (feedAll calls).run next = some (replies, last)) :
    (feedAll (m :: calls)).run acc = some (reply :: replies, last) := by
  rw [feedAll, List.mapM_cons, StateT.run_bind, hfirst, Option.bind_eq_bind, Option.bind_some,
    StateT.run_bind]
  rw [feedAll] at hrest
  rw [hrest]
  rfl

theorem Holds.feedAll (h : acc.Holds input) (calls : List Measurement) :
    ∃ replies last, (feedAll calls).run acc = some (replies, last) ∧
      replies.length = calls.length ∧ acc.pushAll (accepted calls replies) = .ok last := by
  induction calls generalizing acc input with
  | nil => exact ⟨[], acc, rfl, rfl, rfl⟩
  | cons m calls ih =>
    cases hpush : acc.push m.line m.function m.cycles with
    | ok next =>
      obtain ⟨-, hnext⟩ := h.push hpush
      obtain ⟨replies, last, hrest, hlength, haccepted⟩ := ih hnext
      have hrun : acc.pushAll (m :: accepted calls replies) = .ok last :=
        foldlM_cons_eq_ok_iff.mpr ⟨next, hpush, haccepted⟩
      exact ⟨.ok () :: replies, last, feedAll_cons (h.feed_of_push hpush) hrest,
        congrArg Nat.succ hlength, hrun⟩
    | error e =>
      obtain ⟨replies, last, hrest, hlength, haccepted⟩ := ih h
      exact ⟨.error e :: replies, last, feedAll_cons (h.feed_of_refusal hpush) hrest,
        congrArg Nat.succ hlength, haccepted⟩

theorem Holds.feedAll_of_pushAll (h : acc.Holds input) (hrun : acc.pushAll calls = .ok last) :
    (TrialAccumulator.feedAll calls).run acc = some (calls.map fun _ => .ok (), last) := by
  induction calls generalizing acc input with
  | nil =>
    cases hrun
    rfl
  | cons m calls ih =>
    obtain ⟨next, hpush, hrest⟩ := foldlM_cons_eq_ok_iff.mp hrun
    obtain ⟨-, hnext⟩ := h.push hpush
    exact feedAll_cons (h.feed_of_push hpush) (ih hnext hrest)

theorem Holds.length_cycles (h : acc.Holds input) {i : Nat} {row : FunctionRow}
    (hrow : acc.rows[i]? = some row) :
    row.cycles.length = acc.seen / acc.shape.functions +
      if i < acc.seen % acc.shape.functions then 1 else 0 := by
  obtain ⟨hi, -⟩ := List.getElem?_eq_some_iff.mp hrow
  have hlength := h.length
  have hcycles : acc.cyclesOf i = row.cycles := by
    rw [cyclesOf, hrow]
    rfl
  rw [← hcycles, h.seen, h.length_row (by omega)]

/-- However an accumulator is fed, no call leaves its rows. A call is refused exactly if
its measurement cannot come next, and then leaves the accumulator as it was, so that it
ends where the accepted calls alone lead. It has a row for each function seen in the first
trial, under its name, with a cycle count for every whole trial and one more for the trial
under way, if that got past the row. -/
theorem refusals_leave_no_trace (shape : TrialShape) (origin : Path) (calls : List Measurement) :
    ∃ replies last,
      (TrialAccumulator.feedAll calls).run { shape, origin } = some (replies, last) ∧
      replies.length = calls.length ∧
      (TrialAccumulator.feedAll (accepted calls replies)).run { shape, origin } =
        some ((accepted calls replies).map fun _ => .ok (), last) ∧
      last.finish = shape.collect origin (accepted calls replies) ∧
      last.seen = (accepted calls replies).length ∧
      last.rows.length = min last.seen shape.functions ∧
      (∀ (i : Nat) (row : FunctionRow), last.rows[i]? = some row →
        row.cycles.length = last.seen / shape.functions +
          if i < last.seen % shape.functions then 1 else 0) ∧
      last.rows.map (·.function) =
        ((accepted calls replies).take shape.functions).map (·.function) ∧
      (shape.functions ≤ last.seen → last.seen % shape.functions < last.rows.length) ∧
      ∀ m : Measurement, ∃ reply next,
        (feed m.line m.function m.cycles).run.run last = some (reply, next) ∧
        (reply = .ok () ↔ Follows shape (accepted calls replies) m) ∧
        ∀ e, reply = .error e → next = last := by
  have hstart := holds_nil shape origin
  obtain ⟨replies, last, hrun, hlength, haccepted⟩ := hstart.feedAll calls
  obtain ⟨hshape, hlast⟩ := hstart.pushAll haccepted
  rw [List.nil_append] at hlast
  have hshape : last.shape = shape := hshape
  have hrows := hlast.length
  rw [← hlast.seen, hshape] at hrows
  have hfinish : last.finish = shape.collect origin (accepted calls replies) := by
    rw [TrialShape.collect, haccepted]
    rfl
  refine ⟨replies, last, hrun, hlength, hstart.feedAll_of_pushAll haccepted, hfinish, hlast.seen,
    hrows.trans (Nat.min_comm _ _), fun i row hrow => ?_, ?_, fun hfull => ?_, fun m => ?_⟩
  · rw [← hshape]
    exact hlast.length_cycles hrow
  · rw [← hshape]
    exact hlast.names
  · rw [← hshape] at hfull ⊢
    exact hlast.slot_lt hfull
  · rw [← hshape]
    exact hlast.feed_cases m

end TrialAccumulator
end CycleCount
