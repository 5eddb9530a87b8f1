import Mathlib
import CycleCount.Records.Line

/-! Strict line accounting. Reading an input counts every newline exactly once,
either for a record or behind the last of them; only the last record can go
without. Hence the records that are let through stand on consecutive lines, and
a sound input has as many newlines as records, or one fewer. -/

namespace CycleCount.Records

namespace Draft

def counting (d : Draft) (b : UInt8) : Draft :=
  if b = newline then { d with newlines := d.newlines + 1 } else d

inductive Steps (d : Draft) (b : UInt8) : Draft ⊕ Chunk → Prop
  | skip : d.place = .recordStart → Steps d b (.inl d)
  | mark {place : Place} : place ≠ .recordStart → Steps d b (.inl { d with place })
  | add {place : Place} : place ≠ .recordStart → Steps d b (.inl (d.add b place))
  | endField : Steps d b (.inl d.endField)
  | finish : b = newline → Steps d b (.inr ⟨d.allFields, d.newlines⟩)

theorem steps_step (d : Draft) (b : UInt8) : Steps (d.counting b) b (d.step b) := by
  unfold step counting
  generalize (if b = newline then { d with newlines := d.newlines + 1 } else d) = e
  simp only
  split
  case h_1 hplace =>
    split_ifs
    · exact .skip hplace
    · exact .mark Place.noConfusion
    · exact .endField
    · exact .add Place.noConfusion
  case h_2 =>
    split_ifs with _ _ hnewline
    · exact .mark Place.noConfusion
    · exact .endField
    · exact .finish hnewline
    · exact .add Place.noConfusion
  case h_3 =>
    split_ifs with _ hnewline
    · exact .endField
    · exact .finish hnewline
    · exact .add Place.noConfusion
  case h_4 =>
    split_ifs
    · exact .mark Place.noConfusion
    · exact .add Place.noConfusion
  case h_5 =>
    split_ifs with _ _ hnewline
    · exact .add Place.noConfusion
    · exact .endField
    · exact .finish hnewline
    · exact .add Place.noConfusion

theorem place_counting (d : Draft) (b : UInt8) : (d.counting b).place = d.place := by
  unfold counting
  split_ifs
  · rfl
  · rfl

theorem fields_counting (d : Draft) (b : UInt8) : (d.counting b).fields = d.fields := by
  unfold counting
  split_ifs
  · rfl
  · rfl

theorem field_counting (d : Draft) (b : UInt8) : (d.counting b).field = d.field := by
  unfold counting
  split_ifs
  · rfl
  · rfl

theorem newlines_counting (d : Draft) (b : UInt8) :
    (d.counting b).newlines = d.newlines + [b].count newline := by
  unfold counting
  split_ifs with h
  · simp [h]
  · simp [h]

theorem step_inl_newlines {d d' : Draft} {b : UInt8} (h : d.step b = .inl d') :
    d'.newlines = d.newlines + [b].count newline := by
  have hsteps := steps_step d b
  rw [h] at hsteps
  rw [← newlines_counting]
  cases hsteps <;> rfl

theorem step_inr_newlines {d : Draft} {b : UInt8} {chunk : Chunk} (h : d.step b = .inr chunk) :
    b = newline ∧ chunk.newlines = d.newlines + 1 := by
  have hsteps := steps_step d b
  rw [h] at hsteps
  cases hsteps with
  | finish hnewline =>
    refine ⟨hnewline, ?_⟩
    rw [newlines_counting, hnewline]
    rfl

end Draft

theorem newline_count_scanFrom (d : Draft) (bs : Bytes) :
    ((scanFrom d bs).chunks.map (·.newlines)).sum + (scanFrom d bs).trailing =
      d.newlines + bs.count newline := by
  induction bs generalizing d with
  | nil =>
    unfold scanFrom
    split <;> simp
  | cons b bs ih =>
    have hb : (b :: bs).count newline = [b].count newline + bs.count newline := by
      rw [← List.count_append, List.singleton_append]
    unfold scanFrom
    cases hs : d.step b with
    | inl d' =>
      have hd := Draft.step_inl_newlines hs
      have hi := ih d'
      simp only
      omega
    | inr chunk =>
      obtain ⟨rfl, hc⟩ := Draft.step_inr_newlines hs
      have hi := ih {}
      simp only [List.map_cons, List.sum_cons, List.count_cons_self, hc]
      simp only at hi
      omega

theorem newlines_pos_of_mem_dropLast (d : Draft) (bs : Bytes) :
    ∀ chunk ∈ (scanFrom d bs).chunks.dropLast, 0 < chunk.newlines := by
  induction bs generalizing d with
  | nil =>
    unfold scanFrom
    split <;> simp
  | cons b bs ih =>
    unfold scanFrom
    cases hs : d.step b with
    | inl d' => exact ih d'
    | inr chunk =>
      intro other ho
      rcases List.eq_nil_or_concat (scanFrom {} bs).chunks with hn | ⟨front, last, hn⟩
      · simp [hn] at ho
      · rw [List.dropLast_cons_of_ne_nil (by simp [hn])] at ho
        rcases List.mem_cons.mp ho with rfl | ho
        · rw [(Draft.step_inr_newlines hs).2]
          exact Nat.succ_pos _
        · exact ih {} other ho

theorem mem_dropLast_cons {α : Type} {x a : α} {xs : List α} (h : x ∈ xs.dropLast) :
    x ∈ (a :: xs).dropLast := by
  rw [List.dropLast_cons_of_ne_nil (by rintro rfl; simp at h)]
  exact List.mem_cons_of_mem a h

/-- The accounted lines are the records in order, on consecutive lines, up to the
first fault. Where there is none, no record has more than one newline and
nothing follows the last. -/
theorem account_eq (origin : Path) (terminated : Bool) (trailing start : Nat)
    (previous : Option (Nat × Nat)) (chunks : List Chunk)
    (hpos : ∀ chunk ∈ chunks.dropLast, 0 < chunk.newlines) :
    ∃ (records : List (List String)) (fault : Option Error),
      account origin terminated trailing start previous chunks =
        records.mapIdx (fun k fields => .ok ⟨start + k, fields⟩) ++ fault.toList.map .error ∧
      List.Forall₂ (fun chunk fields => chunk.fields.mapM fieldText? = some fields)
        (chunks.take records.length) records ∧
      (fault = none → records.length = chunks.length ∧ (∀ chunk ∈ chunks, chunk.newlines ≤ 1) ∧
        (previous.isSome ∨ records ≠ [] → trailing = 0)) := by
  induction chunks generalizing start previous with
  | nil =>
    rcases previous with _ | ⟨first, next⟩
    · exact ⟨[], none, rfl, .nil, by simp⟩
    · simp only [account]
      split_ifs with ht hn
      · exact ⟨[], some _, rfl, .nil, by simp⟩
      · exact ⟨[], some _, rfl, .nil, by simp⟩
      · exact ⟨[], none, rfl, .nil, by simpa using ht⟩
  | cons chunk chunks ih =>
    simp only [account]
    cases hf : chunk.fields.mapM fieldText? with
    | none => exact ⟨[], some _, rfl, .nil, by simp⟩
    | some fields =>
      by_cases hlong : chunk.newlines > 1
      · simp only [if_pos hlong]
        exact ⟨[], some _, rfl, .nil, by simp⟩
      · have hrest : ∀ other ∈ chunks.dropLast, 0 < other.newlines := fun other ho =>
          hpos other (mem_dropLast_cons ho)
        obtain ⟨records, fault, heq, hfields, hsound⟩ :=
          ih (start + chunk.newlines) (some (start, start + chunk.newlines)) hrest
        -- A record without a newline is the last, so no number depends on it.
        have hnext : records = [] ∨ chunk.newlines = 1 := by
          rcases chunks with _ | ⟨other, chunks⟩
          · exact .inl (by simpa using hfields)
          · have := hpos chunk (by simp)
            omega
        refine ⟨fields :: records, fault, ?_, ?_, ?_⟩
        · simp only [if_neg hlong, heq, List.mapIdx_cons, List.cons_append]
          rcases hnext with rfl | hone
          · rfl
          · simp only [hone, Nat.add_assoc, Nat.add_comm 1, Nat.add_zero]
        · exact .cons hf hfields
        · intro hnone
          obtain ⟨hlen, hshort, htrail⟩ := hsound hnone
          refine ⟨congrArg (· + 1) hlen, ?_, fun _ => htrail (.inl rfl)⟩
          intro other ho
          rcases List.mem_cons.mp ho with rfl | ho
          · omega
          · exact hshort other ho

theorem sum_newlines {chunks : List Chunk} (hne : chunks ≠ [])
    (hpos : ∀ chunk ∈ chunks.dropLast, 0 < chunk.newlines)
    (hshort : ∀ chunk ∈ chunks, chunk.newlines ≤ 1) :
    (chunks.map (·.newlines)).sum = chunks.length ∨
      (chunks.map (·.newlines)).sum + 1 = chunks.length := by
  induction chunks with
  | nil => exact absurd rfl hne
  | cons chunk chunks ih =>
    have hc := hshort chunk (List.mem_cons_self ..)
    simp only [List.map_cons, List.sum_cons, List.length_cons]
    rcases chunks with _ | ⟨other, chunks⟩
    · simp only [List.map_nil, List.sum_nil, List.length_nil]
      omega
    · have h1 := hpos chunk (by simp)
      have hi := ih (by simp) (fun c hc => hpos c (mem_dropLast_cons hc))
        (fun c hc => hshort c (List.mem_cons_of_mem _ hc))
      omega

theorem count_newline_dropMark (input : Bytes) :
    (dropMark input).count newline = input.count newline := by
  unfold dropMark
  split
  · simp [newline]
  · rfl

/-- The lines of an input are its records, numbered from one, up to the first
fault, and nothing follows a fault. An input without one has a newline behind
each of its records, or behind each but the last. -/
theorem lines_consecutive (origin : Path) (input : Bytes) :
    ∃ (records : List (List String)) (fault : Option Error),
      lines origin input =
        records.mapIdx (fun k fields => .ok ⟨k + 1, fields⟩) ++ fault.toList.map .error ∧
      List.Forall₂ (fun chunk fields => chunk.fields.mapM fieldText? = some fields)
        ((scan input).chunks.take records.length) records ∧
      (fault = none → records.length = (scan input).chunks.length ∧
        (records ≠ [] →
          input.count newline = records.length ∨ input.count newline + 1 = records.length)) := by
  obtain ⟨records, fault, heq, hfields, hsound⟩ :=
    account_eq origin (input.getLast? == some newline) (scan input).trailing 1 none
      (scan input).chunks (newlines_pos_of_mem_dropLast {} _)
  refine ⟨records, fault, ?_, hfields, fun hnone => ?_⟩
  · simpa only [lines, Nat.add_comm 1] using heq
  · obtain ⟨hlen, hshort, htrail⟩ := hsound hnone
    refine ⟨hlen, fun hne => ?_⟩
    have hcount := newline_count_scanFrom {} (dropMark input)
    rw [count_newline_dropMark, ← scan] at hcount
    have hchunks : (scan input).chunks ≠ [] := by
      rintro hnil
      exact hne (List.length_eq_zero_iff.mp (by rw [hlen, hnil, List.length_nil]))
    have hsum := sum_newlines hchunks (newlines_pos_of_mem_dropLast {} _) hshort
    have ht := htrail (.inr hne)
    simp only at hcount
    omega

end CycleCount.Records
