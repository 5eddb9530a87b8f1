import CycleCount.Proofs.Encoding
import CycleCount.Proofs.LineAccounting
import CycleCount.Proofs.Outcome
import CycleCount.Records.Columns
import CycleCount.Snapshot.Encode

/-! A snapshot is no sample file: it opens with a brace, which stays in front of
the first field of its first record, and no cycle count starts like that. -/

namespace CycleCount

theorem Text.trim_cons {c : Char} (h : Text.isBlank c = false) (cs : List Char) :
    ∃ rest, Text.trim (c :: cs) = c :: rest := by
  rw [Text.trim, Text.trimLeft, List.dropWhile_cons_of_neg (by simp [h]), Text.trimRight,
    List.reverse_cons, List.dropWhile_append]
  split_ifs
  · rw [List.dropWhile_cons_of_neg (by simp [h])]
    exact ⟨[], rfl⟩
  · rw [List.reverse_append]
    exact ⟨_, rfl⟩

namespace Records

def Opens (b : UInt8) (fields : List Bytes) : Prop := ∃ rest more, fields = (b :: rest) :: more

theorem Opens.append {b : UInt8} {fields : List Bytes} (h : Opens b fields) (more : List Bytes) :
    Opens b (fields ++ more) := by
  obtain ⟨rest, others, rfl⟩ := h
  exact ⟨rest, others ++ more, rfl⟩

namespace Draft

variable {b x : UInt8} {d d' : Draft}

theorem allFields_eq (d : Draft) : d.allFields = d.fields.reverse ++ [d.field.reverse] := by
  rw [allFields, List.reverse_cons]

theorem opens_add (h : Opens b d.allFields) (x : UInt8) (place : Place) :
    Opens b (d.add x place).allFields := by
  rw [allFields_eq] at h
  rw [allFields_eq]
  change Opens b (d.fields.reverse ++ [(x :: d.field).reverse])
  rw [List.reverse_cons]
  cases hfields : d.fields.reverse with
  | nil =>
    rw [hfields] at h
    obtain ⟨rest, more, hfirst⟩ := h
    rw [List.nil_append, List.cons.injEq] at hfirst
    exact ⟨rest ++ [x], [], by rw [hfirst.1]; rfl⟩
  | cons field fields =>
    rw [hfields] at h
    obtain ⟨rest, more, hfirst⟩ := h
    rw [List.cons_append, List.cons.injEq] at hfirst
    exact ⟨rest, _, by rw [hfirst.1]; rfl⟩

theorem opens_endField (h : Opens b d.allFields) : Opens b d.endField.allFields := by
  rw [allFields_eq]
  change Opens b ((d.field.reverse :: d.fields).reverse ++ [[]])
  exact h.append _

theorem opens_counting (h : Opens b d.allFields) (x : UInt8) :
    Opens b (d.counting x).allFields := by
  unfold counting
  split_ifs
  · exact h
  · exact h

def OpensAfter (b : UInt8) : Draft ⊕ Chunk → Prop
  | .inl d => Opens b d.allFields ∧ d.place ≠ .recordStart
  | .inr chunk => Opens b chunk.fields

theorem opensAfter_step (hopens : Opens b d.allFields) (hplace : d.place ≠ .recordStart)
    (x : UInt8) : OpensAfter b (d.step x) := by
  have hcounted := opens_counting hopens x
  have hsteps := steps_step d x
  generalize d.step x = next at hsteps ⊢
  cases hsteps with
  | skip hstart => exact absurd ((place_counting d x).symm.trans hstart) hplace
  | mark hne => exact ⟨hcounted, hne⟩
  | add hne => exact ⟨opens_add hcounted x _, hne⟩
  | endField => exact ⟨opens_endField hcounted, Place.noConfusion⟩
  | finish => exact hcounted

end Draft

theorem opens_scanFrom {b : UInt8} {d : Draft} (hopens : Opens b d.allFields)
    (hplace : d.place ≠ .recordStart) (input : Bytes) :
    ∃ chunk chunks, (scanFrom d input).chunks = chunk :: chunks ∧ Opens b chunk.fields := by
  induction input generalizing d with
  | nil =>
    rw [scanFrom, if_neg hplace]
    exact ⟨_, [], rfl, hopens⟩
  | cons x input ih =>
    have hstep := Draft.opensAfter_step hopens hplace x
    rw [scanFrom]
    cases hx : d.step x with
    | inl d' =>
      rw [hx] at hstep
      exact ih hstep.1 hstep.2
    | inr chunk =>
      rw [hx] at hstep
      exact ⟨chunk, _, rfl, hstep⟩

def brace : UInt8 := 123

theorem opens_scan (rest : Bytes) :
    ∃ chunk chunks, (scan (brace :: rest)).chunks = chunk :: chunks ∧ Opens brace chunk.fields := by
  change ∃ chunk chunks, (scanFrom (Draft.add {} brace .plain) rest).chunks = chunk :: chunks ∧ _
  exact opens_scanFrom ⟨[], [], rfl⟩ Place.noConfusion rest

theorem cycles_of_brace {rest : Bytes} {field : String}
    (h : fieldText? (brace :: rest) = some field) (origin : Path) (line : Nat) (n : UInt64) :
    cycles origin line field ≠ .ok n := by
  obtain ⟨text, htext, rfl⟩ := Option.map_eq_some_iff.mp h
  obtain ⟨c, cs, hcs, hc⟩ :=
    Text.toList_of_encode_eq_cons (by decide) (Text.decode?_eq_some_iff.mp htext)
  obtain rfl : c = '\x7b' := Char.toNat_inj.mp hc
  obtain ⟨trimmed, htrim⟩ := Text.trim_cons (c := '\x7b') (by decide) cs
  have hword : Decimal.word? ('\x7b' :: trimmed) = none := rfl
  rw [cycles, String.toList_ofList, hcs, htrim, hword]
  rintro ⟨⟩

theorem sampleColumns_of_brace (origin : Path) (columns : Nat) (rest : Bytes)
    (series : List (List UInt64)) :
    sampleColumns origin columns (lines origin (brace :: rest)) ≠ .ok series := by
  intro h
  obtain ⟨rows, hrows, -⟩ := bind_eq_ok_iff.mp h
  rw [mapM_eq_ok_iff] at hrows
  obtain ⟨chunk, chunks, hchunks, field, fields, hfields⟩ := opens_scan rest
  rw [lines] at hrows
  simp only [hchunks] at hrows
  rw [account] at hrows
  split at hrows
  · cases hrows with
    | cons hrow _ => cases hrow
  · rename_i texts htexts
    split_ifs at hrows
    · cases hrows with
      | cons hrow _ => cases hrow
    · cases hrows with
      | cons hrow _ =>
        rw [ok_bind, sampleRow] at hrow
        split_ifs at hrow
        rw [mapM_eq_ok_iff] at hrow
        rw [hfields, List.mapM_cons] at htexts
        obtain ⟨first, hfirst, htexts⟩ := Option.bind_eq_some_iff.mp htexts
        obtain ⟨others, -, htexts⟩ := Option.bind_eq_some_iff.mp htexts
        cases htexts
        cases hrow with
        | cons hcycles _ => exact cycles_of_brace hfirst origin 1 _ hcycles

end Records

theorem encode_envelope (payload : Payload) (created : Instant) :
    ∃ rest, Text.encode (payload.envelope created) = Records.brace :: rest := by
  rw [Payload.envelope, Json.compact, Text.encode_append, Text.encode_append]
  exact ⟨_, rfl⟩

end CycleCount
