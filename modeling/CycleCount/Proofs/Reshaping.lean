import CycleCount.Proofs.FunctionRows
import CycleCount.Proofs.LineAccounting
import CycleCount.Proofs.Transposition

/-! From trials to rows and back. Strict line accounting leaves no newline in the
name of a function, since a record that holds one takes more than one line. What
is reshaped can therefore be written and read again, up to the two kinds of
names that no line stands for. -/

namespace CycleCount

namespace Records

def Chunk.inner (chunk : Chunk) : Nat := chunk.fields.dropLast.flatten.count newline

namespace Draft

/-- A draft whose last byte was `last`: its fields hold no more newlines than were
counted, and the finished ones fewer where the last byte is a newline. -/
structure Follows (d : Draft) (last : UInt8) : Prop where
  total : d.fields.flatten.count newline + d.field.count newline ≤ d.newlines
  finished : last = newline → d.place ≠ .recordStart →
    d.fields.flatten.count newline < d.newlines

theorem follows_empty (last : UInt8) : Follows {} last :=
  ⟨le_refl 0, fun _ hplace => absurd rfl hplace⟩

theorem inner_allFields (d : Draft) (newlines : Nat) :
    Chunk.inner ⟨d.allFields, newlines⟩ = d.fields.flatten.count newline := by
  rw [Chunk.inner, allFields, List.reverse_cons, List.dropLast_concat, List.count_flatten,
    List.count_flatten, List.map_reverse, List.sum_reverse]

def FollowsAfter (b : UInt8) : Draft ⊕ Chunk → Prop
  | .inl d => d.Follows b
  | .inr chunk => chunk.inner < chunk.newlines

theorem followsAfter_step {d : Draft} {last : UInt8} (h : d.Follows last) (b : UInt8) :
    FollowsAfter b (d.step b) := by
  have htotal := h.total
  have hcounted := newlines_counting d b
  have hfields := fields_counting d b
  have hfield := field_counting d b
  have hone : b = newline → [b].count newline = 1 := by
    rintro rfl
    rfl
  have hsteps := steps_step d b
  generalize d.step b = next at hsteps ⊢
  cases hsteps with
  | skip hstart =>
    refine ⟨?_, fun _ hplace => absurd hstart hplace⟩
    rw [hfields, hfield]
    omega
  | mark =>
    refine ⟨?_, fun hb _ => ?_⟩
    · simp only [hfields, hfield]
      omega
    · have := hone hb
      simp only [hfields]
      omega
  | add =>
    refine ⟨?_, fun hb _ => ?_⟩
    · simp only [Draft.add, hfields, hfield]
      rw [← List.singleton_append, List.count_append]
      omega
    · have := hone hb
      simp only [Draft.add, hfields]
      omega
  | endField =>
    refine ⟨?_, fun hb _ => ?_⟩
    · simp only [endField, hfields, hfield, List.flatten_cons, List.count_append,
        List.count_reverse, List.count_nil]
      omega
    · have := hone hb
      simp only [endField, hfields, hfield, List.flatten_cons, List.count_append,
        List.count_reverse]
      omega
  | finish hb =>
    have := hone hb
    change Chunk.inner ⟨(d.counting b).allFields, (d.counting b).newlines⟩ < (d.counting b).newlines
    rw [inner_allFields, hfields]
    omega

end Draft

/-- Records that have a newline besides those in their inner fields, except
perhaps the last where the input does not end with a newline. -/
inductive Settled (terminated : Bool) : List Chunk → Prop
  | nil : Settled terminated []
  | last {chunk : Chunk} : chunk.inner ≤ chunk.newlines →
      (terminated = true → chunk.inner < chunk.newlines) → Settled terminated [chunk]
  | cons {chunk : Chunk} {chunks : List Chunk} : chunk.inner < chunk.newlines →
      Settled terminated chunks → Settled terminated (chunk :: chunks)

theorem settled_scanFrom {d : Draft} {last : UInt8} (h : d.Follows last) (bs : Bytes) :
    Settled (bs.getLastD last == newline) (scanFrom d bs).chunks := by
  induction bs generalizing d last with
  | nil =>
    rw [scanFrom]
    split_ifs with hplace
    · exact .nil
    · have htotal := h.total
      refine .last ?_ fun hlast => ?_
      · rw [Draft.inner_allFields]
        exact le_trans (Nat.le_add_right ..) htotal
      · rw [Draft.inner_allFields]
        exact h.finished (by simpa using hlast) hplace
  | cons b bs ih =>
    have hstep := Draft.followsAfter_step h b
    rw [List.getLastD_cons, scanFrom]
    cases hb : d.step b with
    | inl d' =>
      rw [hb] at hstep
      exact ih hstep
    | inr chunk =>
      rw [hb] at hstep
      exact .cons hstep (ih (Draft.follows_empty b))

theorem settled_scan (input : Bytes) :
    Settled (input.getLast? == some newline) (scan input).chunks := by
  have hlast : ∀ (b : UInt8) (bs : Bytes), ((b :: bs).getLast? == some newline) =
      (bs.getLastD b == newline) := by
    intro b bs
    rw [List.getLast?_cons, Option.some_beq_some, List.getLastD_eq_getLast?]
  rw [scan]
  unfold dropMark
  split
  · rename_i rest
    rw [hlast, List.getLastD_cons, List.getLastD_cons]
    exact settled_scanFrom (Draft.follows_empty _) rest
  · cases input with
    | nil => exact .nil
    | cons b bs =>
      rw [hlast, ← List.getLastD_cons (a := newline)]
      exact settled_scanFrom (Draft.follows_empty _) (b :: bs)

def Sound (items : List (Except Error Line)) : Prop := ∀ item ∈ items, ∃ line, item = .ok line

theorem Sound.of_account_cons {origin : Path} {terminated : Bool} {trailing start : Nat}
    {previous : Option (Nat × Nat)} {chunk : Chunk} {chunks : List Chunk}
    (h : Sound (account origin terminated trailing start previous (chunk :: chunks))) :
    ∃ fields, chunk.fields.mapM fieldText? = some fields ∧ chunk.newlines ≤ 1 ∧
      account origin terminated trailing start previous (chunk :: chunks) =
        .ok ⟨start, fields⟩ :: account origin terminated trailing (start + chunk.newlines)
          (some (start, start + chunk.newlines)) chunks := by
  rw [account] at h ⊢
  cases hfields : chunk.fields.mapM fieldText? with
  | none =>
    rw [hfields] at h
    obtain ⟨line, hline⟩ := h _ (List.mem_singleton.mpr rfl)
    cases hline
  | some fields =>
    simp only [hfields] at h ⊢
    split_ifs at h ⊢ with hlong
    · obtain ⟨line, hline⟩ := h _ (List.mem_singleton.mpr rfl)
      cases hline
    · exact ⟨fields, rfl, Nat.not_lt.mp hlong, rfl⟩

theorem Sound.of_account_nil {origin : Path} {terminated : Bool} {trailing first next : Nat}
    (h : Sound (account origin terminated trailing 0 (some (first, next)) [])) :
    next = first + 1 → terminated = true := by
  intro hnext
  rw [account] at h
  split_ifs at h with htrailing hbroken
  · obtain ⟨line, hline⟩ := h _ (List.mem_singleton.mpr rfl)
    cases hline
  · obtain ⟨line, hline⟩ := h _ (List.mem_singleton.mpr rfl)
    cases hline
  · by_contra hterminated
    exact hbroken ⟨hnext, by simpa using hterminated⟩

theorem inner_of_account {origin : Path} {terminated : Bool} {trailing start : Nat}
    {previous : Option (Nat × Nat)} {chunks : List Chunk} (hsettled : Settled terminated chunks)
    (h : Sound (account origin terminated trailing start previous chunks)) {line : Line}
    (hline : .ok line ∈ account origin terminated trailing start previous chunks) :
    ∃ chunk ∈ chunks, chunk.fields.mapM fieldText? = some line.fields ∧ chunk.inner = 0 := by
  have hnone : ∀ {start : Nat} {previous : Option (Nat × Nat)},
      .ok line ∉ account origin terminated trailing start previous [] := by
    intro start previous hmem
    cases previous with
    | none => cases hmem
    | some previous =>
      rw [account] at hmem
      split_ifs at hmem <;> simp at hmem
  induction hsettled generalizing start previous with
  | nil => exact absurd hline hnone
  | last hinner htight =>
    rename_i chunk
    obtain ⟨fields, hfields, hshort, heq⟩ := h.of_account_cons
    rw [heq] at h hline
    have hrest : Sound _ := fun item hitem => h item (List.mem_cons_of_mem _ hitem)
    have hlast := Sound.of_account_nil hrest
    rcases List.mem_cons.mp hline with hline | hline
    · cases hline
      refine ⟨chunk, List.mem_singleton.mpr rfl, hfields, ?_⟩
      rcases Nat.le_one_iff_eq_zero_or_eq_one.mp hshort with hzero | hone
      · rw [hzero] at hinner
        exact Nat.le_zero.mp hinner
      · have hterminated := hlast (by rw [hone])
        have := htight hterminated
        omega
    · exact absurd hline hnone
  | cons htight hrest ih =>
    rename_i chunk chunks
    obtain ⟨fields, hfields, hshort, heq⟩ := h.of_account_cons
    rw [heq] at h hline
    rcases List.mem_cons.mp hline with hline | hline
    · cases hline
      exact ⟨chunk, List.mem_cons_self .., hfields, by omega⟩
    · obtain ⟨other, hother, hspec⟩ :=
        ih (fun item hitem => h item (List.mem_cons_of_mem _ hitem)) hline
      exact ⟨other, List.mem_cons_of_mem _ hother, hspec⟩

theorem eq_trimmed_of_fieldText? {field : Bytes} {text : String} (h : fieldText? field = some text) :
    ∃ cs, Text.utf8 cs = field ∧ text = trimmed cs := by
  obtain ⟨s, hs, rfl⟩ := Option.map_eq_some_iff.mp h
  refine ⟨s.toList, ?_, rfl⟩
  rw [← Text.encode_ofList, String.ofList_toList]
  exact Text.decode?_eq_some_iff.mp hs

theorem tidy_of_lines {origin : Path} {input : Bytes} (h : Sound (lines origin input))
    {line : Line} (hline : .ok line ∈ lines origin input) {function cycles : String}
    (hfields : line.fields = [function, cycles]) :
    Text.Trimmed function.toList ∧ '\n' ∉ function.toList := by
  obtain ⟨chunk, -, hchunk, hinner⟩ := inner_of_account (settled_scan input) h hline
  rw [hfields, mapM_eq_some_iff] at hchunk
  obtain ⟨first, rest, hfirst, hrest, hpair⟩ := List.forall₂_cons_right_iff.mp hchunk
  obtain ⟨second, none, -, hnone, hsecond⟩ := List.forall₂_cons_right_iff.mp hrest
  obtain rfl := List.forall₂_nil_right_iff.mp hnone
  obtain ⟨cs, hcs, rfl⟩ := eq_trimmed_of_fieldText? hfirst
  have hclean : newline ∉ Text.utf8 cs := by
    rw [Chunk.inner, hpair, hsecond] at hinner
    rw [hcs]
    simpa [List.count_eq_zero] using hinner
  rw [trimmed, String.toList_ofList]
  refine ⟨Text.trimmed_trim cs, fun hmem => hclean ?_⟩
  exact List.mem_flatMap.mpr ⟨'\n', Text.mem_of_mem_trim hmem, by decide⟩

end Records

namespace TrialAccumulator

def Tidy (acc : TrialAccumulator) : Prop := ∀ row ∈ acc.rows, row.Tidy

theorem Tidy.push {acc acc' : TrialAccumulator} (h : acc.Tidy) {line : Nat} {function : String}
    {cycles : UInt64} (htrimmed : Text.Trimmed function.toList) (hnewline : '\n' ∉ function.toList)
    (hpush : acc.push line function cycles = .ok acc') : acc'.Tidy := by
  obtain ⟨-, ⟨-, rfl⟩ | ⟨-, ⟨old, hold, -, rfl⟩ | ⟨-, rfl⟩⟩⟩ := push_eq_ok_iff.mp hpush
  · intro row hrow
    rcases List.mem_append.mp hrow with hrow | hrow
    · exact h row hrow
    · rw [List.mem_singleton.mp hrow]
      exact ⟨htrimmed, hnewline, List.cons_ne_nil _ _⟩
  · intro row hrow
    have hold := h old (List.mem_of_getElem? hold)
    rcases List.mem_or_eq_of_mem_set hrow with hrow | rfl
    · exact h row hrow
    · exact ⟨hold.trimmed, hold.newline, by simp⟩
  · exact h

end TrialAccumulator

namespace TrialShape

theorem sound_of_reshape {shape : TrialShape} {origin : Path}
    {input : List (Except Error Records.Line)} {rows : List FunctionRow}
    (h : shape.reshape origin input = .ok rows) : Records.Sound input := by
  obtain ⟨acc, hfold, -⟩ := bind_eq_ok_iff.mp h
  intro item hitem
  obtain ⟨before, after, hstep⟩ := exists_step_of_foldlM hfold hitem
  obtain ⟨line, hline, -⟩ := bind_eq_ok_iff.mp hstep
  exact ⟨line, hline⟩

theorem fields_of_measurement {origin : Path} {line : Records.Line} {function : String}
    {cycles : UInt64} (h : measurement origin line = .ok (function, cycles)) :
    ∃ count, line.fields = [function, count] := by
  unfold measurement at h
  split at h
  · rename_i name count hfields
    obtain ⟨n, -, h⟩ := bind_eq_ok_iff.mp h
    cases h
    exact ⟨count, hfields⟩
  · cases h

theorem tidy_of_reshape {shape : TrialShape} {origin : Path} {input : Bytes}
    {rows : List FunctionRow} (h : shape.reshape origin (Records.lines origin input) = .ok rows) :
    ∀ row ∈ rows, row.Tidy := by
  have hsound := sound_of_reshape h
  obtain ⟨acc, hfold, hfinish⟩ := bind_eq_ok_iff.mp h
  have htidy : acc.Tidy := by
    refine foldlM_keeps (fun acc item acc' hitem hacc hstep => ?_) (by simp [TrialAccumulator.Tidy])
      hfold
    obtain ⟨line, hline, hstep⟩ := bind_eq_ok_iff.mp hstep
    obtain ⟨⟨function, cycles⟩, hmeasurement, hpush⟩ := bind_eq_ok_iff.mp hstep
    obtain ⟨count, hfields⟩ := fields_of_measurement hmeasurement
    obtain ⟨htrimmed, hnewline⟩ := Records.tidy_of_lines hsound (hline ▸ hitem) hfields
    exact hacc.push htrimmed hnewline hpush
  unfold TrialAccumulator.finish at hfinish
  split_ifs at hfinish
  cases hfinish
  exact htidy

/-- What was reshaped is read back from its file exactly if no function is without
a name and no mark stands in front of the first. -/
theorem reshaped_rows_read_back_iff (shape : TrialShape) (origin destination : Path) (input : Bytes)
    (rows : List FunctionRow) (h : shape.reshape origin (Records.lines origin input) = .ok rows) :
    FunctionRow.read destination
        (Records.lines destination (Text.encode (FunctionRow.write rows))) = rows.map .ok ↔
      (∀ row ∈ rows, row.function ≠ "") ∧ ¬FunctionRow.Marked rows :=
  FunctionRow.read_write_eq_iff (tidy_of_reshape h) destination

def twoTrials : Bytes := Text.encode "\"\uFEFFa,b\",1\ng,2\n\"\uFEFFa,b\",3\ng,4"

def twoTrialRows : List FunctionRow := [⟨"\uFEFFa,b", [1, 3]⟩, ⟨"g", [2, 4]⟩]

theorem reshaped_rows_read_back_iff_twoTrials :
    reshape ⟨2, some 2, by decide⟩ ⟨"raw.csv"⟩ (Records.lines ⟨"raw.csv"⟩ twoTrials) =
        .ok twoTrialRows ∧
      (∀ row ∈ twoTrialRows, row.function ≠ "") ∧ ¬FunctionRow.Marked twoTrialRows ∧
      FunctionRow.read ⟨"rows.csv"⟩ (Records.lines ⟨"rows.csv"⟩
        (Text.encode (FunctionRow.write twoTrialRows))) = twoTrialRows.map .ok := by
  have hrows : reshape ⟨2, some 2, by decide⟩ ⟨"raw.csv"⟩
      (Records.lines ⟨"raw.csv"⟩ twoTrials) = .ok twoTrialRows :=
    toOption_eq_some_iff.mp (by decide +kernel)
  have hnames : ∀ row ∈ twoTrialRows, row.function ≠ "" := by decide
  have hmark : ¬FunctionRow.Marked twoTrialRows := by
    rintro ⟨row, hrow, -, hplain⟩
    cases hrow
    revert hplain
    decide
  have hread := reshaped_rows_read_back_iff _ ⟨"raw.csv"⟩ ⟨"rows.csv"⟩ twoTrials _ hrows
  exact ⟨hrows, hnames, hmark, hread.mpr ⟨hnames, hmark⟩⟩

theorem nameless_row_not_read_back :
    reshape ⟨1, none, by decide⟩ ⟨"raw.csv"⟩
        (Records.lines ⟨"raw.csv"⟩ (Text.encode ",5\n")) = .ok [⟨"", [5]⟩] ∧
      FunctionRow.read ⟨"rows.csv"⟩
        (Records.lines ⟨"rows.csv"⟩ (Text.encode (FunctionRow.write [⟨"", [5]⟩]))) =
        [.error (.malformedLine ⟨"rows.csv"⟩ 1 .missingFunction)] := by
  constructor
  · exact toOption_eq_some_iff.mp (by decide +kernel)
  · have htidy : ∀ row ∈ [(⟨"", [5]⟩ : FunctionRow)], row.Tidy := by
      intro row hrow
      rw [List.mem_singleton.mp hrow]
      exact ⟨by decide, by decide, List.cons_ne_nil _ _⟩
    have hmark : ¬FunctionRow.Marked [(⟨"", [5]⟩ : FunctionRow)] := by
      rintro ⟨row, hrow, hfirst, -⟩
      cases hrow
      cases hfirst
    exact FunctionRow.read_write htidy hmark ⟨"rows.csv"⟩

end TrialShape
end CycleCount
