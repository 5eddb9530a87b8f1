import CycleCount.Proofs.FunctionRows
import CycleCount.Proofs.PlainLines

/-! The grammar of sample files. A text without quotes is accepted exactly if each
of its lines is a row of counts, and then its columns hold these counts. In any
other text the first line that is no row is found. -/

namespace CycleCount

namespace Decimal

def IsCount (cs : List Char) (n : UInt64) : Prop :=
  ∃ digits, (cs = digits ∨ cs = '+' :: digits) ∧ digits ≠ [] ∧ (∀ c ∈ digits, c.isDigit = true) ∧
    Nat.ofDigitChars 10 digits 0 = n.toNat

theorem isDigit_of_digit? {c : Char} {d : Nat} (h : digit? c = some d) : c.isDigit = true := by
  unfold digit? at h
  split_ifs at h with hrange
  simp only [Char.isDigit, Bool.and_eq_true, decide_eq_true_eq]
  exact hrange

theorem digitsFrom?_eq_some_iff {cs : List Char} {acc n : Nat} :
    digitsFrom? acc cs = some n ↔
      (∀ c ∈ cs, c.isDigit = true) ∧ Nat.ofDigitChars 10 cs acc = n := by
  constructor
  · intro h
    have hdigits : ∀ c ∈ cs, c.isDigit = true := by
      induction cs generalizing acc with
      | nil => exact List.forall_mem_nil _
      | cons c cs ih =>
        obtain ⟨d, hd, hrest⟩ := Option.bind_eq_some_iff.mp h
        exact List.forall_mem_cons.mpr ⟨isDigit_of_digit? hd, ih hrest⟩
    rw [digitsFrom?_of_isDigit hdigits] at h
    exact ⟨hdigits, Option.some.inj h⟩
  · rintro ⟨hdigits, rfl⟩
    exact digitsFrom?_of_isDigit hdigits acc

theorem natural?_eq_some_iff {cs : List Char} {n : Nat} :
    natural? cs = some n ↔
      cs ≠ [] ∧ (∀ c ∈ cs, c.isDigit = true) ∧ Nat.ofDigitChars 10 cs 0 = n := by
  cases cs with
  | nil => exact ⟨nofun, fun h => absurd rfl h.1⟩
  | cons c cs =>
    rw [natural?, digitsFrom?_eq_some_iff, and_iff_right (List.cons_ne_nil c cs)]

theorem unsigned?_eq_some_iff {cs : List Char} {n : Nat} :
    unsigned? cs = some n ↔ ∃ digits, (cs = digits ∨ cs = '+' :: digits) ∧ digits ≠ [] ∧
      (∀ c ∈ digits, c.isDigit = true) ∧ Nat.ofDigitChars 10 digits 0 = n := by
  have hplus : ('+' : Char).isDigit = false := by decide
  unfold unsigned?
  split
  · rename_i cs
    rw [natural?_eq_some_iff]
    constructor
    · intro h
      exact ⟨cs, .inr rfl, h⟩
    · rintro ⟨digits, rfl | hcs, hdigits⟩
      · have hdigit := hdigits.2.1 '+' (List.mem_cons_self ..)
        rw [hplus] at hdigit
        cases hdigit
      · cases hcs
        exact hdigits
  · rename_i hsign
    rw [natural?_eq_some_iff]
    constructor
    · intro h
      exact ⟨cs, .inl rfl, h⟩
    · rintro ⟨digits, rfl | hcs, hdigits⟩
      · exact hdigits
      · exact absurd hcs (hsign digits)

theorem word?_eq_some_iff {cs : List Char} {n : UInt64} : word? cs = some n ↔ IsCount cs n := by
  have hword : word? cs = some n ↔ unsigned? cs = some n.toNat := by
    unfold word?
    rw [Option.bind_eq_bind, Option.bind_eq_some_iff]
    constructor
    · rintro ⟨m, hm, hn⟩
      split_ifs at hn with hlt
      cases hn
      rw [hm, UInt64.toNat_ofNatLT]
    · intro h
      refine ⟨n.toNat, h, ?_⟩
      rw [dif_pos n.toNat_lt_size, UInt64.ofNatLT_toNat]
  rw [hword, unsigned?_eq_some_iff, IsCount]

instance (cs : List Char) : Decidable (∃ n, IsCount cs n) :=
  decidable_of_iff ((word? cs).isSome = true) (by
    simp only [Option.isSome_iff_exists, word?_eq_some_iff])

end Decimal

namespace Records

open Text

def IsRow (columns : Nat) (line : List Char) : Prop :=
  line ≠ [] ∧ (split ',' line).length = columns ∧
    ∀ field ∈ split ',' line, ∃ n, Decimal.IsCount (trim field) n

instance (columns : Nat) : DecidablePred (IsRow columns) := fun line =>
  inferInstanceAs (Decidable (line ≠ [] ∧ (split ',' line).length = columns ∧
    ∀ field ∈ split ',' line, ∃ n, Decimal.IsCount (trim field) n))

def Counts (line : List Char) (row : List UInt64) : Prop :=
  List.Forall₂ (fun field n => Decimal.IsCount (trim field) n) (split ',' line) row

theorem cycles_trimmed_eq_ok_iff {origin : Path} {number : Nat} {field : List Char} {n : UInt64} :
    cycles origin number (trimmed field) = .ok n ↔ Decimal.IsCount (trim field) n := by
  unfold cycles
  rw [trimmed, String.toList_ofList, ← Decimal.word?_eq_some_iff]
  cases Decimal.word? (trim field) with
  | none =>
    constructor
    · intro h
      cases h
    · intro h
      cases h
  | some m => rw [Except.ok.injEq, Option.some.injEq]

theorem IsRow.exists_counts {columns : Nat} {line : List Char} (h : IsRow columns line) :
    ∃ row, Counts line row := exists_forall₂ h.2.2

theorem Counts.ne_nil {line : List Char} {row : List UInt64} (h : Counts line row) : line ≠ [] := by
  rintro rfl
  obtain ⟨n, -, digits, hdigits, hne, -⟩ :=
    exists_right_of_forall₂ h (List.mem_singleton.mpr (rfl : ([] : List Char) = []))
  rcases hdigits with hdigits | hdigits
  · exact hne hdigits.symm
  · cases hdigits

theorem sampleRow_eq_ok_iff {origin : Path} {columns number : Nat} {line : List Char}
    {row : List UInt64} :
    sampleRow origin columns ⟨number, fieldsOf line⟩ = .ok row ↔
      IsRow columns line ∧ Counts line row := by
  have hlength : (fieldsOf line).length = (split ',' line).length := List.length_map ..
  have hmap : (fieldsOf line).mapM (cycles origin number) = .ok row ↔ Counts line row := by
    rw [mapM_eq_ok_iff, fieldsOf, List.forall₂_map_left_iff, Counts]
    simp only [cycles_trimmed_eq_ok_iff]
  unfold sampleRow
  dsimp only
  rw [hlength]
  constructor
  · intro h
    split_ifs at h with hcolumns
    have hcounts := hmap.mp h
    refine ⟨⟨hcounts.ne_nil, not_not.mp hcolumns, fun field hfield => ?_⟩, hcounts⟩
    obtain ⟨n, -, hn⟩ := exists_right_of_forall₂ hcounts hfield
    exact ⟨n, hn⟩
  · rintro ⟨⟨-, hcolumns, -⟩, hcounts⟩
    rw [if_neg (not_not.mpr hcolumns)]
    exact hmap.mpr hcounts

theorem fault_of_sampleRow {origin : Path} {columns : Nat} {line : Line} {error : Error}
    (h : sampleRow origin columns line = .error error) :
    ∃ fault, fault ≠ .emptyLine ∧ error = .malformedLine origin line.number fault := by
  unfold sampleRow at h
  split_ifs at h
  · cases h
    exact ⟨.columnCount .., nofun, rfl⟩
  · obtain ⟨field, -, hfield⟩ := exists_error_of_mapM h
    unfold cycles at hfield
    split at hfield
    · cases hfield
    · cases hfield
      exact ⟨.notCycles field, nofun, rfl⟩

theorem exists_error_of_not_isRow {columns : Nat} {line : List Char} (h : ¬IsRow columns line)
    (origin : Path) (number : Nat) :
    ∃ error, sampleRow origin columns ⟨number, fieldsOf line⟩ = .error error := by
  cases hrow : sampleRow origin columns ⟨number, fieldsOf line⟩ with
  | error error => exact ⟨error, rfl⟩
  | ok row => exact absurd (sampleRow_eq_ok_iff.mp hrow).1 h

theorem IsRow.exists_sampleRow {columns : Nat} {line : List Char} (h : IsRow columns line)
    (origin : Path) (number : Nat) :
    ∃ row, sampleRow origin columns ⟨number, fieldsOf line⟩ = .ok row := by
  obtain ⟨row, hcounts⟩ := h.exists_counts
  exact ⟨row, sampleRow_eq_ok_iff.mpr ⟨h, hcounts⟩⟩

inductive Located (origin : Path) (columns start : Nat) (lines : List (List Char)) :
    Except Error (List (List UInt64)) → Prop
  | rows {rows : List (List UInt64)} (hrows : ∀ line ∈ lines, IsRow columns line)
      (hcounts : List.Forall₂ Counts lines rows) : Located origin columns start lines (.ok rows)
  | fault {good rest : List (List Char)} {bad : List Char} {fault : LineFault}
      (hlines : lines = good ++ bad :: rest) (hgood : ∀ line ∈ good, IsRow columns line)
      (hbad : ¬IsRow columns bad) :
      Located origin columns start lines
        (.error (.malformedLine origin (start + good.length) fault))

theorem Located.head {origin : Path} {columns start : Nat} {bad : List Char}
    (hbad : ¬IsRow columns bad) (rest : List (List Char)) (fault : LineFault) :
    Located origin columns start (bad :: rest) (.error (.malformedLine origin start fault)) :=
  @Located.fault origin columns start (bad :: rest) [] rest bad fault rfl (List.forall_mem_nil _)
    hbad

section Rows

variable {origin : Path} {columns start : Nat}

def sampleRows (origin : Path) (columns : Nat) (input : List (Except Error Line)) :
    Except Error (List (List UInt64)) :=
  input.mapM fun line => do sampleRow origin columns (← line)

theorem sampleRows_cons (line : Line) (input : List (Except Error Line)) :
    sampleRows origin columns (.ok line :: input) = do
      let row ← sampleRow origin columns line
      let rows ← sampleRows origin columns input
      return row :: rows := by
  rw [sampleRows, List.mapM_cons, ok_bind]
  rfl

theorem Located.cons {line : List Char} {lines : List (List Char)}
    {input : List (Except Error Line)}
    (h : Located origin columns (start + 1) lines (sampleRows origin columns input)) :
    Located origin columns start (line :: lines)
      (sampleRows origin columns (.ok ⟨start, fieldsOf line⟩ :: input)) := by
  rw [sampleRows_cons]
  cases hrow : sampleRow origin columns ⟨start, fieldsOf line⟩ with
  | error error =>
    obtain ⟨fault, -, rfl⟩ := fault_of_sampleRow hrow
    have hbad : ¬IsRow columns line := by
      intro hgood
      obtain ⟨row, hok⟩ := hgood.exists_sampleRow origin start
      cases hok.symm.trans hrow
    exact .head hbad lines fault
  | ok row =>
    obtain ⟨hline, hcounts⟩ := sampleRow_eq_ok_iff.mp hrow
    rw [ok_bind]
    generalize sampleRows origin columns input = result at h
    cases h with
    | rows hrows hlines =>
      exact .rows (List.forall_mem_cons.mpr ⟨hline, hrows⟩) (.cons hcounts hlines)
    | fault hlines hgood hbad =>
      rename_i good rest bad fault
      have hnumber : start + 1 + good.length = start + (line :: good).length := by
        rw [List.length_cons]
        omega
      rw [error_bind, hnumber]
      exact .fault (by rw [hlines, List.cons_append]) (List.forall_mem_cons.mpr ⟨hline, hgood⟩) hbad

theorem located_of_blank {lines : List (List Char)} {input : List (Except Error Line)}
    (h : input = [.error (.malformedLine origin start .emptyLine)] ∨
      ∃ fields, input = [.ok ⟨start, fields⟩, .error (.malformedLine origin start .emptyLine)]) :
    Located origin columns start ([] :: lines) (sampleRows origin columns input) := by
  have hbad : ¬IsRow columns [] := fun h => h.1 rfl
  rcases h with rfl | ⟨fields, rfl⟩
  · exact .head hbad lines .emptyLine
  · rw [sampleRows_cons]
    cases hrow : sampleRow origin columns ⟨start, fields⟩ with
    | error error =>
      obtain ⟨fault, -, rfl⟩ := fault_of_sampleRow hrow
      exact .head hbad lines fault
    | ok row => exact .head hbad lines .emptyLine

theorem located_reading {cs : List Char} (hquote : '"' ∉ cs) {terminated : Bool}
    (hends : EndsIn terminated cs) {previous : Option (Nat × Nat)}
    (hprevious : (previous = none ∧ ∃ line ∈ textLines cs, line ≠ []) ∨
      ∃ first, previous = some (first, start)) :
    Located origin columns start (textLines cs)
      (sampleRows origin columns (reading origin terminated start previous 0 cs)) := by
  induction cs using lineInduction generalizing start previous with
  | last cs hnewline =>
    by_cases hne : cs = []
    · subst hne
      obtain rfl : terminated = true := hends.mpr (.inl rfl)
      rw [reading_nil (hprevious.imp_left And.left)]
      exact .rows (List.forall_mem_nil _) .nil
    · rw [reading_last hne hquote hnewline, textLines_last hne hnewline]
      exact .cons (.rows (List.forall_mem_nil _) .nil)
  | line cs rest hnewline ih =>
    rw [List.mem_append, List.mem_cons, not_or, not_or] at hquote
    obtain ⟨hline, -, hrest⟩ := hquote
    have hends' := (endsIn_line_iff cs rest).mp hends
    rw [textLines_cons hnewline] at hprevious ⊢
    by_cases hne : cs = []
    · subst hne
      have hprevious' : (∃ line ∈ textLines rest, line ≠ []) ∨
          ∃ first, previous = some (first, start) := by
        rcases hprevious with ⟨-, line, hmem, hline⟩ | hprevious
        · exact .inl ⟨line, (List.mem_cons.mp hmem).resolve_left hline, hline⟩
        · exact .inr hprevious
      apply located_of_blank
      rw [List.nil_append, reading_newline,
        reading_of_blanks hrest (Nat.succ_pos 0) hends' hprevious']
      split_ifs
      · exact .inr ⟨_, rfl⟩
      · exact .inl rfl
    · rw [reading_line hne hline hnewline, if_neg (Nat.lt_irrefl 0)]
      exact .cons (ih hrest hends' (.inr ⟨start, rfl⟩))

end Rows

structure Tabulates (columns : Nat) (lines : List (List Char)) (table : List (List UInt64)) :
    Prop where
  width : table.length = columns
  height : ∀ column ∈ table, column.length = lines.length
  entries : ∀ (i : Nat) (line : List Char), lines[i]? = some line →
    ∀ (j : Nat) (field : List Char), (split ',' line)[j]? = some field →
      ∃ column n, table[j]? = some column ∧ column[i]? = some n ∧ Decimal.IsCount (trim field) n

theorem column_eq_map {rows : List (List UInt64)} {j : Nat} (h : ∀ row ∈ rows, j < row.length) :
    column rows j = rows.map (·[j]?.getD 0) := by
  rw [column, List.filterMap_eq_map_iff_forall_eq_some]
  intro row hrow
  rw [List.getElem?_eq_getElem (h row hrow), Option.getD_some]

theorem tabulates_of_rows {columns : Nat} {lines : List (List Char)} {rows : List (List UInt64)}
    (hrows : ∀ line ∈ lines, IsRow columns line) (hcounts : List.Forall₂ Counts lines rows) :
    Tabulates columns lines ((List.range columns).map (column rows)) := by
  have hlength : ∀ row ∈ rows, row.length = columns := by
    intro row hrow
    obtain ⟨line, hline, hcount⟩ := exists_left_of_forall₂ hcounts hrow
    rw [← hcount.length_eq, (hrows line hline).2.1]
  have hcolumn : ∀ j < columns, column rows j = rows.map (·[j]?.getD 0) := fun j hj =>
    column_eq_map fun row hrow => (hlength row hrow).symm ▸ hj
  refine ⟨by rw [List.length_map, List.length_range], ?_, ?_⟩
  · intro counts hmem
    obtain ⟨j, hj, rfl⟩ := List.mem_map.mp hmem
    rw [hcolumn j (List.mem_range.mp hj), List.length_map, hcounts.length_eq]
  · intro i line hline j field hfield
    obtain ⟨row, hrow, hcount⟩ := getElem?_of_forall₂ hcounts hline
    obtain ⟨n, hn, hdecimal⟩ := getElem?_of_forall₂ hcount hfield
    have hj : j < columns := by
      obtain ⟨hlt, -⟩ := List.getElem?_eq_some_iff.mp hn
      rwa [hlength row (List.mem_of_getElem? hrow)] at hlt
    refine ⟨column rows j, n, ?_, ?_, hdecimal⟩
    · rw [List.getElem?_map, List.getElem?_range hj, Option.map_some]
    · rw [hcolumn j hj, List.getElem?_map, hrow, Option.map_some, hn, Option.getD_some]

theorem eq_takeWhile_of_first {columns : Nat} {lines good rest : List (List Char)}
    {bad : List Char} (hlines : lines = good ++ bad :: rest)
    (hgood : ∀ line ∈ good, IsRow columns line) (hbad : ¬IsRow columns bad) :
    good = lines.takeWhile fun line => decide (IsRow columns line) := by
  rw [hlines, List.takeWhile_append_of_pos (by simpa using hgood),
    List.takeWhile_cons_of_neg (by simpa using hbad), List.append_nil]

/-- A text without quotes and byte order mark in which some line is not empty is
accepted exactly if every line is a row of counts. Its columns hold these counts;
and if some line is no row, the first such line is the one that is named. -/
theorem sampleColumns_grammar (origin : Path) (columns : Nat) (hcolumns : 1 ≤ columns)
    (text : String) (hquote : '"' ∉ text.toList) (hmark : text.toList.head? ≠ some mark)
    (hline : ∃ line ∈ textLines text.toList, line ≠ []) :
    ((∃ table, sampleColumns origin columns (lines origin (encode text)) = .ok table) ↔
      ∀ line ∈ textLines text.toList, IsRow columns line) ∧
    (∀ table, sampleColumns origin columns (lines origin (encode text)) = .ok table →
      Tabulates columns (textLines text.toList) table) ∧
    ∀ good bad rest, textLines text.toList = good ++ bad :: rest →
      (∀ line ∈ good, IsRow columns line) → ¬IsRow columns bad →
      ∃ fault, sampleColumns origin columns (lines origin (encode text)) =
        .error (.malformedLine origin (good.length + 1) fault) := by
  have hne : text.toList ≠ [] := by
    rintro hnil
    obtain ⟨line, hmem, -⟩ := hline
    rw [hnil] at hmem
    cases hmem
  have hbytes : encode text = utf8 text.toList := encode_eq text
  have hlocated : Located origin columns 1 (textLines text.toList)
      (sampleRows origin columns (lines origin (encode text))) := by
    rw [hbytes, lines_utf8 origin hmark]
    exact located_reading hquote (endsIn_utf8 hne) (.inl ⟨rfl, hline⟩)
  have hsample : sampleColumns origin columns (lines origin (encode text)) =
      sampleRows origin columns (lines origin (encode text)) >>= fun rows =>
        if rows.isEmpty || columns == 0 then .error (.malformedLine origin 0 .noSamples)
        else .ok ((List.range columns).map (column rows)) := rfl
  rw [hsample]
  generalize sampleRows origin columns (lines origin (encode text)) = result at hlocated
  cases hlocated with
  | rows hrows hcounts =>
    rename_i rows
    have hsome : (rows.isEmpty || columns == 0) = false := by
      obtain ⟨line, hmem, -⟩ := hline
      obtain ⟨row, hrow, -⟩ := exists_right_of_forall₂ hcounts hmem
      rw [List.isEmpty_eq_false_iff.mpr (List.ne_nil_of_mem hrow), Bool.false_or,
        beq_eq_false_iff_ne]
      omega
    rw [ok_bind, hsome, if_neg Bool.false_ne_true]
    refine ⟨⟨fun _ => hrows, fun _ => ⟨_, rfl⟩⟩, ?_, ?_⟩
    · rintro table ⟨⟩
      exact tabulates_of_rows hrows hcounts
    · intro good bad rest hlines _ hbad
      exact absurd (hrows bad (by rw [hlines]; simp)) hbad
  | fault hlines hgood hbad =>
    rename_i good rest bad fault
    rw [error_bind]
    refine ⟨⟨nofun, fun h => absurd (h bad (by rw [hlines]; simp)) hbad⟩, nofun, ?_⟩
    intro good' bad' rest' hlines' hgood' hbad'
    have hsame : good = good' := (eq_takeWhile_of_first hlines hgood hbad).trans
      (eq_takeWhile_of_first hlines' hgood' hbad').symm
    rw [hsame, Nat.add_comm]
    exact ⟨fault, rfl⟩

theorem sampleColumns_grammar_twoColumns :
    (∃ table, sampleColumns ⟨"s.csv"⟩ 2 (lines ⟨"s.csv"⟩ (encode "1, 2\n+3,04")) = .ok table ∧
      Tabulates 2 ["1, 2".toList, "+3,04".toList] table) ∧
    ∃ fault, sampleColumns ⟨"s.csv"⟩ 2 (lines ⟨"s.csv"⟩ (encode "1, 2\n\n3,x")) =
      .error (.malformedLine ⟨"s.csv"⟩ 2 fault) := by
  obtain ⟨haccepts, htable, -⟩ := sampleColumns_grammar ⟨"s.csv"⟩ 2 (by decide) "1, 2\n+3,04"
    (by decide) (by decide) (by decide)
  obtain ⟨-, -, hlocates⟩ := sampleColumns_grammar ⟨"s.csv"⟩ 2 (by decide) "1, 2\n\n3,x"
    (by decide) (by decide) (by decide)
  have hrows : ∀ line ∈ textLines "1, 2\n+3,04".toList, IsRow 2 line := by decide
  obtain ⟨table, hok⟩ := haccepts.mpr hrows
  exact ⟨⟨table, hok, htable table hok⟩,
    hlocates ["1, 2".toList] [] ["3,x".toList] (by decide) (by decide) (by decide)⟩

end Records
end CycleCount
