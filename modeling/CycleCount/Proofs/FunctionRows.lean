import Mathlib.Data.List.DropRight
import CycleCount.Proofs.Outcome
import CycleCount.Proofs.WrittenRecords
import CycleCount.Trials.Row

/-! Function rows and their file. A row is read back as it was written, if its
name has no outer blanks and no newline and if it has cycle counts at all. Two
kinds of names are still not read back: the empty one, and in the first row one
that opens with a byte order mark outside quotes. -/

namespace CycleCount

namespace Text

def Trimmed (cs : List Char) : Prop :=
  (∀ c ∈ cs.head?, isBlank c = false) ∧ ∀ c ∈ cs.getLast?, isBlank c = false

instance : DecidablePred Trimmed := fun cs =>
  decidable_of_iff (cs.head?.all (!isBlank ·) = true ∧ cs.getLast?.all (!isBlank ·) = true)
    (by simp [Trimmed, Option.all_eq_true])

theorem Trimmed.trim_eq {cs : List Char} (h : Trimmed cs) : trim cs = cs := by
  cases cs with
  | nil => rfl
  | cons c cs =>
    have hleft : trimLeft (c :: cs) = c :: cs := by
      rw [trimLeft, List.dropWhile_cons_of_neg (by simp [h.1 c rfl])]
    rw [trim, hleft]
    refine List.rdropWhile_eq_self_iff.mpr fun hne => ?_
    simp [h.2 _ (List.getLast?_eq_some_getLast hne)]

theorem isPrefix_trim (cs : List Char) : trim cs <+: trimLeft cs :=
  List.rdropWhile_prefix isBlank (trimLeft cs)

theorem trimmed_trim (cs : List Char) : Trimmed (trim cs) := by
  constructor
  · intro c hc
    obtain ⟨rest, hrest⟩ := isPrefix_trim cs
    have hleft : c ∈ (trimLeft cs).head? := by
      rw [← hrest, List.head?_append, hc]
      rfl
    have hnot := List.head?_dropWhile_not isBlank cs
    rw [trimLeft] at hleft
    rw [hleft] at hnot
    exact hnot
  · intro c hc
    have hne : trim cs ≠ [] := by
      rintro hnil
      rw [hnil] at hc
      cases hc
    have hlast := List.rdropWhile_last_not isBlank (trimLeft cs) hne
    rw [List.getLast?_eq_some_getLast hne] at hc
    cases hc
    exact Bool.eq_false_iff.mpr hlast

theorem mem_of_mem_trim {c : Char} {cs : List Char} (h : c ∈ trim cs) : c ∈ cs :=
  (List.dropWhile_suffix isBlank).subset ((isPrefix_trim cs).subset h)

theorem length_trim_le (cs : List Char) : (trim cs).length ≤ cs.length :=
  (isPrefix_trim cs).length_le.trans (List.dropWhile_suffix isBlank).length_le

end Text

namespace Decimal

theorem digit?_of_isDigit {c : Char} (h : c.isDigit = true) :
    digit? c = some (c.toNat - '0'.toNat) := by
  simp only [Char.isDigit, Bool.and_eq_true, decide_eq_true_eq] at h
  exact if_pos h

theorem digitsFrom?_of_isDigit {cs : List Char} (h : ∀ c ∈ cs, c.isDigit = true) (acc : Nat) :
    digitsFrom? acc cs = some (Nat.ofDigitChars 10 cs acc) := by
  induction cs generalizing acc with
  | nil => rfl
  | cons c cs ih =>
    rw [digitsFrom?, digit?_of_isDigit (h c (List.mem_cons_self ..)), Nat.ofDigitChars_cons]
    exact ih (fun c hc => h c (List.mem_cons_of_mem _ hc)) _

theorem isDigit_of_mem_repr {n : Nat} {c : Char} (h : c ∈ n.repr.toList) : c.isDigit = true := by
  rw [Nat.toList_repr] at h
  exact Nat.isDigit_of_mem_toDigits (by decide) (by decide) h

theorem unsigned?_repr (n : Nat) : unsigned? n.repr.toList = some n := by
  have hdigits : ∀ c ∈ n.repr.toList, c.isDigit = true := fun c hc => isDigit_of_mem_repr hc
  have hvalue := digitsFrom?_of_isDigit hdigits 0
  rw [Nat.toList_repr] at hdigits hvalue ⊢
  rw [Nat.ofDigitChars_ten_toDigits] at hvalue
  obtain ⟨c, cs, hcs⟩ := List.exists_cons_of_ne_nil (Nat.toDigits_ne_nil (n := n) (b := 10))
  rw [hcs] at hdigits hvalue ⊢
  unfold unsigned?
  split
  · rename_i heq
    cases heq
    have hplus := hdigits '+' (List.mem_cons_self ..)
    cases hplus
  · exact hvalue

theorem word?_repr (n : UInt64) : word? n.toNat.repr.toList = some n := by
  have hlt : n.toNat < UInt64.size := n.toNat_lt_size
  rw [word?, unsigned?_repr, Option.bind_eq_bind, Option.bind_some, dif_pos hlt,
    UInt64.ofNatLT_toNat]

theorem isBlank_of_isDigit {c : Char} (h : c.isDigit = true) : Text.isBlank c = false := by
  have hrange : 48 ≤ c.toNat ∧ c.toNat ≤ 57 := by
    simpa [Char.isDigit, UInt32.le_iff_toNat_le] using h
  simp only [Text.isBlank, Bool.or_eq_false_iff, Bool.and_eq_false_iff, decide_eq_false_iff_not,
    beq_eq_false_iff_ne]
  omega

theorem trimmed_repr (n : Nat) : Text.Trimmed n.repr.toList :=
  ⟨fun _ hc => isBlank_of_isDigit (isDigit_of_mem_repr (List.mem_of_mem_head? hc)),
    fun _ hc => isBlank_of_isDigit (isDigit_of_mem_repr (List.mem_of_getLast? hc))⟩

end Decimal

namespace Records

theorem cycles_repr (origin : Path) (line : Nat) (n : UInt64) :
    cycles origin line (trimmed n.toNat.repr.toList) = .ok n := by
  rw [cycles, trimmed, (Decimal.trimmed_repr _).trim_eq, String.toList_ofList, Decimal.word?_repr]

theorem writtenFields_cons (field : List Char) {fields : List (List Char)} (hne : fields ≠ []) :
    writtenFields (field :: fields) =
      writtenField field ++ ',' :: Text.join ',' (fields.map writtenField) := by
  obtain ⟨next, fields, rfl⟩ := List.exists_cons_of_ne_nil hne
  rw [writtenFields]
  · exact Text.join_cons_cons ..
  · simp

theorem head?_writtenField_append {field rest : List Char} (hrest : rest.head? ≠ some mark)
    (h : field.head? = some mark → field.any needsQuotes = true) :
    (writtenField field ++ rest).head? ≠ some mark := by
  unfold writtenField
  split_ifs with hquotes
  · rw [quoted, List.cons_append, List.cons_append, List.head?_cons]
    decide
  · cases field with
    | nil => exact hrest
    | cons c field => exact fun hmark => hquotes (h hmark)

end Records

namespace FunctionRow

open Records (Writable mark trimmed needsQuotes written writtenField writtenFields)

structure Tidy (row : FunctionRow) : Prop where
  trimmed : Text.Trimmed row.function.toList
  newline : '\n' ∉ row.function.toList
  cycles : row.cycles ≠ []

/-- The first name opens with a byte order mark that no quote stands before. -/
def Marked (rows : List FunctionRow) : Prop :=
  ∃ row ∈ rows.head?, row.function.toList.head? = some mark ∧
    row.function.toList.any needsQuotes = false

variable {row : FunctionRow} {rows : List FunctionRow}

theorem newline_not_mem_fields (h : '\n' ∉ row.function.toList) :
    ∀ field ∈ row.fields, '\n' ∉ field := by
  intro field hfield
  rcases List.mem_cons.mp hfield with rfl | hfield
  · exact h
  · obtain ⟨n, -, rfl⟩ := List.mem_map.mp hfield
    intro hnewline
    cases Decimal.isDigit_of_mem_repr hnewline

theorem writable_fields (h : ∀ row ∈ rows, '\n' ∉ row.function.toList) :
    Writable (rows.map fields) := by
  intro record hrecord
  obtain ⟨row, hrow, rfl⟩ := List.mem_map.mp hrecord
  exact ⟨List.cons_ne_nil _ _, newline_not_mem_fields (h row hrow)⟩

theorem ofLine_fields (h : row.Tidy) (origin : Path) (line : Nat) :
    ofLine origin ⟨line, row.fields.map trimmed⟩ =
      if row.function = "" then .error (.malformedLine origin line .missingFunction)
      else .ok row := by
  have hname : trimmed row.function.toList = row.function := by
    rw [trimmed, h.trimmed.trim_eq, String.ofList_toList]
  have hcycles : ((row.cycles.map fun n => n.toNat.repr.toList).map trimmed).mapM
      (Records.cycles origin line) = .ok row.cycles := by
    rw [mapM_eq_ok_iff, List.map_map, List.forall₂_map_left_iff]
    exact List.forall₂_same.mpr fun n _ => Records.cycles_repr origin line n
  simp only [ofLine, fields, List.map_cons, hname, hcycles, ok_bind, String.isEmpty_iff]
  split_ifs with hempty hnone
  · rfl
  · exact absurd (by simpa using hnone) h.cycles
  · rfl

theorem function_of_ofLine {origin : Path} {line : Records.Line}
    (h : ofLine origin line = .ok row) :
    row.function ≠ "" ∧ line.fields.head? = some row.function := by
  unfold ofLine at h
  split at h
  · cases h
  · rename_i function counts hfields
    split_ifs at h with hempty
    obtain ⟨cycles, -, h⟩ := bind_eq_ok_iff.mp h
    split_ifs at h
    cases h
    refine ⟨?_, by rw [hfields]; rfl⟩
    simpa [String.isEmpty_iff] using hempty

theorem function_ne_of_read {origin : Path} {input : List (Except Error Records.Line)}
    (h : read origin input = rows.map .ok) : ∀ row ∈ rows, row.function ≠ "" := by
  intro row hrow
  have hmem : .ok row ∈ read origin input := h ▸ List.mem_map_of_mem hrow
  obtain ⟨item, -, hitem⟩ := List.mem_map.mp hmem
  obtain ⟨line, -, hline⟩ := bind_eq_ok_iff.mp hitem
  exact (function_of_ofLine hline).1

theorem encode_write (rows : List FunctionRow) :
    Text.encode (write rows) = Text.utf8 (written (rows.map fields)) := Text.encode_ofList _

theorem getLast?_encode_write (hne : rows.map fields ≠ []) :
    (Text.encode (write rows)).getLast? = some Records.newline := by
  rw [encode_write]
  exact Records.getLast?_utf8_written hne

theorem head?_written (hcycles : ∀ row ∈ rows, row.cycles ≠ []) (h : ¬Marked rows) :
    (written (rows.map fields)).head? ≠ some mark := by
  cases rows with
  | nil => simp [written]
  | cons row rows =>
    have hcounts : (row.cycles.map fun n => n.toNat.repr.toList) ≠ [] := by
      simpa using hcycles row (List.mem_cons_self ..)
    rw [List.map_cons, written, List.flatMap_cons, fields, Records.writtenFields_cons _ hcounts,
      List.append_assoc, List.append_assoc]
    refine Records.head?_writtenField_append (by simp [mark]) fun hmark => ?_
    by_contra hquotes
    exact h ⟨row, rfl, hmark, by simpa using hquotes⟩

theorem read_write (h : ∀ row ∈ rows, row.Tidy) (hmark : ¬Marked rows) (origin : Path) :
    read origin (Records.lines origin (Text.encode (write rows))) =
      rows.mapIdx fun k row =>
        if row.function = "" then .error (.malformedLine origin (k + 1) .missingFunction)
        else .ok row := by
  have hwritable := writable_fields fun row hrow => (h row hrow).newline
  have hhead := head?_written (fun row hrow => (h row hrow).cycles) hmark
  have hlines := Records.lines_of_dropMark origin hwritable
    (by rw [encode_write, Records.dropMark_utf8 hhead]) getLast?_encode_write
  rw [read, hlines]
  refine List.ext_getElem? fun k => ?_
  simp only [List.getElem?_map, List.getElem?_mapIdx, Option.map_map]
  cases hrow : rows[k]? with
  | none => simp only [Option.map_none]
  | some row =>
    have hok := ofLine_fields (h row (List.mem_of_getElem? hrow)) origin (k + 1)
    simpa using hok

theorem written_of_marked (rows : List FunctionRow) {name : List Char}
    (hname : row.function.toList = mark :: name)
    (hplain : row.function.toList.any needsQuotes = false) (hcycles : row.cycles ≠ []) :
    written ((row :: rows).map fields) =
      mark :: written (({ row with function := String.ofList name } :: rows).map fields) := by
  have hcounts : (row.cycles.map fun n => n.toNat.repr.toList) ≠ [] := by simpa using hcycles
  have hfirst : writtenField row.function.toList = mark :: name := by
    rw [writtenField, hplain, if_neg Bool.false_ne_true, hname]
  have hrest : writtenField name = name := by
    rw [hname, List.any_cons, Bool.or_eq_false_iff] at hplain
    rw [writtenField, hplain.2, if_neg Bool.false_ne_true]
  simp only [List.map_cons, written, List.flatMap_cons, fields, String.toList_ofList,
    Records.writtenFields_cons _ hcounts, hfirst, hrest, List.cons_append]

theorem read_write_ne_of_marked (h : ∀ row ∈ rows, row.Tidy) (hmark : Marked rows)
    (origin : Path) :
    read origin (Records.lines origin (Text.encode (write rows))) ≠ rows.map .ok := by
  intro hread
  obtain ⟨row, hrow, hfirst, hplain⟩ := hmark
  cases rows with
  | nil => cases hrow
  | cons first rows =>
    cases hrow
    obtain ⟨name, hname⟩ := List.head?_eq_some_iff.mp hfirst
    have hhere := h row (List.mem_cons_self ..)
    have hwritten := written_of_marked rows hname hplain hhere.cycles
    have hnewlines : ∀ r ∈ { row with function := String.ofList name } :: rows,
        '\n' ∉ r.function.toList := by
      intro r hr
      rcases List.mem_cons.mp hr with rfl | hr
      · have hnot := hhere.newline
        rw [hname, List.mem_cons, not_or] at hnot
        simpa using hnot.2
      · exact (h r (List.mem_cons_of_mem _ hr)).newline
    have hlines := Records.lines_of_dropMark origin (writable_fields hnewlines)
      (by rw [encode_write, hwritten, Records.dropMark_utf8_mark])
      (fun _ => getLast?_encode_write (by simp))
    rw [read, hlines, List.map_cons, List.mapIdx_cons, List.map_cons, List.map_cons] at hread
    have hline := (List.cons.inj hread).1
    rw [ok_bind] at hline
    -- The name that is read is no longer than what is left of the name.
    have hshort := (function_of_ofLine hline).2
    simp only [fields, List.map_cons, List.head?_cons, Option.some.injEq,
      String.toList_ofList] at hshort
    have hlength := congrArg (fun s : String => s.toList.length) hshort
    simp only [trimmed, String.toList_ofList, hname, List.length_cons] at hlength
    have := Text.length_trim_le name
    omega

theorem read_write_eq_iff (h : ∀ row ∈ rows, row.Tidy) (origin : Path) :
    read origin (Records.lines origin (Text.encode (write rows))) = rows.map .ok ↔
      (∀ row ∈ rows, row.function ≠ "") ∧ ¬Marked rows := by
  constructor
  · intro hread
    exact ⟨function_ne_of_read hread, fun hmark => read_write_ne_of_marked h hmark origin hread⟩
  · rintro ⟨hnames, hmark⟩
    rw [read_write h hmark]
    refine List.ext_getElem? fun k => ?_
    rw [List.getElem?_mapIdx, List.getElem?_map]
    cases hrow : rows[k]? with
    | none => rfl
    | some row =>
      rw [Option.map_some, Option.map_some, if_neg (hnames row (List.mem_of_getElem? hrow))]

/-- Rows with sound names are read back from their file, in order and without
error. -/
theorem rows_read_back (rows : List FunctionRow) (origin : Path)
    (hnames : ∀ row ∈ rows, row.function ≠ "" ∧ Text.Trimmed row.function.toList ∧
      '\n' ∉ row.function.toList)
    (hcycles : ∀ row ∈ rows, row.cycles ≠ [])
    (hmark : ∀ row ∈ rows.head?, row.function.toList.head? ≠ some '\uFEFF') :
    read origin (Records.lines origin (Text.encode (write rows))) = rows.map .ok := by
  have htidy : ∀ row ∈ rows, row.Tidy := by
    intro row hrow
    obtain ⟨-, htrimmed, hnewline⟩ := hnames row hrow
    exact ⟨htrimmed, hnewline, hcycles row hrow⟩
  have hplain : ¬Marked rows := by
    rintro ⟨row, hrow, hfirst, -⟩
    exact hmark row hrow hfirst
  exact (read_write_eq_iff htidy origin).mpr ⟨fun row hrow => (hnames row hrow).1, hplain⟩

def awkwardRows : List FunctionRow :=
  [⟨"\"a\",b\rc", [0, 18446744073709551615]⟩, ⟨"\uFEFFé, ∀", [7]⟩, ⟨"\"", [1, 1]⟩]

theorem rows_read_back_awkwardRows :
    (∀ row ∈ awkwardRows, row.function ≠ "" ∧ Text.Trimmed row.function.toList ∧
      '\n' ∉ row.function.toList) ∧
    (∀ row ∈ awkwardRows, row.cycles ≠ []) ∧
    (∀ row ∈ awkwardRows.head?, row.function.toList.head? ≠ some '\uFEFF') ∧
    read ⟨"rows.csv"⟩ (Records.lines ⟨"rows.csv"⟩ (Text.encode (write awkwardRows))) =
      awkwardRows.map .ok := by
  have hnames : ∀ row ∈ awkwardRows, row.function ≠ "" ∧ Text.Trimmed row.function.toList ∧
      '\n' ∉ row.function.toList := by decide
  have hcycles : ∀ row ∈ awkwardRows, row.cycles ≠ [] := by simp [awkwardRows]
  have hmark : ∀ row ∈ awkwardRows.head?, row.function.toList.head? ≠ some '\uFEFF' := by decide
  exact ⟨hnames, hcycles, hmark, rows_read_back awkwardRows ⟨"rows.csv"⟩ hnames hcycles hmark⟩

end FunctionRow
end CycleCount
