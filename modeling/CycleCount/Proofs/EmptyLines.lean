import CycleCount.Proofs.LockStep
import CycleCount.Proofs.SampleGrammar
import CycleCount.Proofs.Sources

/-! Empty lines. The first empty line of a text ends the reading with an error
under its number, with two exceptions: a text of newlines alone is read as one
without lines, and the last line comes before the error if it stands directly
behind the empty line and has no newline. -/

namespace CycleCount

namespace Text

theorem textLines_nil : textLines [] = [] := rfl

theorem textLines_eq_nil_iff {cs : List Char} : textLines cs = [] ↔ cs = [] := by
  cases cs using lineInduction with
  | last cs hnewline =>
    by_cases hne : cs = []
    · simp [hne, textLines_nil]
    · simp [textLines_last hne hnewline, hne]
  | line cs rest hnewline _ => simp [textLines_cons hnewline]

end Text

namespace Records

open Text

def numbered : Nat → List (List Char) → List (Except Error Line)
  | _, [] => []
  | start, line :: lines => .ok ⟨start, fieldsOf line⟩ :: numbered (start + 1) lines

/-- What is read from an empty line on, of which `rest` are the lines behind it. -/
def hole (origin : Path) (terminated : Bool) (number : Nat) : List (List Char) →
    List (Except Error Line)
  | [last] =>
    if terminated then [.error (.malformedLine origin number .emptyLine)]
    else [.ok ⟨number, fieldsOf last⟩, .error (.malformedLine origin number .emptyLine)]
  | _ => [.error (.malformedLine origin number .emptyLine)]

section Reading

variable {origin : Path} {terminated : Bool} {start : Nat} {previous : Option (Nat × Nat)}
  {cs : List Char} {good rest : List (List Char)}

theorem reading_eq_numbered (hquote : '"' ∉ cs) (hends : EndsIn terminated cs)
    (hprevious : previous = none ∨ ∃ first, previous = some (first, start))
    (hlines : ∀ line ∈ textLines cs, line ≠ []) :
    reading origin terminated start previous 0 cs = numbered start (textLines cs) := by
  induction cs using lineInduction generalizing start previous with
  | last cs hnewline =>
    by_cases hne : cs = []
    · subst hne
      obtain rfl : terminated = true := hends.mpr (.inl rfl)
      exact reading_nil hprevious
    · rw [reading_last hne hquote hnewline, textLines_last hne hnewline]
      rfl
  | line cs rest hnewline ih =>
    rw [List.mem_append, List.mem_cons, not_or, not_or] at hquote
    rw [textLines_cons hnewline] at hlines ⊢
    obtain ⟨hne, hlines⟩ := List.forall_mem_cons.mp hlines
    rw [reading_line hne hquote.1 hnewline, if_neg (Nat.lt_irrefl 0),
      ih hquote.2.2 ((endsIn_line_iff cs rest).mp hends) (.inr ⟨start, rfl⟩) hlines]
    rfl

theorem hole_textLines (hends : EndsIn terminated cs) (number : Nat) :
    hole origin terminated number (textLines cs) =
      if cs ≠ [] ∧ '\n' ∉ cs then
        [.ok ⟨number, fieldsOf cs⟩, .error (.malformedLine origin number .emptyLine)]
      else [.error (.malformedLine origin number .emptyLine)] := by
  cases cs using lineInduction with
  | last cs hnewline =>
    by_cases hne : cs = []
    · subst hne
      rfl
    · have hunterminated : terminated = false := by
        rw [EndsIn, or_iff_right hne] at hends
        exact Bool.eq_false_iff.mpr fun h => hnewline (List.mem_of_getLast? (hends.mp h))
      rw [textLines_last hne hnewline, if_pos ⟨hne, hnewline⟩, hole, hunterminated]
      rfl
  | line cs rest hnewline _ =>
    have hmem : '\n' ∈ cs ++ '\n' :: rest := by simp
    rw [textLines_cons hnewline, if_neg fun h => h.2 hmem]
    -- A single line that is ended by a newline leaves no room for an exception.
    cases hrest : textLines rest with
    | nil =>
      rw [textLines_eq_nil_iff] at hrest
      have hterminated : terminated = true :=
        ((endsIn_line_iff cs rest).mp hends).mpr (.inl hrest)
      rw [hole, hterminated]
      rfl
    | cons next lines => rfl

theorem reading_eq_hole (hquote : '"' ∉ cs) (hends : EndsIn terminated cs)
    (hprevious : (previous = none ∧ ∃ line ∈ textLines cs, line ≠ []) ∨
      ∃ first, previous = some (first, start))
    (hlines : textLines cs = good ++ [] :: rest) (hgood : ∀ line ∈ good, line ≠ []) :
    reading origin terminated start previous 0 cs =
      numbered start good ++ hole origin terminated (start + good.length) rest := by
  induction cs using lineInduction generalizing start previous good with
  | last cs hnewline =>
    by_cases hne : cs = []
    · subst hne
      simp [textLines_nil] at hlines
    · rw [textLines_last hne hnewline] at hlines
      cases good with
      | nil =>
        cases hlines
        exact absurd rfl hne
      | cons line good => simp at hlines
  | line cs text hnewline ih =>
    rw [List.mem_append, List.mem_cons, not_or, not_or] at hquote
    obtain ⟨hline, -, htext⟩ := hquote
    have hends' := (endsIn_line_iff cs text).mp hends
    rw [textLines_cons hnewline] at hlines hprevious
    cases good with
    | nil =>
      obtain ⟨rfl, rfl⟩ := List.cons.inj hlines
      have hprevious' : (∃ line ∈ textLines text, line ≠ []) ∨
          ∃ first, previous = some (first, start) := by
        rcases hprevious with ⟨-, line, hmem, hne⟩ | hprevious
        · exact .inl ⟨line, (List.mem_cons.mp hmem).resolve_left hne, hne⟩
        · exact .inr hprevious
      rw [List.nil_append, reading_newline,
        reading_of_blanks htext (Nat.succ_pos 0) hends' hprevious']
      simp only [true_and]
      exact (hole_textLines hends' start).symm
    | cons line good =>
      obtain ⟨rfl, htail⟩ := List.cons.inj hlines
      obtain ⟨hne, hgood⟩ := List.forall_mem_cons.mp hgood
      have hnumber : start + 1 + good.length = start + (cs :: good).length := by
        rw [List.length_cons]
        omega
      rw [reading_line hne hline hnewline, if_neg (Nat.lt_irrefl 0),
        ih htext hends' (.inr ⟨start, rfl⟩) htail hgood, hnumber]
      rfl

end Reading

section SampleColumns

variable {origin : Path} {columns : Nat}

theorem sampleRows_append (first second : List (Except Error Line)) :
    sampleRows origin columns (first ++ second) = do
      let rows ← sampleRows origin columns first
      let more ← sampleRows origin columns second
      return rows ++ more := List.mapM_append

theorem exists_sampleRows_numbered {lines : List (List Char)}
    (h : ∀ line ∈ lines, IsRow columns line) (start : Nat) :
    ∃ rows, sampleRows origin columns (numbered start lines) = .ok rows := by
  induction lines generalizing start with
  | nil => exact ⟨[], rfl⟩
  | cons line lines ih =>
    obtain ⟨hline, hlines⟩ := List.forall_mem_cons.mp h
    obtain ⟨row, hrow⟩ := hline.exists_sampleRow origin start
    obtain ⟨rows, hrows⟩ := ih hlines (start + 1)
    refine ⟨row :: rows, ?_⟩
    rw [numbered, sampleRows_cons, hrow, ok_bind, hrows]
    rfl

theorem sampleColumns_of_numbered {lines : List (List Char)}
    (h : ∀ line ∈ lines, IsRow columns line) {start : Nat} {input : List (Except Error Line)}
    {error : Error} (hinput : sampleRows origin columns input = .error error) :
    sampleColumns origin columns (numbered start lines ++ input) = .error error := by
  obtain ⟨rows, hrows⟩ := @exists_sampleRows_numbered origin columns lines h start
  have hall : sampleRows origin columns (numbered start lines ++ input) = .error error := by
    rw [sampleRows_append, hrows, ok_bind, hinput, error_bind]
  show sampleRows origin columns (numbered start lines ++ input) >>= _ = _
  rw [hall, error_bind]

theorem sampleRows_hole_cases (origin : Path) (columns : Nat) (terminated : Bool) (number : Nat)
    (rest : List (List Char)) :
    (∃ last error, rest = [last] ∧ terminated = false ∧ ¬IsRow columns last ∧
      sampleRow origin columns ⟨number, fieldsOf last⟩ = .error error ∧
      sampleRows origin columns (hole origin terminated number rest) = .error error) ∨
    ((∀ last, rest = [last] → terminated = false → IsRow columns last) ∧
      sampleRows origin columns (hole origin terminated number rest) =
        .error (.malformedLine origin number .emptyLine)) := by
  match rest, terminated with
  | [], _ => exact .inr ⟨nofun, rfl⟩
  | _ :: _ :: _, _ => exact .inr ⟨nofun, rfl⟩
  | [last], true => exact .inr ⟨nofun, rfl⟩
  | [last], false =>
    by_cases hlast : IsRow columns last
    · obtain ⟨row, hrow⟩ := hlast.exists_sampleRow origin number
      refine .inr ⟨?_, ?_⟩
      · rintro _ ⟨⟩ -
        exact hlast
      · show sampleRows origin columns (.ok ⟨number, fieldsOf last⟩ :: _) = _
        rw [sampleRows_cons, hrow, ok_bind]
        rfl
    · obtain ⟨error, herror⟩ := exists_error_of_not_isRow hlast origin number
      refine .inl ⟨last, error, rfl, rfl, hlast, herror, ?_⟩
      show sampleRows origin columns (.ok ⟨number, fieldsOf last⟩ :: _) = _
      rw [sampleRows_cons, herror, error_bind]

/-- Of the lines behind an empty one there is only one, which is no row and is not
ended by a newline. -/
def SpoiltEnd (columns : Nat) (cs : List Char) (rest : List (List Char)) : Prop :=
  ∃ last, rest = [last] ∧ cs.getLast? ≠ some '\n' ∧ ¬IsRow columns last

/-- If rows alone stand in front of the first empty line, that line is reported,
whatever follows. The exception is a text with a spoilt end: there the fault of the
last line is reported, under the number of the empty one. -/
theorem first_empty_line_reported_iff (origin : Path) (columns : Nat) (text : String)
    (hquote : '"' ∉ text.toList) (hmark : text.toList.head? ≠ some mark)
    (hline : ∃ line ∈ textLines text.toList, line ≠ []) (good rest : List (List Char))
    (hlines : textLines text.toList = good ++ [] :: rest)
    (hgood : ∀ line ∈ good, IsRow columns line) :
    (sampleColumns origin columns (lines origin (encode text)) =
        .error (.malformedLine origin (good.length + 1) .emptyLine) ↔
      ¬SpoiltEnd columns text.toList rest) ∧
    (SpoiltEnd columns text.toList rest → ∃ last error, rest = [last] ∧
      sampleRow origin columns ⟨good.length + 1, fieldsOf last⟩ = .error error ∧
      sampleColumns origin columns (lines origin (encode text)) = .error error) := by
  have hne : text.toList ≠ [] := by
    intro hnil
    rw [hnil, textLines_nil] at hlines
    simp at hlines
  have hbytes : encode text = utf8 text.toList := encode_eq text
  have hends := endsIn_utf8 hne
  rw [hbytes, lines_utf8 origin hmark, reading_eq_hole hquote hends (.inl ⟨rfl, hline⟩) hlines
    fun line hmem => (hgood line hmem).1, Nat.add_comm 1]
  have hterminated : ((utf8 text.toList).getLast? == some newline) = false ↔
      text.toList.getLast? ≠ some '\n' := by
    rw [← Bool.not_eq_true, beq_iff_eq, getLast?_utf8]
  rcases sampleRows_hole_cases origin columns ((utf8 text.toList).getLast? == some newline)
    (good.length + 1) rest with
    ⟨last, error, hrest, hunterminated, hlast, hrow, herror⟩ | ⟨hrows, herror⟩
  · have hspoilt : SpoiltEnd columns text.toList rest :=
      ⟨last, hrest, hterminated.mp hunterminated, hlast⟩
    obtain ⟨fault, hfault, rfl⟩ := fault_of_sampleRow hrow
    rw [sampleColumns_of_numbered hgood herror]
    refine ⟨⟨fun h => ?_, fun h => absurd hspoilt h⟩, fun _ => ⟨last, _, hrest, hrow, rfl⟩⟩
    cases h
    exact absurd rfl hfault
  · have hnot : ¬SpoiltEnd columns text.toList rest := by
      rintro ⟨last, hrest, hend, hlast⟩
      exact hlast (hrows last hrest (hterminated.mpr hend))
    rw [sampleColumns_of_numbered hgood herror]
    exact ⟨⟨fun _ => hnot, fun _ => rfl⟩, fun h => absurd h hnot⟩

theorem first_empty_line_reported_iff_ended :
    textLines "1,2\n\nx\n".toList = ["1,2".toList] ++ [] :: ["x".toList] ∧
      (∀ line ∈ ["1,2".toList], IsRow 2 line) ∧
      sampleColumns ⟨"s.csv"⟩ 2 (lines ⟨"s.csv"⟩ (encode "1,2\n\nx\n")) =
        .error (.malformedLine ⟨"s.csv"⟩ 2 .emptyLine) := by
  have hlines : textLines "1,2\n\nx\n".toList = ["1,2".toList] ++ [] :: ["x".toList] := by decide
  have hgood : ∀ line ∈ ["1,2".toList], IsRow 2 line := by decide
  obtain ⟨hreported, -⟩ := first_empty_line_reported_iff ⟨"s.csv"⟩ 2 "1,2\n\nx\n" (by decide)
    (by decide) (by decide) ["1,2".toList] ["x".toList] hlines hgood
  refine ⟨hlines, hgood, hreported.mpr ?_⟩
  rintro ⟨last, -, hend, -⟩
  exact hend (by decide)

theorem empty_line_not_reported_before_spoilt_end :
    textLines "1,2\n\nx".toList = ["1,2".toList] ++ [] :: ["x".toList] ∧
      (∀ line ∈ ["1,2".toList], IsRow 2 line) ∧
      sampleColumns ⟨"s.csv"⟩ 2 (lines ⟨"s.csv"⟩ (encode "1,2\n\nx")) =
        .error (.malformedLine ⟨"s.csv"⟩ 2 (.columnCount 2 1)) := by
  refine ⟨by decide, by decide, ?_⟩
  decide +kernel

end SampleColumns

section EmptyLine

variable {content : Bytes} {cs : List Char}

def HasEmptyLine (content : Bytes) : Prop :=
  content.head? = some newline ∨ [newline, newline] <:+: content

instance (content : Bytes) : Decidable (HasEmptyLine content) :=
  inferInstanceAs (Decidable (content.head? = some newline ∨ [newline, newline] <:+: content))

def OnlyNewlines (content : Bytes) : Prop := ∀ b ∈ dropMark content, b = newline

instance (content : Bytes) : Decidable (OnlyNewlines content) :=
  inferInstanceAs (Decidable (∀ b ∈ dropMark content, b = newline))

theorem scanFrom_newlines {bs : Bytes} (h : ∀ b ∈ bs, b = newline) (blanks : Nat) :
    scanFrom { newlines := blanks } bs = ⟨[], blanks + bs.length⟩ := by
  induction bs generalizing blanks with
  | nil => rfl
  | cons b bs ih =>
    obtain ⟨rfl, hbs⟩ := List.forall_mem_cons.mp h
    show scanFrom { newlines := blanks + 1 } bs = _
    rw [ih hbs, List.length_cons, Nat.add_right_comm, Nat.add_assoc]

theorem lines_of_onlyNewlines (origin : Path) (h : OnlyNewlines content) :
    lines origin content = [] := by
  have hscan : scan content = ⟨[], 0 + (dropMark content).length⟩ := scanFrom_newlines h 0
  rw [lines, hscan]
  rfl

theorem pair_infix_cons {α : Type} {x y : α} {rest : List α} (hne : x ≠ y)
    (h : [x, x] <:+: y :: rest) : [x, x] <:+: rest := by
  refine (List.infix_cons_iff.mp h).resolve_left ?_
  rintro ⟨tail, htail⟩
  exact hne (List.cons.inj htail).1

theorem pair_infix_append {α : Type} {x : α} {front rest : List α} (hfront : x ∉ front)
    (h : [x, x] <:+: front ++ x :: rest) : rest.head? = some x ∨ [x, x] <:+: rest := by
  induction front with
  | nil =>
    refine (List.infix_cons_iff.mp h).imp_left ?_
    rintro ⟨tail, htail⟩
    rw [← (List.cons.inj htail).2]
    rfl
  | cons y front ih =>
    obtain ⟨hy, hfront⟩ := not_or.mp (List.mem_cons.not.mp hfront)
    exact ih hfront (pair_infix_cons hy h)

theorem HasEmptyLine.nil_mem_textLines (h : HasEmptyLine (utf8 cs)) : [] ∈ textLines cs := by
  induction cs using lineInduction with
  | last cs hnewline =>
    have hbytes := newline_not_mem_utf8 hnewline
    rcases h with hhead | hpair
    · exact absurd (List.mem_of_head? hhead) hbytes
    · exact absurd (hpair.subset (List.mem_cons_self ..)) hbytes
  | line cs rest hnewline ih =>
    rw [textLines_cons hnewline, List.mem_cons]
    by_cases hne : cs = []
    · exact .inl hne.symm
    · right
      apply ih
      have hbytes := newline_not_mem_utf8 hnewline
      rw [utf8_line] at h
      rcases h with hhead | hpair
      · rw [List.head?_append_of_ne_nil _ (utf8_ne_nil hne)] at hhead
        exact absurd (List.mem_of_head? hhead) hbytes
      · exact pair_infix_append hbytes hpair

theorem HasEmptyLine.dropMark (h : HasEmptyLine content) : HasEmptyLine (dropMark content) := by
  unfold Records.dropMark
  split
  · rcases h with hhead | hpair
    · cases hhead
    · exact .inr (pair_infix_cons (by decide) (pair_infix_cons (by decide)
        (pair_infix_cons (by decide) hpair)))
  · exact h

theorem onlyNewlines_of_textLines (h : ∀ line ∈ textLines cs, line = []) :
    ∀ b ∈ utf8 cs, b = newline := by
  induction cs using lineInduction with
  | last cs hnewline =>
    by_cases hne : cs = []
    · rw [hne]
      exact List.forall_mem_nil _
    · rw [textLines_last hne hnewline] at h
      exact absurd (h cs (List.mem_singleton_self cs)) hne
  | line cs rest hnewline ih =>
    rw [textLines_cons hnewline] at h
    obtain ⟨rfl, hrest⟩ := List.forall_mem_cons.mp h
    rw [utf8_line, utf8_nil, List.nil_append, List.forall_mem_cons]
    exact ⟨rfl, ih hrest⟩

theorem exists_line_of_not_onlyNewlines (h : ¬OnlyNewlines (utf8 cs)) :
    ∃ line ∈ textLines (unmarked cs), line ≠ [] := by
  by_contra hnone
  push Not at hnone
  apply h
  unfold OnlyNewlines
  rw [dropMark_utf8_eq]
  exact onlyNewlines_of_textLines hnone

theorem emptyLine_mem_hole (origin : Path) (terminated : Bool) (number : Nat)
    (rest : List (List Char)) :
    .error (.malformedLine origin number .emptyLine) ∈ hole origin terminated number rest := by
  unfold hole
  split
  · split_ifs <;> simp
  · simp

theorem exists_error_mem_lines (origin : Path) (hquote : '"' ∉ cs)
    (hempty : [] ∈ textLines (unmarked cs)) (hsome : ¬OnlyNewlines (utf8 cs)) :
    ∃ error, .error error ∈ lines origin (utf8 cs) := by
  have hne : unmarked cs ≠ [] := by
    intro hnil
    rw [hnil, textLines_nil] at hempty
    cases hempty
  obtain ⟨good, rest, hlines, hgood⟩ := List.eq_append_cons_of_mem hempty
  rw [lines_utf8_unmarked, reading_eq_hole (fun h => hquote (mem_of_mem_unmarked h))
    (endsIn_unmarked hne) (.inl ⟨rfl, exists_line_of_not_onlyNewlines hsome⟩) hlines
    fun line hline hnil => hgood (hnil ▸ hline)]
  exact ⟨_, List.mem_append_right _ (emptyLine_mem_hole ..)⟩

theorem lines_ne_nil (origin : Path) (hquote : '"' ∉ cs) (hsome : ¬OnlyNewlines (utf8 cs)) :
    lines origin (utf8 cs) ≠ [] := by
  obtain ⟨line, hline, -⟩ := exists_line_of_not_onlyNewlines hsome
  have hne : unmarked cs ≠ [] := by
    intro hnil
    rw [hnil, textLines_nil] at hline
    cases hline
  by_cases hempty : [] ∈ textLines (unmarked cs)
  · obtain ⟨error, herror⟩ := exists_error_mem_lines origin hquote hempty hsome
    exact List.ne_nil_of_mem herror
  · rw [lines_utf8_unmarked, reading_eq_numbered (fun h => hquote (mem_of_mem_unmarked h))
      (endsIn_unmarked hne) (.inl rfl) fun line hline hnil => hempty (hnil ▸ hline)]
    obtain ⟨first, lines, hlines⟩ := List.exists_cons_of_ne_nil (List.ne_nil_of_mem hline)
    rw [hlines]
    exact List.cons_ne_nil _ _

end EmptyLine
end Records

namespace FunctionRow

open Records

variable {text : String}

theorem read_eq_nil_iff (origin : Path) (hquote : '"' ∉ text.toList) :
    read origin (lines origin (Text.encode text)) = [] ↔ OnlyNewlines (Text.encode text) := by
  have hbytes : Text.encode text = Text.utf8 text.toList := Text.encode_eq text
  rw [read, List.map_eq_nil_iff, hbytes]
  constructor
  · intro hnil
    by_contra hsome
    exact lines_ne_nil origin hquote hsome hnil
  · exact lines_of_onlyNewlines origin

theorem onlyNewlines_of_sound {origin : Path} (hquote : '"' ∉ text.toList)
    (hempty : HasEmptyLine (Text.encode text))
    (hsound : ∀ item ∈ read origin (lines origin (Text.encode text)), ∃ row, item = .ok row) :
    OnlyNewlines (Text.encode text) := by
  have hbytes : Text.encode text = Text.utf8 text.toList := Text.encode_eq text
  rw [hbytes] at hempty hsound ⊢
  by_contra hsome
  have hnil : [] ∈ Text.textLines (unmarked text.toList) := by
    apply HasEmptyLine.nil_mem_textLines
    rw [← dropMark_utf8_eq]
    exact hempty.dropMark
  obtain ⟨error, herror⟩ := exists_error_mem_lines origin hquote hnil hsome
  obtain ⟨row, hrow⟩ := hsound _ (List.mem_map_of_mem herror)
  cases hrow

end FunctionRow

namespace FunctionCollection

open Records

/-- Of two texts without quotes of which one has an empty line, a collection comes
only if both have nothing but newlines, and it is then empty. -/
theorem load_with_empty_line_iff (disk : Disk) (baseline treatment : Path) (first second : String)
    (changed changed' : Instant)
    (hfirst : disk.find baseline = .ok (.file (Text.encode first) changed))
    (hsecond : disk.find treatment = .ok (.file (Text.encode second) changed'))
    (hquote : '"' ∉ first.toList) (hquote' : '"' ∉ second.toList)
    (hempty : HasEmptyLine (Text.encode first) ∨ HasEmptyLine (Text.encode second))
    (collection : FunctionCollection) :
    load disk baseline treatment = .ok collection ↔
      OnlyNewlines (Text.encode first) ∧ OnlyNewlines (Text.encode second) ∧
        collection = ⟨[]⟩ := by
  have hblank := FunctionRow.read_eq_nil_iff baseline hquote
  have hblank' := FunctionRow.read_eq_nil_iff treatment hquote'
  rw [load_eq_ok_iff_allPaired (rows_of_lines (Disk.lines_of_find hfirst))
    (rows_of_lines (Disk.lines_of_find hsecond))]
  constructor
  · intro hpaired
    obtain ⟨hsound, hsound'⟩ := hpaired.sound
    have hnil : FunctionRow.read baseline (lines baseline (Text.encode first)) = [] ↔
        FunctionRow.read treatment (lines treatment (Text.encode second)) = [] := by
      rw [← List.length_eq_zero_iff, ← List.length_eq_zero_iff, hpaired.first, hpaired.second]
    have honly : OnlyNewlines (Text.encode first) := by
      rcases hempty with hempty | hempty
      · exact FunctionRow.onlyNewlines_of_sound hquote hempty hsound
      · have honly' := FunctionRow.onlyNewlines_of_sound hquote' hempty hsound'
        exact hblank.mp (hnil.mpr (hblank'.mpr honly'))
    have hrecords : collection.records = [] := by
      rw [← List.length_eq_zero_iff, ← hpaired.first, List.length_eq_zero_iff]
      exact hblank.mpr honly
    exact ⟨honly, hblank'.mp (hnil.mp (hblank.mpr honly)), congrArg mk hrecords⟩
  · rintro ⟨honly, honly', rfl⟩
    rw [hblank.mpr honly, hblank'.mpr honly']
    exact ⟨rfl, rfl, nofun⟩

def twoTexts (first second : String) : Disk where
  entries := [(["a.csv"], .file (Text.encode first) ⟨1, 0⟩),
    (["b.csv"], .file (Text.encode second) ⟨1, 0⟩)]

theorem load_with_empty_line_iff_trailing :
    HasEmptyLine (Text.encode "f,1\n\n") ∧ ¬HasEmptyLine (Text.encode "f,1\n") ∧
      ∀ collection, load (twoTexts "f,1\n\n" "f,1\n") ⟨"a.csv"⟩ ⟨"b.csv"⟩ ≠ .ok collection := by
  have hempty : HasEmptyLine (Text.encode "f,1\n\n") := .inr ⟨Text.encode "f,1", [], by decide⟩
  refine ⟨hempty, by decide, fun collection hcollection => ?_⟩
  have hboth := (load_with_empty_line_iff (twoTexts "f,1\n\n" "f,1\n") ⟨"a.csv"⟩ ⟨"b.csv"⟩ "f,1\n\n"
    "f,1\n" ⟨1, 0⟩ ⟨1, 0⟩ rfl rfl (by decide) (by decide) (.inl hempty) collection).mp hcollection
  exact absurd hboth.1 (by decide)

theorem empty_lines_accepted :
    HasEmptyLine (Text.encode "\n") ∧
      load (twoTexts "\n" "\n") ⟨"a.csv"⟩ ⟨"b.csv"⟩ = .ok ⟨[]⟩ := ⟨.inl rfl, rfl⟩

end FunctionCollection
end CycleCount
