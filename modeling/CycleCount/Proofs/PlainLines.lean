import CycleCount.Proofs.Paths
import CycleCount.Proofs.WrittenRecords

/-! Texts without quotes. Their records are their lines, cut at the commas, as
long as no line is empty. The first empty line ends the reading, though the record
behind it may still come through, under the number of that line. -/

namespace CycleCount

namespace Text

def textLines (cs : List Char) : List (List Char) :=
  let pieces := split '\n' cs
  if pieces.getLast? = some [] then pieces.dropLast else pieces

theorem mem_of_mem_split {sep c : Char} {cs piece : List Char} (hpiece : piece ∈ split sep cs)
    (hc : c ∈ piece) : c ∈ cs := by
  induction cs generalizing piece with
  | nil =>
    rw [split, List.mem_singleton] at hpiece
    rwa [hpiece] at hc
  | cons x cs ih =>
    obtain ⟨first, pieces, hp⟩ := List.exists_cons_of_ne_nil (split_ne_nil sep cs)
    rw [hp] at ih
    rw [split, hp] at hpiece
    split_ifs at hpiece
    · rcases List.mem_cons.mp hpiece with rfl | hpiece
      · cases hc
      · exact List.mem_cons_of_mem x (ih hpiece hc)
    · rcases List.mem_cons.mp hpiece with rfl | hpiece
      · rcases List.mem_cons.mp hc with rfl | hc
        · exact List.mem_cons_self ..
        · exact List.mem_cons_of_mem x (ih (List.mem_cons_self ..) hc)
      · exact List.mem_cons_of_mem x (ih (List.mem_cons_of_mem first hpiece) hc)

theorem textLines_last {cs : List Char} (hne : cs ≠ []) (h : '\n' ∉ cs) : textLines cs = [cs] := by
  unfold textLines
  rw [split_eq_singleton h]
  simp [hne]

theorem textLines_cons {line : List Char} (h : '\n' ∉ line) (rest : List Char) :
    textLines (line ++ '\n' :: rest) = line :: textLines rest := by
  obtain ⟨piece, pieces, hp⟩ := List.exists_cons_of_ne_nil (split_ne_nil '\n' rest)
  unfold textLines
  rw [split_append_sep, split_eq_singleton h, hp, List.singleton_append]
  dsimp only
  rw [List.getLast?_cons_cons, List.dropLast_cons_cons]
  split_ifs
  · rfl
  · rfl

@[elab_as_elim]
theorem lineInduction {motive : List Char → Prop} (last : ∀ cs, '\n' ∉ cs → motive cs)
    (line : ∀ cs rest, '\n' ∉ cs → motive rest → motive (cs ++ '\n' :: rest))
    (cs : List Char) : motive cs := by
  by_cases h : '\n' ∈ cs
  · obtain ⟨front, rest, hcs, hfront⟩ := List.eq_append_cons_of_mem h
    have hshorter : rest.length < cs.length := by
      rw [hcs, List.length_append, List.length_cons]
      omega
    rw [hcs]
    exact line front rest hfront (lineInduction last line rest)
  · exact last cs h
termination_by cs.length

end Text

namespace Records

open Text

def fieldsOf (line : List Char) : List String := (split ',' line).map trimmed

theorem scanFrom_line {line : List Char} (hne : line ≠ []) (hquote : '"' ∉ line)
    (hnewline : '\n' ∉ line) (blanks : Nat) :
    ∃ d : Draft, d.Complete ((split ',' line).map utf8) blanks ∧
      ∀ rest, scanFrom { newlines := blanks } (utf8 line ++ rest) = scanFrom d rest := by
  have hreads : ∀ field ∈ split ',' line, Draft.ReadsAs (id field) field := fun field hfield =>
    Draft.readsAs_plain (plain_of_not_mem (sep_not_mem_of_mem_split hfield)
      (fun h => hquote (mem_of_mem_split hfield h)) (fun h => hnewline (mem_of_mem_split hfield h)))
  have hfields : split ',' line ≠ [[]] := by
    intro h
    have hjoin := join_split ',' line
    rw [h] at hjoin
    exact hne hjoin.symm
  have hread := Draft.scanFrom_fields (d := { newlines := blanks }) (split_ne_nil ',' line) hreads
    rfl (.inl ⟨rfl, hfields⟩)
  rwa [List.map_id, join_split] at hread

def EndsIn (terminated : Bool) (cs : List Char) : Prop :=
  terminated = true ↔ cs = [] ∨ cs.getLast? = some '\n'

theorem endsIn_line_iff {terminated : Bool} (line rest : List Char) :
    EndsIn terminated (line ++ '\n' :: rest) ↔ EndsIn terminated rest := by
  have hne : line ++ '\n' :: rest ≠ [] := by simp
  have hlast : (line ++ '\n' :: rest).getLast? = some (rest.getLast?.getD '\n') := by
    rw [List.getLast?_append, List.getLast?_cons, Option.some_or]
  unfold EndsIn
  rw [hlast, or_iff_right hne, Option.some.injEq]
  cases h : rest.getLast? with
  | none => simp [List.getLast?_eq_none_iff.mp h]
  | some c =>
    have hrest : rest ≠ [] := by
      rintro rfl
      cases h
    rw [Option.getD_some, or_iff_right hrest, Option.some.injEq]

theorem getLast?_utf8 {cs : List Char} :
    (utf8 cs).getLast? = some newline ↔ cs.getLast? = some '\n' := by
  rcases List.eq_nil_or_concat cs with rfl | ⟨front, c, rfl⟩
  · exact ⟨nofun, nofun⟩
  · have hbytes : utf8 (front ++ [c]) = utf8 front ++ String.utf8EncodeChar c := by
      rw [utf8_append, utf8_cons, utf8_nil, List.append_nil]
    rw [List.concat_eq_append, hbytes,
      List.getLast?_append_of_ne_nil _ String.utf8EncodeChar_ne_nil, List.getLast?_concat,
      Option.some.injEq]
    constructor
    · intro h
      exact Char.toNat_inj.mp (toNat_of_mem_utf8EncodeChar (by decide) (List.mem_of_getLast? h))
    · rintro rfl
      decide

/-- What is read of a text from line `start` on, behind `blanks` empty lines. -/
def reading (origin : Path) (terminated : Bool) (start : Nat) (previous : Option (Nat × Nat))
    (blanks : Nat) (cs : List Char) : List (Except Error Line) :=
  let s := scanFrom { newlines := blanks } (utf8 cs)
  account origin terminated s.trailing start previous s.chunks

section Reading

variable {origin : Path} {terminated : Bool} {start blanks : Nat} {previous : Option (Nat × Nat)}
  {line rest cs : List Char}

theorem utf8_line (line rest : List Char) :
    utf8 (line ++ '\n' :: rest) = utf8 line ++ newline :: utf8 rest := by
  have hnewline : String.utf8EncodeChar '\n' = [newline] := by decide
  rw [utf8_append, utf8_cons, hnewline, List.singleton_append]

theorem reading_line (hne : line ≠ []) (hquote : '"' ∉ line) (hnewline : '\n' ∉ line) :
    reading origin terminated start previous blanks (line ++ '\n' :: rest) =
      if 0 < blanks then [.error (.malformedLine origin start .emptyLine)]
      else .ok ⟨start, fieldsOf line⟩ ::
        reading origin terminated (start + 1) (some (start, start + 1)) 0 rest := by
  obtain ⟨d, hcomplete, hread⟩ := scanFrom_line hne hquote hnewline blanks
  unfold reading
  rw [utf8_line, hread, hcomplete.scanFrom_newline, account, mapM_fieldText?_utf8]
  by_cases hblanks : 0 < blanks
  · have hmany : blanks + 1 > 1 := by omega
    simp only [if_pos hblanks, if_pos hmany]
  · obtain rfl : blanks = 0 := by omega
    rfl

theorem reading_last (hne : line ≠ []) (hquote : '"' ∉ line) (hnewline : '\n' ∉ line) :
    reading origin terminated start previous 0 line = [.ok ⟨start, fieldsOf line⟩] := by
  obtain ⟨d, hcomplete, hread⟩ := scanFrom_line hne hquote hnewline 0
  have hscan := hread []
  rw [List.append_nil, hcomplete.scanFrom_nil] at hscan
  unfold reading
  rw [hscan, account, mapM_fieldText?_utf8]
  simp [account, fieldsOf]

theorem reading_nil (hprevious : previous = none ∨ ∃ first, previous = some (first, start)) :
    reading origin true start previous 0 [] = [] := by
  show account origin true 0 start previous [] = []
  rcases hprevious with rfl | ⟨first, rfl⟩
  · rfl
  · simp [account]

theorem reading_newline :
    reading origin terminated start previous blanks ('\n' :: rest) =
      reading origin terminated start previous (blanks + 1) rest := by
  unfold reading
  rw [← List.nil_append ('\n' :: rest), utf8_line, utf8_nil, List.nil_append]
  rfl

/-- Behind empty lines there is an error under the number of the first. A record
comes before it only behind a single empty line, if no newline follows. -/
theorem reading_of_blanks (hquote : '"' ∉ cs) (hblanks : 0 < blanks)
    (hends : EndsIn terminated cs)
    (hprevious : (∃ line ∈ textLines cs, line ≠ []) ∨ ∃ first, previous = some (first, start)) :
    reading origin terminated start previous blanks cs =
      if blanks = 1 ∧ cs ≠ [] ∧ '\n' ∉ cs then
        [.ok ⟨start, fieldsOf cs⟩, .error (.malformedLine origin start .emptyLine)]
      else [.error (.malformedLine origin start .emptyLine)] := by
  induction cs using lineInduction generalizing blanks with
  | last cs hnewline =>
    by_cases hne : cs = []
    · subst hne
      rw [if_neg fun h => h.2.1 rfl]
      rcases hprevious with ⟨line, hline, -⟩ | ⟨first, rfl⟩
      · cases hline
      · show account origin terminated blanks start (some (first, start)) [] = _
        rw [account, if_pos hblanks]
    · have hunterminated : terminated = false := by
        rw [EndsIn, or_iff_right hne] at hends
        exact Bool.eq_false_iff.mpr fun h => hnewline (List.mem_of_getLast? (hends.mp h))
      obtain ⟨d, hcomplete, hread⟩ := scanFrom_line hne hquote hnewline blanks
      have hscan := hread []
      rw [List.append_nil, hcomplete.scanFrom_nil] at hscan
      unfold reading
      rw [hscan, account, mapM_fieldText?_utf8]
      by_cases hone : blanks = 1
      · subst hone
        rw [if_pos ⟨rfl, hne, hnewline⟩]
        simp [account, hunterminated, fieldsOf]
      · have hmany : blanks > 1 := by omega
        rw [if_neg fun h => hone h.1]
        simp only [if_pos hmany]
  | line cs rest hnewline ih =>
    have hmem : '\n' ∈ cs ++ '\n' :: rest := by simp
    rw [if_neg fun h => h.2.2 hmem]
    rw [List.mem_append, List.mem_cons, not_or, not_or] at hquote
    obtain ⟨hline, -, hrest⟩ := hquote
    by_cases hne : cs = []
    · subst hne
      have hprevious' : (∃ line ∈ textLines rest, line ≠ []) ∨
          ∃ first, previous = some (first, start) := by
        refine hprevious.imp_left ?_
        rintro ⟨line, hmem, hline⟩
        rw [textLines_cons hnewline, List.mem_cons] at hmem
        exact ⟨line, hmem.resolve_left hline, hline⟩
      rw [List.nil_append, reading_newline, ih hrest (Nat.succ_pos blanks)
        ((endsIn_line_iff [] rest).mp hends) hprevious']
      exact if_neg fun h => absurd h.1 (by omega)
    · rw [reading_line hne hline hnewline, if_pos hblanks]

end Reading

theorem endsIn_utf8 {cs : List Char} (hne : cs ≠ []) :
    EndsIn ((utf8 cs).getLast? == some newline) cs := by
  rw [EndsIn, beq_iff_eq, getLast?_utf8, or_iff_right hne]

def unmarked (cs : List Char) : List Char := if cs.head? = some mark then cs.tail else cs

theorem mem_of_mem_unmarked {c : Char} {cs : List Char} (h : c ∈ unmarked cs) : c ∈ cs := by
  unfold unmarked at h
  split_ifs at h
  · exact List.mem_of_mem_tail h
  · exact h

theorem dropMark_utf8_eq (cs : List Char) : dropMark (utf8 cs) = utf8 (unmarked cs) := by
  unfold unmarked
  split_ifs with hmark
  · obtain ⟨rest, rfl⟩ := List.head?_eq_some_iff.mp hmark
    exact dropMark_utf8_mark rest
  · exact dropMark_utf8 hmark

theorem lines_utf8_unmarked (origin : Path) (cs : List Char) :
    lines origin (utf8 cs) =
      reading origin ((utf8 cs).getLast? == some newline) 1 none 0 (unmarked cs) := by
  unfold lines scan
  rw [dropMark_utf8_eq]
  rfl

theorem lines_utf8 (origin : Path) {cs : List Char} (hmark : cs.head? ≠ some mark) :
    lines origin (utf8 cs) =
      reading origin ((utf8 cs).getLast? == some newline) 1 none 0 cs := by
  rw [lines_utf8_unmarked, unmarked, if_neg hmark]

theorem endsIn_unmarked {cs : List Char} (hne : unmarked cs ≠ []) :
    EndsIn ((utf8 cs).getLast? == some newline) (unmarked cs) := by
  have hlast : (unmarked cs).getLast? = cs.getLast? := by
    unfold unmarked at hne ⊢
    split_ifs at hne ⊢ with hmark
    · obtain ⟨rest, rfl⟩ := List.head?_eq_some_iff.mp hmark
      exact (List.getLast?_cons_of_ne_nil hne).symm
    · rfl
  rw [EndsIn, beq_iff_eq, getLast?_utf8, or_iff_right hne, hlast]

end Records
end CycleCount
