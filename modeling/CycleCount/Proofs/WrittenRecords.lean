import CycleCount.Proofs.Encoding
import CycleCount.Records.Line
import CycleCount.Records.Writer

/-! Written records are read back. The reader takes a written field for what it
was, whether it stands in quotes or not, so that a text of records without
newlines in them has one line for each record. -/

namespace CycleCount.Records

open Text

def doubled (b : UInt8) : Bytes := if b = quote then [quote, quote] else [b]

theorem utf8_quoted (cs : List Char) :
    utf8 (quoted cs) = quote :: (utf8 cs).flatMap doubled ++ [quote] := by
  have hchar : ∀ c : Char, utf8 (if c = '"' then ['"', '"'] else [c]) =
      (String.utf8EncodeChar c).flatMap doubled := by
    intro c
    by_cases hc : c = '"'
    · subst hc
      decide
    · rw [if_neg hc, utf8_cons, utf8_nil, List.append_nil]
      have hbyte : ∀ b ∈ String.utf8EncodeChar c, doubled b = [b] := by
        intro b hb
        refine if_neg fun hquote => hc (Char.toNat_inj.mp ?_)
        exact toNat_of_mem_utf8EncodeChar (b := quote) (by decide) (hquote ▸ hb)
      rw [List.flatMap_congr hbyte, List.flatMap_singleton']
  have hbody : utf8 (cs.flatMap fun c => if c = '"' then ['"', '"'] else [c]) =
      (utf8 cs).flatMap doubled := by
    induction cs with
    | nil => rfl
    | cons c cs ih => rw [List.flatMap_cons, utf8_append, hchar, ih, utf8_cons, List.flatMap_append]
  rw [quoted, utf8_append, utf8_cons, hbody]
  rfl

theorem not_mem_utf8 {c : Char} {cs : List Char} (h : c ∉ cs) {b : UInt8} (hb : b < 128)
    (hbyte : c.toNat = b.toNat) : b ∉ utf8 cs := by
  intro hmem
  obtain ⟨c', hc', hmem⟩ := List.mem_flatMap.mp hmem
  have heq : c'.toNat = c.toNat := (toNat_of_mem_utf8EncodeChar hb hmem).trans hbyte.symm
  exact h (Char.toNat_inj.mp heq ▸ hc')

theorem newline_not_mem_utf8 {cs : List Char} (h : '\n' ∉ cs) : newline ∉ utf8 cs :=
  not_mem_utf8 h (by decide) rfl

theorem plain_of_not_mem {cs : List Char} (hcomma : ',' ∉ cs) (hquote : '"' ∉ cs)
    (hnewline : '\n' ∉ cs) : ∀ b ∈ utf8 cs, b ≠ comma ∧ b ≠ quote ∧ b ≠ newline := by
  have hcomma : comma ∉ utf8 cs := not_mem_utf8 hcomma (by decide) rfl
  have hquote : quote ∉ utf8 cs := not_mem_utf8 hquote (by decide) rfl
  have hnewline : newline ∉ utf8 cs := newline_not_mem_utf8 hnewline
  intro b hb
  exact ⟨fun h => hcomma (h ▸ hb), fun h => hquote (h ▸ hb), fun h => hnewline (h ▸ hb)⟩

theorem plain_of_needsQuotes {cs : List Char} (h : cs.any needsQuotes = false) :
    ∀ b ∈ utf8 cs, b ≠ comma ∧ b ≠ quote ∧ b ≠ newline := by
  have hnot : ∀ {c : Char}, needsQuotes c = true → c ∉ cs := by
    intro c hc hmem
    exact List.any_eq_false.mp h c hmem hc
  exact plain_of_not_mem (hnot rfl) (hnot rfl) (hnot rfl)

namespace Draft

variable {d : Draft} {b : UInt8}

theorem scanFrom_cons_inl {d' : Draft} (h : d.step b = .inl d') (rest : Bytes) :
    scanFrom d (b :: rest) = scanFrom d' rest := by
  rw [scanFrom, h]

theorem step_plain (hplace : d.place = .plain) (hcomma : b ≠ comma) (hnewline : b ≠ newline) :
    d.step b = .inl (d.add b .plain) := by
  simp only [step, hnewline, if_false, hplace, hcomma]

theorem scanFrom_plain {bs : Bytes} (hplace : d.place = .plain)
    (h : ∀ b ∈ bs, b ≠ comma ∧ b ≠ quote ∧ b ≠ newline) (rest : Bytes) :
    scanFrom d (bs ++ rest) = scanFrom { d with field := bs.reverse ++ d.field } rest := by
  induction bs generalizing d with
  | nil => rfl
  | cons b bs ih =>
    obtain ⟨hcomma, -, hnewline⟩ := h b (List.mem_cons_self ..)
    rw [List.cons_append, scanFrom_cons_inl (step_plain hplace hcomma hnewline),
      ih rfl fun b hb => h b (List.mem_cons_of_mem _ hb)]
    simp [add, hplace]

theorem scanFrom_doubled (hplace : d.place = .quoted) (hnewline : b ≠ newline) (rest : Bytes) :
    scanFrom d (doubled b ++ rest) = scanFrom (d.add b .quoted) rest := by
  unfold doubled
  split_ifs with hquote
  · subst hquote
    have hfirst : d.step quote = .inl { d with place := .afterQuote } := by
      simp only [step, hnewline, if_false, hplace, if_true]
    have hsecond : step { d with place := .afterQuote } quote = .inl (d.add quote .quoted) := by
      simp only [step, hnewline, if_false, if_true]
      rfl
    rw [List.cons_append, scanFrom_cons_inl hfirst, List.cons_append, scanFrom_cons_inl hsecond,
      List.nil_append]
  · have hstep : d.step b = .inl (d.add b .quoted) := by
      simp only [step, hnewline, if_false, hplace, hquote]
    rw [List.cons_append, scanFrom_cons_inl hstep, List.nil_append]

theorem scanFrom_quoted {bs : Bytes} (hplace : d.place = .quoted) (h : newline ∉ bs) (rest : Bytes) :
    scanFrom d (bs.flatMap doubled ++ rest) =
      scanFrom { d with field := bs.reverse ++ d.field } rest := by
  induction bs generalizing d with
  | nil => rfl
  | cons b bs ih =>
    rw [List.mem_cons, not_or] at h
    rw [List.flatMap_cons, List.append_assoc, scanFrom_doubled hplace (Ne.symm h.1), ih rfl h.2]
    simp [add, hplace]

/-- Where the reader can stand behind a written field. Only an empty field leaves
it at the start of a record. -/
def Behind (d : Draft) (cs : List Char) (place : Place) : Prop :=
  place ≠ .quoted ∧ (place = .recordStart → cs = [] ∧ d.place = .recordStart)

def ReadsAs (text cs : List Char) : Prop :=
  ∀ d : Draft, d.place = .recordStart ∨ d.place = .fieldStart → d.field = [] →
    ∃ place, d.Behind cs place ∧ ∀ rest, scanFrom d (utf8 text ++ rest) =
      scanFrom { d with field := (utf8 cs).reverse, place } rest

theorem readsAs_plain {cs : List Char}
    (h : ∀ b ∈ utf8 cs, b ≠ comma ∧ b ≠ quote ∧ b ≠ newline) : ReadsAs cs cs := by
  intro d hplace hfield
  cases hbytes : utf8 cs with
  | nil =>
    have hcs : cs = [] := by
      cases cs with
      | nil => rfl
      | cons c cs =>
        rw [utf8_cons, List.append_eq_nil_iff] at hbytes
        exact absurd hbytes.1 String.utf8EncodeChar_ne_nil
    refine ⟨d.place, ⟨?_, fun hstart => ⟨hcs, hstart⟩⟩, fun rest => ?_⟩
    · rcases hplace with hplace | hplace
      · rw [hplace]
        exact Place.noConfusion
      · rw [hplace]
        exact Place.noConfusion
    · rw [List.nil_append, List.reverse_nil, ← hfield]
  | cons b bs =>
    rw [hbytes] at h
    obtain ⟨hcomma, hquote, hnewline⟩ := h b (List.mem_cons_self ..)
    refine ⟨.plain, ⟨Place.noConfusion, Place.noConfusion⟩, fun rest => ?_⟩
    have hfirst : d.step b = .inl (d.add b .plain) := by
      rcases hplace with hplace | hplace
      · simp only [step, hplace, hnewline, if_false, hquote, hcomma]
      · simp only [step, hplace, hnewline, if_false, hquote, hcomma]
    rw [List.cons_append, scanFrom_cons_inl hfirst,
      scanFrom_plain rfl fun b hb => h b (List.mem_cons_of_mem _ hb)]
    simp [add, hfield]

theorem readsAs_writtenField {cs : List Char} (h : '\n' ∉ cs) : ReadsAs (writtenField cs) cs := by
  unfold writtenField
  split_ifs with hquotes
  · intro d hplace hfield
    refine ⟨.afterQuote, ⟨Place.noConfusion, Place.noConfusion⟩, fun rest => ?_⟩
    have hopen : d.step quote = .inl { d with place := .quoted } := by
      rcases hplace with hplace | hplace
      · simp [step, hplace, quote, newline]
      · simp [step, hplace, quote, newline]
    rw [utf8_quoted, List.cons_append, List.cons_append, scanFrom_cons_inl hopen,
      List.append_assoc, scanFrom_quoted rfl (newline_not_mem_utf8 h)]
    rw [hfield, List.append_nil]
    exact scanFrom_cons_inl rfl rest
  · exact readsAs_plain (plain_of_needsQuotes (by simpa using hquotes))

theorem step_comma (hplace : d.place ≠ .quoted) : d.step comma = .inl d.endField := by
  cases h : d.place with
  | quoted => exact absurd h hplace
  | _ => simp [step, h, comma, newline, quote]

theorem step_newline (hquoted : d.place ≠ .quoted) (hstart : d.place ≠ .recordStart) :
    d.step newline = .inr ⟨d.allFields, d.newlines + 1⟩ := by
  cases h : d.place with
  | quoted => exact absurd h hquoted
  | recordStart => exact absurd h hstart
  | _ => simp [step, h, comma, newline, quote, allFields]

structure Complete (d : Draft) (fields : List Bytes) (newlines : Nat) : Prop where
  quoted : d.place ≠ .quoted
  inside : d.place ≠ .recordStart
  fields : d.allFields = fields
  newlines : d.newlines = newlines

theorem Complete.scanFrom_nil {fields : List Bytes} {newlines : Nat}
    (h : d.Complete fields newlines) : scanFrom d [] = ⟨[⟨fields, newlines⟩], 0⟩ := by
  rw [scanFrom, if_neg h.inside, h.fields, h.newlines]

theorem Complete.scanFrom_newline {fields : List Bytes} {newlines : Nat}
    (h : d.Complete fields newlines) (rest : Bytes) :
    scanFrom d (newline :: rest) = { scanFrom {} rest with
      chunks := ⟨fields, newlines + 1⟩ :: (scanFrom {} rest).chunks } := by
  rw [scanFrom, step_newline h.quoted h.inside, h.fields, h.newlines]

theorem scanFrom_fields {text : List Char → List Char} {fields : List (List Char)}
    (hne : fields ≠ []) (h : ∀ field ∈ fields, ReadsAs (text field) field) (hfield : d.field = [])
    (hplace : d.place = .recordStart ∧ fields ≠ [[]] ∨ d.place = .fieldStart) :
    ∃ d', d'.Complete (d.fields.reverse ++ fields.map utf8) d.newlines ∧
      ∀ rest, scanFrom d (utf8 (join ',' (fields.map text)) ++ rest) = scanFrom d' rest := by
  induction fields generalizing d with
  | nil => exact absurd rfl hne
  | cons field fields ih =>
    obtain ⟨place, ⟨hquoted, hstart⟩, hread⟩ :=
      h field (List.mem_cons_self ..) d (hplace.imp_left And.left) hfield
    cases fields with
    | nil =>
      have hinside : place ≠ .recordStart := by
        intro heq
        obtain ⟨rfl, hd⟩ := hstart heq
        rcases hplace with ⟨-, hempty⟩ | hplace
        · exact hempty rfl
        · rw [hd] at hplace
          cases hplace
      refine ⟨{ d with field := (utf8 field).reverse, place }, ⟨hquoted, hinside, ?_, rfl⟩, hread⟩
      simp [allFields]
    | cons next fields =>
      obtain ⟨d', ⟨hquoted', hinside', hfields', hnewlines'⟩, hread'⟩ :=
        ih (d := { d with field := (utf8 field).reverse, place }.endField) (by simp)
          (fun field hf => h field (List.mem_cons_of_mem _ hf)) rfl (.inr rfl)
      refine ⟨d', ⟨hquoted', hinside', ?_, hnewlines'⟩, fun rest => ?_⟩
      · rw [hfields']
        simp [endField]
      · have hcomma : String.utf8EncodeChar ',' = [comma] := by decide
        rw [List.map_cons, List.map_cons, join_cons_cons, ← List.map_cons, utf8_append, utf8_cons,
          List.append_assoc, hread, hcomma, List.append_assoc, List.singleton_append,
          scanFrom_cons_inl (step_comma hquoted), hread']

theorem scanFrom_join {fields : List (List Char)} (hne : fields ≠ [])
    (h : ∀ field ∈ fields, '\n' ∉ field) (hfield : d.field = [])
    (hplace : d.place = .recordStart ∧ fields ≠ [[]] ∨ d.place = .fieldStart) (rest : Bytes) :
    scanFrom d (utf8 (join ',' (fields.map writtenField)) ++ newline :: rest) =
      { scanFrom {} rest with
        chunks := ⟨d.fields.reverse ++ fields.map utf8, d.newlines + 1⟩ ::
          (scanFrom {} rest).chunks } := by
  obtain ⟨d', hcomplete, hread⟩ :=
    scanFrom_fields hne (fun field hf => readsAs_writtenField (h field hf)) hfield hplace
  rw [hread, hcomplete.scanFrom_newline]

end Draft

def Writable (records : List (List (List Char))) : Prop :=
  ∀ fields ∈ records, fields ≠ [] ∧ ∀ field ∈ fields, '\n' ∉ field

theorem scanFrom_writtenFields {fields : List (List Char)} (hne : fields ≠ [])
    (h : ∀ field ∈ fields, '\n' ∉ field) (rest : Bytes) :
    scanFrom {} (utf8 (writtenFields fields) ++ newline :: rest) =
      { scanFrom {} rest with chunks := ⟨fields.map utf8, 1⟩ :: (scanFrom {} rest).chunks } := by
  unfold writtenFields
  split
  · rfl
  · rename_i hempty
    exact Draft.scanFrom_join hne h rfl (.inl ⟨rfl, hempty⟩) rest

theorem scanFrom_written {records : List (List (List Char))} (h : Writable records) :
    scanFrom {} (utf8 (written records)) = ⟨records.map fun fields => ⟨fields.map utf8, 1⟩, 0⟩ := by
  induction records with
  | nil => rfl
  | cons fields records ih =>
    obtain ⟨hne, hfields⟩ := h fields (List.mem_cons_self ..)
    have hnewline : utf8 ['\n'] = [newline] := by decide
    rw [written, List.flatMap_cons, ← written, utf8_append, utf8_append, hnewline,
      List.append_assoc, List.singleton_append, scanFrom_writtenFields hne hfields,
      ih fun fields hf => h fields (List.mem_cons_of_mem _ hf), List.map_cons]

theorem getLast?_utf8_written {records : List (List (List Char))} (hne : records ≠ []) :
    (utf8 (written records)).getLast? = some newline := by
  obtain ⟨front, last, rfl⟩ := List.eq_nil_or_concat records |>.resolve_left hne
  have hnewline : utf8 ['\n'] = [newline] := by decide
  simp [written, hnewline]

def trimmed (field : List Char) : String := String.ofList (trim field)

theorem fieldText?_utf8 (field : List Char) : fieldText? (utf8 field) = some (trimmed field) := by
  rw [fieldText?, decode?_utf8, Option.map_some, String.toList_ofList, trimmed]

theorem mapM_fieldText?_utf8 (fields : List (List Char)) :
    (fields.map utf8).mapM fieldText? = some (fields.map trimmed) := by
  induction fields with
  | nil => rfl
  | cons field fields ih =>
    rw [List.map_cons, List.mapM_cons, fieldText?_utf8, ih]
    rfl

theorem account_written (origin : Path) (start : Nat) (previous : Option (Nat × Nat))
    (records : List (List (List Char))) :
    account origin true 0 start previous (records.map fun fields => ⟨fields.map utf8, 1⟩) =
      records.mapIdx fun k fields => .ok ⟨start + k, fields.map trimmed⟩ := by
  induction records generalizing start previous with
  | nil =>
    cases previous with
    | none => rfl
    | some previous => simp [account]
  | cons fields records ih =>
    rw [List.map_cons, account, mapM_fieldText?_utf8]
    simp [ih, List.mapIdx_cons, Nat.add_assoc, Nat.add_comm 1]

def mark : Char := '\uFEFF'

theorem dropMark_utf8_mark (cs : List Char) : dropMark (utf8 (mark :: cs)) = utf8 cs := by
  have hmark : String.utf8EncodeChar mark = [0xEF, 0xBB, 0xBF] := by decide
  rw [utf8_cons, hmark]
  rfl

theorem dropMark_utf8 {cs : List Char} (h : cs.head? ≠ some mark) :
    dropMark (utf8 cs) = utf8 cs := by
  unfold dropMark
  split
  · rename_i rest hbytes
    cases cs with
    | nil => cases hbytes
    | cons c cs =>
      have hboth : String.utf8EncodeChar c ++ utf8 cs = String.utf8EncodeChar mark ++ rest := by
        rw [← utf8_cons, hbytes]
        rfl
      exact absurd (congrArg some (eq_of_utf8EncodeChar_append hboth)) h
  · rfl

theorem lines_of_dropMark (origin : Path) {records : List (List (List Char))} (h : Writable records)
    {input : Bytes} (hmark : dropMark input = utf8 (written records))
    (hlast : records ≠ [] → input.getLast? = some newline) :
    lines origin input = records.mapIdx fun k fields => .ok ⟨k + 1, fields.map trimmed⟩ := by
  have hscan : scan input = ⟨records.map fun fields => ⟨fields.map utf8, 1⟩, 0⟩ := by
    rw [scan, hmark, scanFrom_written h]
  rw [lines, hscan]
  cases records with
  | nil => rfl
  | cons fields records =>
    rw [hlast (by simp), beq_self_eq_true, account_written]
    simp only [Nat.add_comm 1]

end CycleCount.Records
