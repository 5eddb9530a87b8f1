import CycleCount.Dataset.Assembly
import CycleCount.Proofs.SampleGrammar

/-! The grammar of repetition counts in file names: a plus or none, then runs of digits
with a single underscore between one run and the next. Beyond this grammar, and nowhere
else, an underscore is accepted right behind the plus. -/

namespace CycleCount

namespace Text

theorem flatten_split (sep : Char) (cs : List Char) :
    (split sep cs).flatten = cs.filter (· != sep) := by
  induction cs with
  | nil => rfl
  | cons c cs ih =>
    obtain ⟨piece, pieces, hp⟩ := List.exists_cons_of_ne_nil (split_ne_nil sep cs)
    rw [hp] at ih
    rw [split, hp]
    split_ifs with hc
    · rw [List.flatten_cons, List.nil_append, ih, List.filter_cons_of_neg (by simp [hc])]
    · rw [List.filter_cons_of_pos (by simp [hc]), ← ih]
      rfl

theorem split_join {sep : Char} {pieces : List (List Char)} (hne : pieces ≠ [])
    (h : ∀ piece ∈ pieces, sep ∉ piece) : split sep (join sep pieces) = pieces := by
  induction pieces with
  | nil => exact absurd rfl hne
  | cons piece pieces ih =>
    obtain ⟨hpiece, hpieces⟩ := List.forall_mem_cons.mp h
    cases pieces with
    | nil => exact split_eq_singleton hpiece
    | cons next pieces =>
      rw [join_cons_cons, split_append_sep, split_eq_singleton hpiece,
        ih nofun hpieces]
      rfl

theorem split_cons_of_ne {sep c : Char} (h : c ≠ sep) {cs piece : List Char}
    {pieces : List (List Char)} (hcs : split sep cs = piece :: pieces) :
    split sep (c :: cs) = (c :: piece) :: pieces := by
  rw [split, if_neg h, hcs]

theorem first_piece_eq_nil_iff {sep : Char} {cs piece : List Char} {pieces : List (List Char)}
    (h : split sep cs = piece :: pieces) : piece = [] ↔ cs = [] ∨ cs.head? = some sep := by
  cases cs with
  | nil =>
    cases h
    simp
  | cons c cs =>
    by_cases hc : c = sep
    · rw [split, if_pos hc] at h
      cases h
      simp [hc]
    · obtain ⟨first, rest, hp⟩ := List.exists_cons_of_ne_nil (split_ne_nil sep cs)
      rw [split_cons_of_ne hc hp] at h
      cases h
      simp [hc]

end Text

open Text

theorem nil_not_mem_later_pieces_iff {cs piece : List Char} {pieces : List (List Char)}
    (h : split '_' cs = piece :: pieces) :
    [] ∉ pieces ↔ cs.getLast? ≠ some '_' ∧ ('_', '_') ∉ cs.zip cs.tail := by
  induction cs generalizing piece pieces with
  | nil =>
    cases h
    simp
  | cons c cs ih =>
    obtain ⟨first, rest, hp⟩ := List.exists_cons_of_ne_nil (split_ne_nil '_' cs)
    have hfirst := first_piece_eq_nil_iff hp
    have hrest := ih hp
    by_cases hc : c = '_'
    · rw [split, if_pos hc, hp] at h
      cases h
      rw [List.mem_cons, not_or, hrest, eq_comm, hfirst]
      cases cs <;> simp [hc, and_left_comm, eq_comm]
    · rw [split_cons_of_ne hc hp] at h
      cases h
      rw [hrest]
      cases cs <;> simp [hc, eq_comm]

theorem nil_not_mem_split_iff {cs : List Char} :
    [] ∉ split '_' cs ↔ cs ≠ [] ∧ separatesGroups cs = true := by
  obtain ⟨piece, pieces, hp⟩ := List.exists_cons_of_ne_nil (split_ne_nil '_' cs)
  rw [hp, List.mem_cons, not_or, nil_not_mem_later_pieces_iff hp, eq_comm,
    first_piece_eq_nil_iff hp]
  simp [separatesGroups, and_assoc]

theorem nil_not_mem_split_plus_iff {rest : List Char} :
    [] ∉ split '_' ('+' :: rest) ↔
      rest = [] ∨ [] ∉ split '_' rest ∨ ∃ cs, rest = '_' :: cs ∧ [] ∉ split '_' cs := by
  have hplus : '+' ≠ '_' := by decide
  obtain ⟨first, others, hp⟩ := List.exists_cons_of_ne_nil (split_ne_nil '_' rest)
  have hfirst : [] = first ↔ rest = [] ∨ rest.head? = some '_' :=
    eq_comm.trans (first_piece_eq_nil_iff hp)
  have hothers : [] ∉ split '_' ('+' :: rest) ↔ [] ∉ others := by
    rw [split_cons_of_ne hplus hp]
    simp
  rw [hothers, hp, List.mem_cons, not_or, hfirst]
  cases rest with
  | nil =>
    cases hp
    simp
  | cons c cs =>
    by_cases hc : c = '_'
    · rw [split, if_pos hc] at hp
      cases hp
      simp [hc]
    · simp [hc]

/-- Runs of digits that spell `n`, a single underscore between one and the next. -/
def IsGrouped (cs : List Char) (n : UInt64) : Prop :=
  ∃ groups : List (List Char), groups ≠ [] ∧
    (∀ group ∈ groups, group ≠ [] ∧ ∀ c ∈ group, c.isDigit = true) ∧
    cs = join '_' groups ∧ Nat.ofDigitChars 10 groups.flatten 0 = n.toNat

def IsRepetitions (stem : List Char) (n : UInt64) : Prop :=
  ∃ cs, (stem = cs ∨ stem = '+' :: cs) ∧ IsGrouped cs n

theorem isGrouped_iff {cs : List Char} {n : UInt64} :
    IsGrouped cs n ↔ [] ∉ split '_' cs ∧ (∀ c ∈ cs.filter (· != '_'), c.isDigit = true) ∧
      Nat.ofDigitChars 10 (cs.filter (· != '_')) 0 = n.toNat := by
  have hdigit : ('_' : Char).isDigit = false := by decide
  constructor
  · rintro ⟨groups, hne, hgroups, rfl, hvalue⟩
    have hsplit : split '_' (join '_' groups) = groups := by
      refine split_join hne fun group hgroup hmem => ?_
      have hunderscore := (hgroups group hgroup).2 '_' hmem
      rw [hdigit] at hunderscore
      cases hunderscore
    rw [← flatten_split, hsplit]
    refine ⟨fun hmem => (hgroups [] hmem).1 rfl, fun c hc => ?_, hvalue⟩
    obtain ⟨group, hgroup, hmem⟩ := List.mem_flatten.mp hc
    exact (hgroups group hgroup).2 c hmem
  · rintro ⟨hsplit, hdigits, hvalue⟩
    rw [← flatten_split] at hdigits hvalue
    refine ⟨split '_' cs, split_ne_nil '_' cs, fun group hgroup => ⟨?_, fun c hc => ?_⟩,
      (join_split '_' cs).symm, hvalue⟩
    · rintro rfl
      exact hsplit hgroup
    · exact hdigits c (List.mem_flatten.mpr ⟨group, hgroup, hc⟩)

theorem IsGrouped.ne_nil {cs : List Char} {n : UInt64} (h : IsGrouped cs n) :
    cs.filter (· != '_') ≠ [] := by
  obtain ⟨hsplit, -⟩ := isGrouped_iff.mp h
  obtain ⟨piece, pieces, hp⟩ := List.exists_cons_of_ne_nil (split_ne_nil '_' cs)
  rw [hp, List.mem_cons, not_or] at hsplit
  rw [← flatten_split, hp, List.flatten_cons]
  intro hnil
  exact hsplit.1 (List.append_eq_nil_iff.mp hnil).1.symm

theorem IsGrouped.counted {cs : List Char} {n : UInt64} (h : IsGrouped cs n) (front : List Char)
    (hfront : front.filter (· != '_') = [] ∨ front.filter (· != '_') = ['+'])
    (hsplit : [] ∉ split '_' (front ++ cs)) :
    separatesGroups (front ++ cs) = true ∧
      Decimal.IsCount ((front ++ cs).filter (· != '_')) n := by
  obtain ⟨-, hall, hvalue⟩ := isGrouped_iff.mp h
  have hseparates := (nil_not_mem_split_iff.mp hsplit).2
  refine ⟨hseparates, cs.filter (· != '_'), ?_, h.ne_nil, hall, hvalue⟩
  rw [List.filter_append]
  rcases hfront with hfront | hfront
  · exact .inl (by rw [hfront, List.nil_append])
  · exact .inr (by rw [hfront, List.singleton_append])

theorem counted_iff {stem : List Char} {n : UInt64} :
    separatesGroups stem = true ∧ Decimal.IsCount (stem.filter (· != '_')) n ↔
      IsRepetitions stem n ∨ ∃ cs, stem = '+' :: '_' :: cs ∧ IsGrouped cs n := by
  constructor
  · rintro ⟨hseparates, digits, hdigits, hne, hall, hvalue⟩
    have hstem : stem ≠ [] := by
      rintro rfl
      rcases hdigits with rfl | hdigits
      · exact hne rfl
      · cases hdigits
    have hsplit := nil_not_mem_split_iff.mpr ⟨hstem, hseparates⟩
    rcases hdigits with rfl | hdigits
    · exact .inl ⟨stem, .inl rfl, isGrouped_iff.mpr ⟨hsplit, hall, hvalue⟩⟩
    obtain ⟨c, rest, rfl⟩ := List.exists_cons_of_ne_nil hstem
    have hc : c ≠ '_' := by
      rintro rfl
      rw [split, if_pos rfl] at hsplit
      exact hsplit (List.mem_cons_self ..)
    rw [List.filter_cons_of_pos (by simpa using hc)] at hdigits
    obtain ⟨rfl, rfl⟩ := List.cons.inj hdigits
    rcases nil_not_mem_split_plus_iff.mp hsplit with rfl | hrest | ⟨cs, rfl, hcs⟩
    · exact absurd rfl hne
    · exact .inl ⟨rest, .inr rfl, isGrouped_iff.mpr ⟨hrest, hall, hvalue⟩⟩
    · exact .inr ⟨cs, rfl, isGrouped_iff.mpr ⟨hcs, hall, hvalue⟩⟩
  · rintro (⟨cs, rfl | rfl, hcs⟩ | ⟨cs, rfl, hcs⟩)
    · exact hcs.counted [] (.inl rfl) (isGrouped_iff.mp hcs).1
    · have hsplit := nil_not_mem_split_plus_iff.mpr (.inr (.inl (isGrouped_iff.mp hcs).1))
      exact hcs.counted ['+'] (.inr rfl) hsplit
    · have hsplit := nil_not_mem_split_plus_iff.mpr
        (.inr (.inr ⟨cs, rfl, (isGrouped_iff.mp hcs).1⟩))
      exact hcs.counted ['+', '_'] (.inr rfl) hsplit

theorem repetitionCount_eq_ok_iff {path : Path} {n : UInt64} :
    repetitionCount path = .ok n ↔ ∃ stem, path.stem? = some stem ∧
      separatesGroups stem = true ∧ Decimal.IsCount (stem.filter (· != '_')) n := by
  unfold repetitionCount
  cases path.stem? with
  | none => exact ⟨nofun, fun ⟨_, hstem, _⟩ => nomatch hstem⟩
  | some stem =>
    simp only [Option.bind_eq_bind, Option.bind_some, Option.some.injEq, exists_eq_left',
      ← Decimal.word?_eq_some_iff]
    by_cases hseparates : separatesGroups stem = true
    · rw [if_pos hseparates, and_iff_right hseparates]
      cases Decimal.word? (stem.filter (· != '_')) with
      | none => exact ⟨nofun, nofun⟩
      | some m => rw [Except.ok.injEq, Option.some.injEq]
    · rw [if_neg hseparates]
      exact ⟨nofun, fun h => absurd h.1 hseparates⟩

theorem error_of_repetitionCount {path : Path} {error : Error}
    (h : repetitionCount path = .error error) : error = .invalidFileName path := by
  unfold repetitionCount at h
  dsimp only at h
  split at h
  · cases h
  · cases h
    rfl

/-- A file is named for `n` repetitions exactly if its stem is a count as it is meant to be
written, or such a count without a plus behind a plus and an underscore. Every other name is
an error that names the file. -/
theorem repetitionCount_grammar (path : Path) :
    (∀ n, repetitionCount path = .ok n ↔ ∃ stem, path.stem? = some stem ∧
      (IsRepetitions stem n ∨ ∃ cs, stem = '+' :: '_' :: cs ∧ IsGrouped cs n)) ∧
    (repetitionCount path = .error (.invalidFileName path) ↔ ¬∃ n stem, path.stem? = some stem ∧
      (IsRepetitions stem n ∨ ∃ cs, stem = '+' :: '_' :: cs ∧ IsGrouped cs n)) := by
  have hok (n : UInt64) : repetitionCount path = .ok n ↔ ∃ stem, path.stem? = some stem ∧
      (IsRepetitions stem n ∨ ∃ cs, stem = '+' :: '_' :: cs ∧ IsGrouped cs n) := by
    simp only [repetitionCount_eq_ok_iff, counted_iff]
  refine ⟨hok, ?_⟩
  simp only [← hok]
  cases hcount : repetitionCount path with
  | ok n => simp
  | error error => simp [error_of_repetitionCount hcount]

theorem underscore_behind_plus_accepted :
    (⟨"+_5.csv"⟩ : Path).stem? = some ['+', '_', '5'] ∧ repetitionCount ⟨"+_5.csv"⟩ = .ok 5 ∧
      ¬∃ n, IsRepetitions ['+', '_', '5'] n := by
  refine ⟨by decide, rfl, ?_⟩
  rintro ⟨n, cs, rfl | hcs, hgrouped⟩
  · have hplus := (isGrouped_iff.mp hgrouped).2.1 '+' (by decide)
    exact absurd hplus (by decide)
  · cases hcs
    exact (isGrouped_iff.mp hgrouped).1 (by decide)

end CycleCount
