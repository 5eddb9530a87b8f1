import CycleCount.Disk.Basic
import CycleCount.Proofs.Outcome

/-! Where paths lead. A path that can be followed leads to the place that its
components spell, whatever the disk; paths with the same components lead to the
same place. -/

namespace CycleCount

namespace Text

theorem split_append_sep (sep : Char) (front rest : List Char) :
    split sep (front ++ sep :: rest) = split sep front ++ split sep rest := by
  induction front with
  | nil => simp [split]
  | cons c front ih =>
    rw [List.cons_append, split, split]
    split_ifs with h
    · rw [ih, List.cons_append]
    · rw [ih]
      obtain ⟨piece, pieces, hp⟩ := List.exists_cons_of_ne_nil (split_ne_nil sep front)
      rw [hp]
      rfl

theorem split_eq_singleton {sep : Char} {cs : List Char} (h : sep ∉ cs) : split sep cs = [cs] := by
  induction cs with
  | nil => rfl
  | cons c cs ih =>
    rw [List.mem_cons, not_or] at h
    rw [split, if_neg (Ne.symm h.1), ih h.2]

theorem sep_not_mem_of_mem_split {sep : Char} {cs piece : List Char} (h : piece ∈ split sep cs) :
    sep ∉ piece := by
  induction cs generalizing piece with
  | nil =>
    rw [split, List.mem_singleton] at h
    simp [h]
  | cons c cs ih =>
    obtain ⟨first, pieces, hp⟩ := List.exists_cons_of_ne_nil (split_ne_nil sep cs)
    rw [split] at h
    split_ifs at h with hc
    · rcases List.mem_cons.mp h with rfl | h
      · simp
      · exact ih h
    · rw [hp] at h ih
      rcases List.mem_cons.mp h with rfl | h
      · rw [List.mem_cons, not_or]
        exact ⟨Ne.symm hc, ih (List.mem_cons_self ..)⟩
      · exact ih (List.mem_cons_of_mem first h)

theorem eq_nil_or_getLast?_of_split {sep : Char} {cs : List Char} {front : List (List Char)}
    (h : split sep cs = front ++ [[]]) : cs = [] ∨ cs.getLast? = some sep := by
  have hcs : join sep (front ++ [[]]) = cs := by rw [← h, join_split]
  rw [← hcs]
  clear h hcs
  induction front with
  | nil => exact .inl rfl
  | cons piece front ih =>
    obtain ⟨next, rest, hrest⟩ := List.exists_cons_of_ne_nil (List.concat_ne_nil [] front)
    rw [List.cons_append, hrest, join_cons_cons, ← hrest, List.getLast?_append, List.getLast?_cons]
    right
    rcases ih with hnil | hlast
    · simp [hnil]
    · simp [hlast]

end Text

namespace Path

def IsName (name : String) : Prop :=
  name.toList ≠ [] ∧ '/' ∉ name.toList ∧ name.toList ≠ ['.'] ∧ name.toList ≠ ['.', '.']

instance (name : String) : Decidable (IsName name) := inferInstanceAs (Decidable (_ ∧ _ ∧ _ ∧ _))

theorem component?_of_isName {name : String} (h : IsName name) :
    component? name.toList = some (.name name) := by
  obtain ⟨hne, -, hdot, hdots⟩ := h
  simp [component?, isFiller, hne, hdot, hdots]

theorem isName_of_component? {piece : List Char} {name : String} (hslash : '/' ∉ piece)
    (h : component? piece = some (.name name)) : IsName name ∧ name.toList = piece := by
  unfold component? at h
  split_ifs at h with hfiller hdots
  · simp at h
  · obtain rfl : String.ofList piece = name := by simpa using h
    simp only [isFiller, Bool.or_eq_true, beq_iff_eq, not_or] at hfiller hdots
    rw [IsName, String.toList_ofList]
    exact ⟨⟨hfiller.1, hslash, hfiller.2, hdots⟩, rfl⟩

def leading (piece : List Char) : List Component :=
  if piece = [] then [.root] else if piece = ['.'] then [.here] else (component? piece).toList

theorem components_of_pieces_cons {p : Path} {piece next : List Char} {rest : List (List Char)}
    (h : p.pieces = piece :: next :: rest) :
    p.components = leading piece ++ (next :: rest).filterMap component? := by
  change p.anatomy.1.components ++ p.anatomy.2.filterMap component? = _
  unfold anatomy leading
  rw [h]
  split_ifs with hroot hhere
  · rw [hroot]
    rfl
  · rw [hhere]
    rfl
  · split
    · rename_i heq
      exact absurd (List.cons.inj heq).1 hroot
    · rename_i heq
      exact absurd (List.cons.inj heq).1 hhere
    · change (piece :: next :: rest).filterMap component? = _
      rw [List.filterMap_cons]
      cases component? piece with
      | none => rfl
      | some c => rfl

theorem components_of_pieces_singleton {p : Path} {piece : List Char} (h : p.pieces = [piece]) :
    p.components = if piece = ['.'] then [.here] else (component? piece).toList := by
  change p.anatomy.1.components ++ p.anatomy.2.filterMap component? = _
  unfold anatomy
  rw [h]
  split_ifs with hdot
  · rw [hdot]
    rfl
  · split
    · rename_i heq
      simp at heq
    · rename_i heq
      exact absurd (List.cons.inj heq).1 hdot
    · change [piece].filterMap component? = _
      rw [List.filterMap_cons]
      cases component? piece with
      | none => rfl
      | some c => rfl

theorem isAbsolute_iff {p : Path} :
    p.isAbsolute = true ↔ ∃ next rest, p.pieces = [] :: next :: rest := by
  rw [isAbsolute, pieces, beq_iff_eq]
  cases p.chars with
  | nil => simp [Text.split]
  | cons c cs =>
    obtain ⟨piece, more, hmore⟩ := List.exists_cons_of_ne_nil (Text.split_ne_nil '/' cs)
    rw [Text.split, hmore]
    split_ifs with hc
    · simp [hc]
    · simp [hc]

theorem component?_cases (piece : List Char) :
    component? piece = none ∨ component? piece = some .up ∨
      ∃ name, component? piece = some (.name name) := by
  unfold component?
  split_ifs
  · exact .inl rfl
  · exact .inr (.inl rfl)
  · exact .inr (.inr ⟨_, rfl⟩)

theorem isAbsolute_of_isName {name : String} (h : IsName name) :
    (⟨name⟩ : Path).isAbsolute = false := by
  obtain ⟨hne, hslash, -⟩ := h
  cases hchars : name.toList with
  | nil => exact absurd hchars hne
  | cons c cs =>
    rw [hchars, List.mem_cons, not_or] at hslash
    simp [isAbsolute, chars, hchars, Ne.symm hslash.1]

theorem chars_join (p : Path) {name : String} (h : IsName name) :
    ∃ rest, (p.join ⟨name⟩).chars = p.chars ++ rest := by
  unfold join
  rw [isAbsolute_of_isName h, if_neg Bool.false_ne_true]
  split_ifs
  · exact ⟨_, String.toList_append⟩
  · refine ⟨['/'] ++ name.toList, ?_⟩
    rw [chars, String.toList_append, String.toList_append, List.append_assoc]
    rfl

/-- The pieces of a name in a directory: those of the directory, less the empty
piece behind its final slash, and the name. -/
theorem pieces_join (p : Path) {name : String} (h : IsName name) :
    ∃ base, (p.join ⟨name⟩).pieces = base ++ [name.toList] ∧
      (p.pieces = base ∧ base ≠ [[]] ∨ p.pieces = base ++ [[]]) := by
  have hsplit := Text.split_eq_singleton h.2.1
  unfold join
  rw [isAbsolute_of_isName h, if_neg Bool.false_ne_true]
  split_ifs with hcut
  · rw [Bool.or_eq_true, beq_iff_eq] at hcut
    rcases hcut with hempty | hlast
    · have hchars : p.chars = [] := by simpa [chars] using hempty
      refine ⟨[], ?_, .inr ?_⟩
      · rw [pieces, chars, String.toList_append, ← chars, hchars, List.nil_append, hsplit]
        rfl
      · rw [pieces, hchars]
        rfl
    · obtain ⟨cs, hcs⟩ := List.getLast?_eq_some_iff.mp hlast
      refine ⟨Text.split '/' cs, ?_, .inr ?_⟩
      · rw [pieces, chars, String.toList_append, ← chars, hcs, List.append_assoc,
          List.singleton_append, Text.split_append_sep, hsplit]
      · rw [pieces, hcs, Text.split_append_sep]
        rfl
  · refine ⟨p.pieces, ?_, .inl ⟨rfl, fun hpieces => hcut ?_⟩⟩
    · rw [pieces, chars, String.toList_append, String.toList_append, ← chars, List.append_assoc]
      change Text.split '/' (p.chars ++ '/' :: name.toList) = _
      rw [Text.split_append_sep, hsplit, pieces]
    · have hchars := Text.join_split '/' p.chars
      rw [← pieces, hpieces] at hchars
      have hempty : p.text.toList = [] := hchars.symm
      simp [String.toList_eq_nil_iff.mp hempty]

theorem components_join (p : Path) {name : String} (h : IsName name) :
    (p.join ⟨name⟩).components = p.components ++ [.name name] := by
  have hname := component?_of_isName h
  obtain ⟨base, hjoin, hbase⟩ := pieces_join p h
  -- A single piece is read on its own, the first of several by what it opens.
  cases base with
  | nil =>
    rcases hbase with ⟨hp, -⟩ | hp
    · exact absurd hp (Text.split_ne_nil '/' p.chars)
    · rw [components_of_pieces_singleton hjoin, components_of_pieces_singleton hp, if_neg h.2.2.1,
        hname]
      rfl
  | cons piece rest =>
    obtain ⟨next, more, hmore⟩ := List.exists_cons_of_ne_nil
      (List.append_ne_nil_of_right_ne_nil rest (List.cons_ne_nil name.toList []))
    have hleft : (p.join ⟨name⟩).components =
        leading piece ++ rest.filterMap component? ++ [.name name] := by
      rw [List.cons_append, hmore] at hjoin
      rw [components_of_pieces_cons hjoin, ← hmore, List.filterMap_append, List.append_assoc]
      simp [hname]
    have hright : p.components = leading piece ++ rest.filterMap component? := by
      rcases hbase with ⟨hp, hne⟩ | hp
      · cases rest with
        | nil =>
          have hpiece : piece ≠ [] := fun h => hne (by rw [h])
          rw [components_of_pieces_singleton hp, leading, if_neg hpiece]
          split_ifs <;> simp
        | cons next rest => exact components_of_pieces_cons hp
      · cases rest with
        | nil => exact components_of_pieces_cons hp
        | cons next rest =>
          have hnext : p.pieces = piece :: next :: (rest ++ [[]]) := hp
          rw [components_of_pieces_cons hnext, ← List.cons_append, List.filterMap_append]
          simp [component?, isFiller]
    rw [hleft, hright]

theorem fileName?_join (p : Path) {name : String} (h : IsName name) :
    (p.join ⟨name⟩).fileName? = some name.toList := by
  rw [fileName?, components_join p h, List.getLast?_concat]

end Path

namespace Disk

variable {disk : Disk}

def IsDirectory (disk : Disk) (location : Location) : Prop :=
  ∃ about, disk.entry? location = some (.directory about)

def enter (location : Location) : Path.Component → Location
  | .root => []
  | .here => location
  | .up => location.dropLast
  | .name text => location ++ [text]

def placeOf (location : Location) (components : List Path.Component) : Location :=
  components.foldl enter location

def place (disk : Disk) (path : Path) : Location := placeOf disk.here path.components

theorem start_of_pieces_singleton {path : Path} {piece : List Char} (h : path.pieces = [piece]) :
    disk.start path = disk.here := by
  rw [start, if_neg]
  rw [Path.isAbsolute_iff, h]
  simp

theorem start_of_pieces_cons {path : Path} {piece next : List Char} {rest : List (List Char)}
    (h : path.pieces = piece :: next :: rest) :
    disk.start path = if piece = [] then [] else disk.here := by
  have habsolute : path.isAbsolute = true ↔ piece = [] := by
    rw [Path.isAbsolute_iff, h]
    simp
  rw [start]
  exact if_congr habsolute rfl rfl

theorem place_eq (disk : Disk) (path : Path) :
    disk.place path = (path.pieces.filterMap Path.component?).foldl enter (disk.start path) := by
  obtain ⟨piece, pieces, hp⟩ := List.exists_cons_of_ne_nil (Text.split_ne_nil '/' path.chars)
  change path.pieces = _ at hp
  cases pieces with
  | nil =>
    rw [place, placeOf, Path.components_of_pieces_singleton hp, start_of_pieces_singleton hp, hp]
    split_ifs with hdot
    · rw [hdot]
      rfl
    · cases hc : Path.component? piece with
      | none => simp [hc]
      | some c => simp [hc]
  | cons next rest =>
    rw [place, placeOf, Path.components_of_pieces_cons hp, start_of_pieces_cons hp, hp,
      List.foldl_append, Path.leading]
    split_ifs with hroot hhere
    · rw [hroot]
      rfl
    · rw [hhere]
      rfl
    · cases hc : Path.component? piece with
      | none => rw [List.filterMap_cons_none hc]; rfl
      | some c => rw [List.filterMap_cons_some hc]; rfl

theorem step_eq_ok_iff {location next : Location} {piece : List Char} :
    disk.step location piece = .ok next ↔ disk.IsDirectory location ∧
      (Path.component? piece = none ∧ location = next ∨
        Path.component? piece = some .up ∧ disk.IsDirectory location.dropLast ∧
          location.dropLast = next ∨
        ∃ name, Path.component? piece = some (.name name) ∧
          (disk.entry? (location ++ [name])).isSome ∧ location ++ [name] = next) := by
  have habove : (disk.entry? location.dropLast).any (!·.isFile) = true ↔
      disk.IsDirectory location.dropLast := by
    rw [Option.any_eq_true]
    constructor
    · rintro ⟨entry, hentry, hkind⟩
      cases entry with
      | file content modified readable => cases hkind
      | directory about => exact ⟨about, hentry⟩
    · rintro ⟨about, hentry⟩
      exact ⟨_, hentry, rfl⟩
  unfold step
  split
  · rename_i about hentry
    rw [and_iff_right (show disk.IsDirectory location from ⟨about, hentry⟩)]
    rcases Path.component?_cases piece with hc | hc | ⟨name, hc⟩
    · simp [hc]
    · simp only [hc, ← habove]
      split_ifs with hup
      · simp [hup]
      · simp [hup]
    · simp only [hc]
      split_ifs with hsome
      · simp [hsome]
      · simp [hsome]
  · rename_i hentry
    simp [IsDirectory, hentry]
  · rename_i hentry
    simp [IsDirectory, hentry]

theorem walk_append (location : Location) (front rest : List (List Char)) :
    disk.walk location (front ++ rest) = disk.walk location front >>= (disk.walk · rest) :=
  List.foldlM_append

theorem walk_cons_eq_ok_iff {location last : Location} {piece : List Char}
    {pieces : List (List Char)} :
    disk.walk location (piece :: pieces) = .ok last ↔
      ∃ next, disk.step location piece = .ok next ∧ disk.walk next pieces = .ok last :=
  foldlM_cons_eq_ok_iff

theorem walk_concat_eq_ok_iff {location last : Location} {piece : List Char}
    {pieces : List (List Char)} :
    disk.walk location (pieces ++ [piece]) = .ok last ↔
      ∃ next, disk.walk location pieces = .ok next ∧ disk.step next piece = .ok last := by
  have hsingle : ∀ next, disk.walk next [piece] = disk.step next piece :=
    fun next => bind_pure (disk.step next piece)
  simp only [walk_append, bind_eq_ok_iff, hsingle]

theorem step_empty_iff {location next : Location} :
    disk.step location [] = .ok next ↔ disk.IsDirectory location ∧ location = next := by
  rw [step_eq_ok_iff]
  simp [Path.component?, Path.isFiller]

theorem eq_foldl_of_walk {location last : Location} {pieces : List (List Char)}
    (h : disk.walk location pieces = .ok last) :
    last = (pieces.filterMap Path.component?).foldl enter location := by
  induction pieces generalizing location with
  | nil =>
    cases h
    rfl
  | cons piece pieces ih =>
    obtain ⟨next, hnext, h⟩ := walk_cons_eq_ok_iff.mp h
    rw [ih h]
    obtain ⟨-, ⟨hc, rfl⟩ | ⟨hc, -, rfl⟩ | ⟨name, hc, -, rfl⟩⟩ := step_eq_ok_iff.mp hnext
    · rw [List.filterMap_cons_none hc]
    · rw [List.filterMap_cons_some hc]
      rfl
    · rw [List.filterMap_cons_some hc]
      rfl

theorem isEmpty_text_iff {path : Path} : path.text.isEmpty = true ↔ path.chars = [] := by
  rw [String.isEmpty_iff, ← String.toList_eq_nil_iff]
  rfl

theorem locate_eq_ok_iff {path : Path} {location : Location} :
    disk.locate path = .ok location ↔
      path.chars ≠ [] ∧ disk.walk (disk.start path) path.pieces = .ok location := by
  unfold locate
  split_ifs with h
  · simp [isEmpty_text_iff.mp h]
  · simp [mt isEmpty_text_iff.mpr h]

theorem eq_place_of_locate {path : Path} {location : Location}
    (h : disk.locate path = .ok location) : location = disk.place path := by
  obtain ⟨-, hwalk⟩ := locate_eq_ok_iff.mp h
  rw [place_eq]
  exact eq_foldl_of_walk hwalk

theorem find_eq_ok_iff {path : Path} {entry : Entry} :
    disk.find path = .ok entry ↔
      ∃ location, disk.locate path = .ok location ∧ disk.entry? location = some entry := by
  unfold find
  rw [bind_eq_ok_iff]
  refine exists_congr fun location => and_congr_right fun _ => ?_
  split
  · rename_i hentry
    simp [hentry]
  · rename_i hentry
    simp [hentry]

theorem entry?_of_find {path : Path} {entry : Entry} (h : disk.find path = .ok entry) :
    disk.entry? (disk.place path) = some entry := by
  obtain ⟨location, hlocate, hentry⟩ := find_eq_ok_iff.mp h
  rwa [← eq_place_of_locate hlocate]

theorem opened_eq_ok_iff {path : Path} {entry : Entry} :
    disk.opened path = .ok entry ↔ disk.find path = .ok entry ∧ entry.isReadable = true := by
  rw [opened, bind_eq_ok_iff]
  constructor
  · rintro ⟨found, hfind, h⟩
    split_ifs at h with hreadable
    cases h
    exact ⟨hfind, hreadable⟩
  · rintro ⟨hfind, hreadable⟩
    exact ⟨entry, hfind, if_pos hreadable⟩

/-- Something is there and may not be read. -/
def Denies (disk : Disk) (path : Path) : Prop :=
  ∃ entry, disk.find path = .ok entry ∧ entry.isReadable = false

theorem opened_of_denies {path : Path} (h : disk.Denies path) :
    disk.opened path = .error .denied := by
  obtain ⟨entry, hfind, hdenied⟩ := h
  rw [opened, hfind, ok_bind, if_neg (by simp [hdenied])]

theorem opened_of_not_denies {path : Path} {entry : Entry} (hfind : disk.find path = .ok entry)
    (h : ¬disk.Denies path) : disk.opened path = .ok entry := by
  refine opened_eq_ok_iff.mpr ⟨hfind, ?_⟩
  rw [← Bool.not_eq_false]
  exact fun hdenied => h ⟨entry, hfind, hdenied⟩

theorem start_join {path : Path} (hne : path.chars ≠ []) {name : String} (h : Path.IsName name) :
    disk.start (path.join ⟨name⟩) = disk.start path := by
  obtain ⟨rest, hchars⟩ := Path.chars_join path h
  obtain ⟨c, cs, hcs⟩ := List.exists_cons_of_ne_nil hne
  rw [start, start, Path.isAbsolute, Path.isAbsolute, hchars, hcs]
  rfl

theorem find_join {path : Path} {location : Location} (hlocate : disk.locate path = .ok location)
    (hdirectory : disk.IsDirectory location) {name : String} (hname : Path.IsName name)
    {entry : Entry} :
    disk.find (path.join ⟨name⟩) = .ok entry ↔ disk.entry? (location ++ [name]) = some entry := by
  obtain ⟨hne, hwalk⟩ := locate_eq_ok_iff.mp hlocate
  obtain ⟨base, hjoin, hbase⟩ := Path.pieces_join path hname
  -- A final slash adds an empty piece.
  have hfront : disk.walk (disk.start path) base = .ok location := by
    rcases hbase with ⟨hp, -⟩ | hp
    · rwa [hp] at hwalk
    · rw [hp, walk_concat_eq_ok_iff] at hwalk
      obtain ⟨last, hlast, hstep⟩ := hwalk
      obtain ⟨-, rfl⟩ := step_empty_iff.mp hstep
      exact hlast
  have hlast : ∀ next, disk.walk (disk.start path) (base ++ [name.toList]) = .ok next ↔
      (disk.entry? (location ++ [name])).isSome ∧ location ++ [name] = next := by
    intro next
    rw [walk_append, hfront, ok_bind, walk_cons_eq_ok_iff]
    simp [step_eq_ok_iff, Path.component?_of_isName hname, hdirectory, walk]
  obtain ⟨rest, hchars⟩ := Path.chars_join path hname
  have hjoined : (path.join ⟨name⟩).chars ≠ [] := by simp [hchars, hne]
  rw [find_eq_ok_iff]
  simp only [locate_eq_ok_iff, start_join hne hname, hjoin, hlast]
  constructor
  · rintro ⟨_, ⟨-, -, rfl⟩, hentry⟩
    exact hentry
  · intro hentry
    exact ⟨_, ⟨hjoined, by simp [hentry], rfl⟩, hentry⟩

theorem target_of_find {path : Path} {content : Bytes} {modified : Instant} {readable : Bool}
    (h : disk.find path = .ok (.file content modified readable)) :
    disk.target path = .ok (disk.place path) := by
  obtain ⟨location, hlocate, hentry⟩ := find_eq_ok_iff.mp h
  have hplace := eq_place_of_locate hlocate
  obtain ⟨hne, hwalk⟩ := locate_eq_ok_iff.mp hlocate
  obtain ⟨around, name, hpieces⟩ : ∃ around name, path.pieces = around ++ [name] :=
    ⟨_, _, (List.dropLast_append_getLast (Text.split_ne_nil '/' path.chars)).symm⟩
  rw [hpieces, walk_concat_eq_ok_iff] at hwalk
  obtain ⟨directory, haround, hlast⟩ := hwalk
  -- A file is reached by its name alone: any other last piece ends in a directory.
  obtain ⟨hdirectory, ⟨-, rfl⟩ | ⟨-, hup, rfl⟩ | ⟨text, hc, -, rfl⟩⟩ := step_eq_ok_iff.mp hlast
  · obtain ⟨about, hdirectory⟩ := hdirectory
    rw [hdirectory] at hentry
    cases hentry
  · obtain ⟨about, hup⟩ := hup
    rw [hup] at hentry
    cases hentry
  · have hmem : name ∈ path.pieces := by simp [hpieces]
    obtain ⟨⟨hname, -, hdot, hdots⟩, rfl⟩ :=
      Path.isName_of_component? (Text.sep_not_mem_of_mem_split hmem) hc
    have hopen : path.chars.getLast? ≠ some '/' := by
      intro hfinal
      obtain ⟨cs, hcs⟩ := List.getLast?_eq_some_iff.mp hfinal
      rw [Path.pieces, hcs, Text.split_append_sep] at hpieces
      exact hname (List.singleton_inj.mp (List.append_inj_right' hpieces rfl)).symm
    have hinside : disk.walk (disk.start path) (around ++ [[]]) = .ok directory :=
      walk_concat_eq_ok_iff.mpr ⟨directory, haround, step_empty_iff.mpr ⟨hdirectory, rfl⟩⟩
    have hreverse : path.pieces.reverse.dropWhile List.isEmpty = text.toList :: around.reverse := by
      rw [hpieces, List.reverse_append, List.reverse_singleton, List.singleton_append,
        List.dropWhile_cons_of_neg (by simpa using hname)]
    rw [target, if_neg (mt isEmpty_text_iff.mp hne), hreverse, ← hplace]
    simp only [List.reverse_reverse, hinside, ok_bind, hopen, hdot, hdots, or_self, if_false,
      String.ofList_toList, hentry]

end Disk
end CycleCount
