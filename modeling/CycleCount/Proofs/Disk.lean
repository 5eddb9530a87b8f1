import CycleCount.Proofs.Lookup
import CycleCount.Proofs.Paths

/-! Disks under change. On a well-formed disk every location holds one entry, and
its names are ordinary ones; whatever is done to the disk, it stays so. -/

namespace CycleCount

namespace Path

theorem mem_pieces_of_mem_components {p : Path} {name : String} (h : .name name ∈ p.components) :
    ∃ piece ∈ p.pieces, component? piece = some (.name name) := by
  obtain ⟨piece, pieces, hp⟩ := List.exists_cons_of_ne_nil (Text.split_ne_nil '/' p.chars)
  change p.pieces = _ at hp
  cases pieces with
  | nil =>
    rw [components_of_pieces_singleton hp] at h
    split_ifs at h
    · simp at h
    · exact ⟨piece, by simp [hp], by simpa using h⟩
  | cons next rest =>
    rw [components_of_pieces_cons hp, List.mem_append, leading] at h
    rcases h with h | h
    · split_ifs at h
      · simp at h
      · simp at h
      · exact ⟨piece, by simp [hp], by simpa using h⟩
    · obtain ⟨piece', hmem, hc⟩ := List.mem_filterMap.mp h
      exact ⟨piece', by rw [hp]; exact List.mem_cons_of_mem piece hmem, hc⟩

end Path

namespace Disk

variable {disk : Disk}

structure WellFormed (disk : Disk) : Prop where
  locations : (disk.entries.map (·.1)).Nodup
  names : ∀ entry ∈ disk.entries, ∀ name ∈ entry.1, Path.IsName name
  here : ∀ name ∈ disk.here, Path.IsName name

instance (disk : Disk) : Decidable disk.WellFormed :=
  decidable_of_iff (_ ∧ _ ∧ _)
    ⟨fun h => ⟨h.1, h.2.1, h.2.2⟩, fun h => ⟨h.locations, h.names, h.here⟩⟩

theorem isName_of_mem_spelled {path : Path} {name : String} (h : name ∈ spelled path) :
    Path.IsName name := by
  unfold spelled at h
  obtain ⟨component, hmem, hc⟩ := List.mem_filterMap.mp h
  split at hc
  · cases hc
    obtain ⟨piece, hpiece, hname⟩ := Path.mem_pieces_of_mem_components hmem
    exact (Path.isName_of_component? (Text.sep_not_mem_of_mem_split hpiece) hname).1
  · cases hc

theorem WellFormed.isName_of_start (h : disk.WellFormed) (path : Path) :
    ∀ name ∈ disk.start path, Path.IsName name := by
  unfold start
  split_ifs
  · simp
  · exact h.here

theorem isName_of_walk {location last : Location} {pieces : List (List Char)}
    (hpieces : ∀ piece ∈ pieces, '/' ∉ piece) (hnames : ∀ name ∈ location, Path.IsName name)
    (h : disk.walk location pieces = .ok last) : ∀ name ∈ last, Path.IsName name := by
  induction pieces generalizing location with
  | nil =>
    cases h
    exact hnames
  | cons piece pieces ih =>
    obtain ⟨next, hnext, h⟩ := walk_cons_eq_ok_iff.mp h
    refine ih (fun other hother => hpieces other (List.mem_cons_of_mem piece hother)) ?_ h
    obtain ⟨-, ⟨-, rfl⟩ | ⟨-, -, rfl⟩ | ⟨name, hc, -, rfl⟩⟩ := step_eq_ok_iff.mp hnext
    · exact hnames
    · exact fun name hname => hnames name (List.dropLast_subset location hname)
    · intro other hother
      rcases List.mem_append.mp hother with hother | hother
      · exact hnames other hother
      · rw [List.mem_singleton.mp hother]
        exact (Path.isName_of_component? (hpieces piece (List.mem_cons_self ..)) hc).1

theorem target_eq_ok {path : Path} {location : Location} (h : disk.target path = .ok location) :
    ∃ around name directory, path.pieces = around ++ [name.toList] ∧ Path.IsName name ∧
      path.chars ≠ [] ∧ disk.walk (disk.start path) around = .ok directory ∧
      disk.IsDirectory directory ∧ location = directory ++ [name] ∧
      ¬disk.IsDirectory location := by
  unfold target at h
  split_ifs at h with hempty
  have hne : path.chars ≠ [] := mt isEmpty_text_iff.mpr hempty
  split at h
  · cases h
  · rename_i name around hpieces
    obtain ⟨directory, hdirectory, h⟩ := bind_eq_ok_iff.mp h
    split_ifs at h with hlast
    simp only [not_or] at hlast
    obtain ⟨hopen, hdot, hdots⟩ := hlast
    -- The path does not end in a slash, so no empty piece was dropped.
    obtain ⟨front, last, hfront⟩ : ∃ front last, path.pieces = front ++ [last] :=
      ⟨_, _, (List.dropLast_append_getLast (Text.split_ne_nil '/' path.chars)).symm⟩
    have hnonempty : last ≠ [] := by
      rintro rfl
      rcases Text.eq_nil_or_getLast?_of_split hfront with hnil | hslash
      · exact hne hnil
      · exact hopen hslash
    rw [hfront, List.reverse_append, List.reverse_singleton, List.singleton_append,
      List.dropWhile_cons_of_neg (by simpa using hnonempty), List.cons.injEq] at hpieces
    obtain ⟨rfl, rfl⟩ := hpieces
    rw [List.reverse_reverse, walk_concat_eq_ok_iff] at hdirectory
    obtain ⟨inside, hinside, hstay⟩ := hdirectory
    obtain ⟨hentry, rfl⟩ := step_empty_iff.mp hstay
    have hmem : last ∈ path.pieces := by simp [hfront]
    refine ⟨front, String.ofList last, inside, by rw [hfront, String.toList_ofList], ?_, hne,
      hinside, hentry, ?_⟩
    · rw [Path.IsName, String.toList_ofList]
      exact ⟨hnonempty, Text.sep_not_mem_of_mem_split hmem, hdot, hdots⟩
    · simp only at h
      split at h
      · cases h
      · rename_i hother
        cases h
        refine ⟨rfl, ?_⟩
        rintro ⟨about, habout⟩
        exact hother about habout

theorem ne_nil_of_target {path : Path} {location : Location}
    (h : disk.target path = .ok location) : location ≠ [] := by
  obtain ⟨-, name, directory, -, -, -, -, -, rfl, -⟩ := target_eq_ok h
  simp

theorem WellFormed.isName_of_target (hdisk : disk.WellFormed) {path : Path} {location : Location}
    (h : disk.target path = .ok location) : ∀ name ∈ location, Path.IsName name := by
  obtain ⟨around, name, directory, hpieces, hname, -, hwalk, -, rfl, -⟩ := target_eq_ok h
  have hslash : ∀ piece ∈ around, '/' ∉ piece := by
    intro piece hpiece
    have hmem : piece ∈ path.pieces := hpieces ▸ List.mem_append_left _ hpiece
    exact Text.sep_not_mem_of_mem_split hmem
  intro other hother
  rcases List.mem_append.mp hother with hother | hother
  · exact isName_of_walk hslash (hdisk.isName_of_start path) hwalk other hother
  · rw [List.mem_singleton.mp hother]
    exact hname

theorem lookup_put (location other : Location) (entry : Entry) :
    (disk.put location entry).entries.lookup other =
      if other = location then some entry else disk.entries.lookup other := by
  unfold put
  split_ifs with hsome hother hother
  · obtain ⟨old, hold⟩ := Option.isSome_iff_exists.mp hsome
    simp [lookup_replace, hother, hold]
  · simp [lookup_replace, hother]
  · rw [Option.not_isSome_iff_eq_none] at hsome
    simp [List.lookup_append, hother, hsome]
  · simp [List.lookup_append, List.lookup_cons, beq_false_of_ne hother]

theorem now_put (location : Location) (entry : Entry) : (disk.put location entry).now = disk.now := by
  unfold put
  split_ifs <;> rfl

theorem here_put (location : Location) (entry : Entry) :
    (disk.put location entry).here = disk.here := by
  unfold put
  split_ifs <;> rfl

theorem root_put (location : Location) (entry : Entry) :
    (disk.put location entry).root = disk.root := by
  unfold put
  split_ifs <;> rfl

theorem put_put (location : Location) (old entry : Entry) :
    (disk.put location old).put location entry = disk.put location entry := by
  have hsome : ((disk.put location old).entries.lookup location).isSome := by
    rw [lookup_put, if_pos rfl]
    rfl
  rw [put, if_pos hsome]
  unfold put
  split_ifs with hthere
  · simp only [List.map_map]
    congr 2
    funext other
    by_cases hother : other.1 = location <;> simp [hother]
  · rw [isSome_lookup_iff] at hthere
    have hkept : disk.entries.map (fun other =>
        if other.1 = location then (location, entry) else other) = disk.entries := by
      refine (List.map_congr_left fun other hother => if_neg ?_).trans (List.map_id _)
      rintro rfl
      exact hthere (List.mem_map_of_mem hother)
    simp only [List.map_append, hkept, List.map_cons, if_true, List.map_nil]

theorem entry?_of_ne_nil {location : Location} (h : location ≠ []) :
    disk.entry? location = disk.entries.lookup location := by
  unfold entry?
  rw [if_neg (by simpa using h)]

theorem entry?_put_self {location : Location} (h : location ≠ []) (entry : Entry) :
    entry? (disk.put location entry) location = some entry := by
  rw [entry?_of_ne_nil h, lookup_put, if_pos rfl]

theorem entry?_put_of_ne {location other : Location} (h : other ≠ location) (entry : Entry) :
    entry? (disk.put location entry) other = disk.entry? other := by
  unfold entry?
  rw [lookup_put, if_neg h, root_put]

theorem access_eq_false_iff {location : Location} :
    disk.access location = false ↔
      ∃ content modified, disk.entry? location = some (.file content modified false) := by
  rw [access]
  constructor
  · intro h
    split at h
    · rename_i content modified readable hentry
      exact ⟨content, modified, by rw [hentry, h]⟩
    · cases h
  · rintro ⟨content, modified, hentry⟩
    rw [hentry]

theorem mem_entries_of_entry?_eq_some {location : Location} (hne : location ≠ []) {entry : Entry}
    (h : disk.entry? location = some entry) : (location, entry) ∈ disk.entries := by
  rw [entry?_of_ne_nil hne] at h
  exact mem_of_lookup_eq_some h

theorem ne_nil_of_entry?_file {location : Location} {content : Bytes} {modified : Instant}
    {readable : Bool} (h : disk.entry? location = some (.file content modified readable)) :
    location ≠ [] := by
  rintro rfl
  cases h

theorem WellFormed.put (h : disk.WellFormed) {location : Location}
    (hnames : ∀ name ∈ location, Path.IsName name) (entry : Entry) :
    (disk.put location entry).WellFormed := by
  unfold Disk.put
  split_ifs with hsome
  · refine ⟨?_, ?_, h.here⟩
    · have hsame : ∀ other ∈ disk.entries,
          (if other.1 = location then (location, entry) else other).1 = other.1 := by
        intro other _
        split_ifs with heq
        · exact heq.symm
        · rfl
      rw [List.map_map]
      exact (List.map_congr_left hsame).symm ▸ h.locations
    · intro other hother
      obtain ⟨old, hold, rfl⟩ := List.mem_map.mp hother
      split_ifs
      · exact hnames
      · exact h.names old hold
  · rw [isSome_lookup_iff] at hsome
    refine ⟨?_, ?_, h.here⟩
    · rw [List.map_append, List.nodup_append]
      refine ⟨h.locations, by simp, fun a ha b hb => ?_⟩
      rintro rfl
      simp only [List.map_cons, List.map_nil, List.mem_singleton] at hb
      exact hsome (hb ▸ ha)
    · intro other hother
      rcases List.mem_append.mp hother with hother | hother
      · exact h.names other hother
      · rw [List.mem_singleton.mp hother]
        exact hnames

/-- What stands in a file at `location` stood there before, and so did a directory
that may not be read. Paths start where they did. -/
structure KeepsContent (disk next : Disk) (location : Location) : Prop where
  here : next.here = disk.here
  file : ∀ content modified readable,
    next.entry? location = some (.file content modified readable) →
      ∃ earlier, disk.entry? location = some (.file content earlier readable)
  directory : ∀ about, next.entry? location = some (.directory about) → about.readable = false →
    disk.entry? location = some (.directory about)

theorem KeepsContent.refl (disk : Disk) (location : Location) :
    KeepsContent disk disk location :=
  ⟨rfl, fun _ modified _ h => ⟨modified, h⟩, fun _ h _ => h⟩

theorem KeepsContent.trans {first second third : Disk} {location : Location}
    (h : KeepsContent first second location) (h' : KeepsContent second third location) :
    KeepsContent first third location := by
  refine ⟨h'.here.trans h.here, fun content modified readable hthird => ?_,
    fun about hthird hdenied => h.directory about (h'.directory about hthird hdenied) hdenied⟩
  obtain ⟨earlier, hsecond⟩ := h'.file content modified readable hthird
  exact h.file content earlier readable hsecond

theorem keepsContent_of_same {next : Disk} {location : Location} (hhere : next.here = disk.here)
    (h : next.entry? location = disk.entry? location) : KeepsContent disk next location :=
  ⟨hhere, fun _ modified _ hfile => ⟨modified, h ▸ hfile⟩, fun _ hentry _ => h ▸ hentry⟩

theorem keepsContent_put_of_ne {location other : Location} (h : other ≠ location) (entry : Entry) :
    KeepsContent disk (disk.put location entry) other :=
  keepsContent_of_same (here_put location entry) (entry?_put_of_ne h entry)

theorem keepsContent_put_directory (location other : Location) {about : Directory}
    (hreadable : about.readable = true) :
    KeepsContent disk (disk.put location (.directory about)) other := by
  by_cases h : other = location
  · subst h
    by_cases hroot : other = []
    · subst hroot
      refine keepsContent_of_same (here_put _ _) ?_
      simp only [ entry?, List.isEmpty_nil, if_true, root_put]
    · refine ⟨here_put _ _, fun content modified readable hfile => ?_, fun made hmade hdenied => ?_⟩
      · rw [entry?_put_self hroot] at hfile
        cases hfile
      · rw [entry?_put_self hroot] at hmade
        cases hmade
        rw [hreadable] at hdenied
        cases hdenied
  · exact keepsContent_put_of_ne h (.directory about)

theorem makeDirectory_keeps (h : disk.WellFormed) (path : Path) {about : Directory}
    (hreadable : about.readable = true) (location : Location) :
    (disk.makeDirectory path about).WellFormed ∧
      KeepsContent disk (disk.makeDirectory path about) location := by
  unfold makeDirectory
  refine List.foldlRecOn (List.range (spelled path).length) _
    (motive := fun other => other.WellFormed ∧ KeepsContent disk other location)
    ⟨h, .refl disk location⟩ fun other hother n _ => ?_
  simp only
  split_ifs
  · exact hother
  · refine ⟨hother.1.put (fun name hname => ?_) _,
      hother.2.trans (keepsContent_put_directory _ _ hreadable)⟩
    exact isName_of_mem_spelled (List.mem_of_mem_take hname)

theorem install_keeps (h : disk.WellFormed) (path : Path) (content : Bytes) (modified : Instant)
    {location : Location} (hne : location ≠ spelled path) :
    (disk.install path content modified).WellFormed ∧
      KeepsContent disk (disk.install path content modified) location := by
  unfold install
  split
  · rename_i parent _
    have hreadable : ({ size := disk.root.size, modified := disk.now } : Directory).readable = true :=
      rfl
    obtain ⟨hformed, hkeeps⟩ := makeDirectory_keeps h parent hreadable location
    exact ⟨hformed.put (fun _ => isName_of_mem_spelled) _,
      hkeeps.trans (keepsContent_put_of_ne hne _)⟩
  · exact ⟨h.put (fun _ => isName_of_mem_spelled) _, keepsContent_put_of_ne hne _⟩

theorem touch_keeps (h : disk.WellFormed) (path : Path) (modified : Instant) (location : Location) :
    (disk.touch path modified).WellFormed ∧
      KeepsContent disk (disk.touch path modified) location := by
  unfold touch
  split
  · rename_i content earlier readable hfile
    refine ⟨h.put (fun _ => isName_of_mem_spelled) _, ?_⟩
    by_cases heq : location = spelled path
    · have hput : entry? (disk.put (spelled path) (.file content modified readable)) (spelled path) =
          some (.file content modified readable) :=
        entry?_put_self (ne_nil_of_entry?_file hfile) _
      refine ⟨here_put _ _, fun other time access hother => ?_, fun about hother _ => ?_⟩
      · rw [heq, hput] at hother
        cases hother
        exact ⟨earlier, heq ▸ hfile⟩
      · rw [heq, hput] at hother
        cases hother
    · exact keepsContent_put_of_ne heq _
  · exact ⟨h, .refl disk location⟩

theorem entry?_of_remove (h : disk.WellFormed) {path : Path} {location : Location} {entry : Entry}
    (hentry : entry? (disk.remove path) location = some entry) :
    disk.entry? location = some entry := by
  by_cases hne : location = []
  · subst hne
    exact hentry
  · rw [entry?_of_ne_nil hne, lookup_eq_some_iff_mem h.locations]
    exact List.mem_of_mem_filter (mem_entries_of_entry?_eq_some hne hentry)

theorem remove_keeps (h : disk.WellFormed) (path : Path) (location : Location) :
    (disk.remove path).WellFormed ∧ KeepsContent disk (disk.remove path) location := by
  refine ⟨⟨?_, fun entry hentry => h.names entry (List.mem_of_mem_filter hentry), h.here⟩, rfl, ?_, ?_⟩
  · exact h.locations.sublist (List.filter_sublist.map _)
  · exact fun _ modified _ hfile => ⟨modified, entry?_of_remove h hfile⟩
  · exact fun _ hentry _ => entry?_of_remove h hentry

theorem write_eq_ok_iff {path : Path} {content : Bytes} {disk' : Disk} :
    disk.write path content = .ok disk' ↔ ∃ location, disk.target path = .ok location ∧
      disk' = { disk.put location (.file content disk.now (disk.access location)) with
        now := tick disk.now } := by
  unfold write
  rw [bind_eq_ok_iff]
  simp only [pure_eq_ok, Except.ok.injEq, eq_comm]

structure Grows (disk next : Disk) : Prop where
  here : next.here = disk.here
  directory : ∀ location, disk.IsDirectory location → next.IsDirectory location
  present : ∀ location, (disk.entry? location).isSome → (next.entry? location).isSome

theorem Grows.walk {next : Disk} (h : disk.Grows next) {location last : Location}
    {pieces : List (List Char)} (hwalk : disk.walk location pieces = .ok last) :
    next.walk location pieces = .ok last := by
  induction pieces generalizing location with
  | nil => exact hwalk
  | cons piece pieces ih =>
    obtain ⟨middle, hmiddle, hwalk⟩ := walk_cons_eq_ok_iff.mp hwalk
    obtain ⟨hdirectory, hmove⟩ := step_eq_ok_iff.mp hmiddle
    refine walk_cons_eq_ok_iff.mpr
      ⟨middle, step_eq_ok_iff.mpr ⟨h.directory _ hdirectory, ?_⟩, ih hwalk⟩
    rcases hmove with hstay | ⟨hup, habove, heq⟩ | ⟨name, hname, hsome, heq⟩
    · exact .inl hstay
    · exact .inr (.inl ⟨hup, h.directory _ habove, heq⟩)
    · exact .inr (.inr ⟨name, hname, h.present _ hsome, heq⟩)

theorem Grows.start {next : Disk} (h : disk.Grows next) (path : Path) :
    next.start path = disk.start path := by
  rw [Disk.start, Disk.start, h.here]

theorem Grows.place {next : Disk} (h : disk.Grows next) (path : Path) :
    next.place path = disk.place path := by
  rw [Disk.place, Disk.place, h.here]

theorem Grows.locate {next : Disk} (h : disk.Grows next) {path : Path} {location : Location}
    (hlocate : disk.locate path = .ok location) : next.locate path = .ok location := by
  obtain ⟨hne, hwalk⟩ := locate_eq_ok_iff.mp hlocate
  rw [locate_eq_ok_iff, h.start]
  exact ⟨hne, h.walk hwalk⟩

structure Within (disk next : Disk) : Prop where
  here : next.here = disk.here
  entry : ∀ location entry, disk.entry? location = some entry → next.entry? location = some entry

theorem Within.grows {next : Disk} (h : disk.Within next) : disk.Grows next := by
  refine ⟨h.here, fun location hdirectory => ?_, fun location hsome => ?_⟩
  · obtain ⟨about, hentry⟩ := hdirectory
    exact ⟨about, h.entry _ _ hentry⟩
  · obtain ⟨entry, hentry⟩ := Option.isSome_iff_exists.mp hsome
    rw [h.entry location entry hentry]
    rfl

theorem Within.find {next : Disk} (h : disk.Within next) {path : Path} {entry : Entry}
    (hfind : disk.find path = .ok entry) : next.find path = .ok entry := by
  obtain ⟨location, hlocate, hentry⟩ := find_eq_ok_iff.mp hfind
  exact find_eq_ok_iff.mpr ⟨location, h.grows.locate hlocate, h.entry _ _ hentry⟩

def without (disk : Disk) (location : Location) : Disk :=
  { disk with entries := disk.entries.filter fun entry => entry.1 ≠ location }

theorem entry?_without {location other : Location} (h : other ≠ []) :
    entry? (disk.without location) other = if other = location then none else disk.entry? other := by
  rw [entry?_of_ne_nil h, entry?_of_ne_nil h, without, lookup_filter_ne]

theorem within_without (disk : Disk) (location : Location) : (disk.without location).Within disk := by
  refine ⟨rfl, fun other entry hentry => ?_⟩
  by_cases hne : other = []
  · subst hne
    exact hentry
  · rw [entry?_without hne] at hentry
    split_ifs at hentry
    exact hentry

theorem contains_iff {path : Path} :
    disk.contains path = true ↔ ∃ entry, disk.find path = .ok entry := by
  rw [contains, Option.isSome_iff_exists]
  exact exists_congr fun entry => toOption_eq_some_iff

theorem contains_of_find {path : Path} {entry : Entry} (h : disk.find path = .ok entry) :
    disk.contains path = true :=
  contains_iff.mpr ⟨entry, h⟩

theorem contains_without {path : Path} {content : Bytes} {modified : Instant} {readable : Bool}
    (h : disk.find path = .ok (.file content modified readable)) :
    (disk.without (disk.place path)).contains path = false := by
  have hne : disk.place path ≠ [] := ne_nil_of_entry?_file (entry?_of_find h)
  rw [← Bool.not_eq_true, contains_iff]
  rintro ⟨entry, hfind⟩
  have hentry : entry? (disk.without (disk.place path)) (disk.place path) = some entry :=
    entry?_of_find hfind
  rw [entry?_without hne, if_pos rfl] at hentry
  cases hentry

end Disk
end CycleCount
