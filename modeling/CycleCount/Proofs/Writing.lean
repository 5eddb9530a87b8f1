import CycleCount.Proofs.LeafRecords
import CycleCount.Proofs.Stamps
import Mathlib.Data.List.Sort
import Mathlib.Data.String.Basic

/-! Writing one file. The disk changes at the place of that file and nowhere else,
so the sample files of an experiment and their stamps stay as they were, unless the
file is one of them. -/

namespace CycleCount

namespace Disk

variable {disk next : Disk} {location : Location} {path : Path} {content : Bytes}

structure Writes (disk next : Disk) (location : Location) (content : Bytes) : Prop where
  here : next.here = disk.here
  file : next.entry? location = some (.file content disk.now (disk.access location))
  others : ∀ other, other ≠ location → next.entry? other = disk.entry? other
  free : ¬disk.IsDirectory location

theorem place_of_target (h : disk.target path = .ok location) : location = disk.place path := by
  obtain ⟨around, name, directory, hpieces, hname, -, hwalk, -, rfl, -⟩ := target_eq_ok h
  rw [place_eq, hpieces, List.filterMap_append, List.foldl_append, ← eq_foldl_of_walk hwalk]
  simp [Path.component?_of_isName hname, enter]

theorem writes_of_write (h : disk.write path content = .ok next) :
    disk.Writes next (disk.place path) content := by
  obtain ⟨location, htarget, rfl⟩ := write_eq_ok_iff.mp h
  obtain ⟨-, -, -, -, -, -, -, -, -, hfree⟩ := target_eq_ok htarget
  rw [← place_of_target htarget]
  exact ⟨here_put _ _, entry?_put_self (ne_nil_of_target htarget) _,
    fun other hother => entry?_put_of_ne hother _, hfree⟩

theorem WellFormed.write (hdisk : disk.WellFormed) (h : disk.write path content = .ok next) :
    next.WellFormed := by
  obtain ⟨location, htarget, rfl⟩ := write_eq_ok_iff.mp h
  have hput := hdisk.put (hdisk.isName_of_target htarget)
    (.file content disk.now (disk.access location))
  exact ⟨hput.locations, hput.names, hput.here⟩

theorem Writes.grows (h : disk.Writes next location content) : disk.Grows next := by
  refine ⟨h.here, fun other hother => ?_, fun other hother => ?_⟩
  · have hne : other ≠ location := by
      rintro rfl
      exact h.free hother
    rw [IsDirectory, h.others other hne]
    exact hother
  · by_cases heq : other = location
    · rw [heq, h.file]
      rfl
    · rw [h.others other heq]
      exact hother

theorem Grows.find_of_target (h : disk.Grows next) (htarget : disk.target path = .ok location)
    {entry : Entry} (hentry : next.entry? location = some entry) : next.find path = .ok entry := by
  obtain ⟨around, name, directory, hpieces, hname, hne, hwalk, hdirectory, rfl, -⟩ :=
    target_eq_ok htarget
  refine find_eq_ok_iff.mpr ⟨_, locate_eq_ok_iff.mpr ⟨hne, ?_⟩, hentry⟩
  rw [h.start, hpieces, walk_concat_eq_ok_iff]
  refine ⟨directory, h.walk hwalk, step_eq_ok_iff.mpr ⟨h.directory _ hdirectory, ?_⟩⟩
  exact .inr (.inr ⟨name, Path.component?_of_isName hname, by rw [hentry]; rfl, rfl⟩)

theorem find_of_write (h : disk.write path content = .ok next) :
    next.find path = .ok (.file content disk.now (disk.access (disk.place path))) := by
  have hwrites := writes_of_write h
  obtain ⟨location, htarget, -⟩ := write_eq_ok_iff.mp h
  rw [← place_of_target htarget] at hwrites ⊢
  exact hwrites.grows.find_of_target htarget hwrites.file

/-- What replaces a file that may be read, or nothing at all, may be read. -/
theorem find_of_write_of_not_denies (h : disk.write path content = .ok next)
    (hopen : ¬disk.Denies path) : next.find path = .ok (.file content disk.now) := by
  obtain ⟨location, htarget, -⟩ := write_eq_ok_iff.mp h
  have haccess : disk.access location = true := by
    rw [← Bool.not_eq_false]
    intro hdenied
    obtain ⟨_, _, hentry⟩ := access_eq_false_iff.mp hdenied
    have hgrows : disk.Grows disk := ⟨rfl, fun _ => id, fun _ => id⟩
    exact hopen ⟨_, hgrows.find_of_target htarget hentry, rfl⟩
  rw [find_of_write h, ← place_of_target htarget, haccess]

theorem Writes.find (h : disk.Writes next location content) {entry : Entry}
    (hfind : disk.find path = .ok entry) (hne : disk.place path ≠ location) :
    next.find path = .ok entry := by
  obtain ⟨other, hlocate, hentry⟩ := find_eq_ok_iff.mp hfind
  refine find_eq_ok_iff.mpr ⟨other, h.grows.locate hlocate, ?_⟩
  rw [h.others other (eq_place_of_locate hlocate ▸ hne)]
  exact hentry

theorem Writes.find_directory (h : disk.Writes next location content) {about : Directory}
    (hfind : disk.find path = .ok (.directory about)) : next.find path = .ok (.directory about) := by
  refine h.find hfind fun hplace => h.free ⟨about, ?_⟩
  rw [← hplace]
  exact entry?_of_find hfind

theorem place_join {name : String} (h : Path.IsName name) :
    disk.place (path.join ⟨name⟩) = disk.place path ++ [name] := by
  rw [place, placeOf, Path.components_join path h, List.foldl_append]
  rfl

theorem mem_sampleNames_iff {name : String} :
    name ∈ disk.sampleNames location ↔
      (∃ content modified readable,
        disk.entry? (location ++ [name]) = some (.file content modified readable)) ∧
        (Path.cutAtDot name.toList).2 = some ['c', 's', 'v'] := by
  have hne : location ++ [name] ≠ [] := by simp
  rw [sampleNames, List.mem_filter, List.mem_mergeSort, List.mem_filterMap, Bool.and_eq_true,
    beq_iff_eq, Option.any_eq_true]
  constructor
  · rintro ⟨-, ⟨entry, hentry, hfile⟩, hcsv⟩
    cases entry with
    | directory about => cases hfile
    | file content modified readable => exact ⟨⟨content, modified, readable, hentry⟩, hcsv⟩
  · rintro ⟨⟨content, modified, readable, hentry⟩, hcsv⟩
    have hmem := mem_entries_of_entry?_eq_some hne hentry
    exact ⟨⟨_, hmem, nameIn?_eq_some_iff.mpr rfl⟩, ⟨_, hentry, rfl⟩, hcsv⟩

theorem pairwise_sampleNames (disk : Disk) (location : Location) :
    (disk.sampleNames location).Pairwise (· ≤ ·) := by
  apply List.Pairwise.filter
  have hle : (fun a b : String => !decide (b < a)) = fun a b => decide (a ≤ b) := by
    funext a b
    rw [← decide_not, decide_eq_decide]
    exact not_lt
  rw [hle]
  exact List.pairwise_mergeSort' _ _

theorem WellFormed.sampleNames_eq (hdisk : disk.WellFormed) (hnext : next.WellFormed)
    (h : ∀ name, name ∈ disk.sampleNames location ↔ name ∈ next.sampleNames location) :
    disk.sampleNames location = next.sampleNames location := by
  have hperm : (disk.sampleNames location).Perm (next.sampleNames location) := by
    rw [List.perm_ext_iff_of_nodup (hdisk.nodup_sampleNames _) (hnext.nodup_sampleNames _)]
    exact h
  exact hperm.eq_of_pairwise (fun _ _ _ _ => le_antisymm) (pairwise_sampleNames disk location)
    (pairwise_sampleNames next location)

theorem Writes.mem_sampleNames (h : disk.Writes next location content) {directory : Location}
    {name : String} (hname : name ∈ disk.sampleNames directory) :
    name ∈ next.sampleNames directory := by
  obtain ⟨hfile, hcsv⟩ := mem_sampleNames_iff.mp hname
  refine mem_sampleNames_iff.mpr ⟨?_, hcsv⟩
  by_cases heq : directory ++ [name] = location
  · rw [heq]
    exact ⟨content, disk.now, _, h.file⟩
  · rw [h.others _ heq]
    exact hfile

end Disk

namespace Experiment

variable {e : Experiment} {disk next : Disk} {location : Disk.Location} {content : Bytes}
  {directory path : Path} {inputs : List Path}

theorem sampleIn_iff (hdisk : disk.WellFormed) :
    SampleIn disk directory path ↔
      (∃ about, disk.find directory = .ok (.directory about) ∧ about.readable = true) ∧
        ∃ name ∈ disk.sampleNames (disk.place directory), path = directory.join ⟨name⟩ := by
  constructor
  · intro h
    obtain ⟨files, hfiles⟩ := exists_leafFiles_iff.mpr ⟨path, h⟩
    have hmem := (mem_leafFiles_iff hfiles).mpr h
    rw [leafFiles_eq hdisk hfiles] at hmem
    obtain ⟨name, hname, rfl⟩ := List.mem_map.mp hmem
    exact ⟨find_of_sampleIn h, name, hname, rfl⟩
  · rintro ⟨⟨about, hfind, hreadable⟩, name, hname, rfl⟩
    obtain ⟨place, hlocate, hdirectory⟩ := Disk.find_eq_ok_iff.mp hfind
    rw [← Disk.eq_place_of_locate hlocate] at hname
    obtain ⟨hlisted, hsample⟩ := List.mem_filter.mp hname
    refine ⟨_, name, Disk.list_eq_ok_iff.mpr ⟨place, about, hlocate, hdirectory, hreadable, rfl⟩,
      List.mem_mergeSort.mp hlisted, rfl, ?_⟩
    rw [isSampleFile_join hlocate ⟨about, hdirectory⟩ (hdisk.isName_of_mem_sampleNames hname)]
    exact hsample

theorem exists_sourceFiles_iff : (∃ inputs, e.sourceFiles disk = .ok inputs) ↔
    ∀ key ∈ e.keys, ∃ path, SampleIn disk (e.leafDirectory key) path := by
  constructor
  · rintro ⟨inputs, hinputs⟩ key hkey
    obtain ⟨files, hfiles, -⟩ := leafFiles_of_sourceFiles hinputs hkey
    exact exists_leafFiles_iff.mp ⟨files, hfiles⟩
  · intro h
    have hleaf : ∀ key ∈ e.keys, ∃ files, leafFiles disk (e.leafDirectory key) = .ok files :=
      fun key hkey => exists_leafFiles_iff.mpr (h key hkey)
    obtain ⟨groups, hgroups⟩ := exists_forall₂ hleaf
    exact ⟨groups.flatten, sourceFiles_eq_ok_iff.mpr ⟨groups, rfl, hgroups⟩⟩

theorem SampleIn.of_writes (hdisk : disk.WellFormed) (hnext : next.WellFormed)
    (hwrites : disk.Writes next location content) (h : SampleIn disk directory path) :
    SampleIn next directory path := by
  obtain ⟨⟨about, hfind, hreadable⟩, name, hname, heq⟩ := (sampleIn_iff hdisk).mp h
  refine (sampleIn_iff hnext).mpr ⟨⟨about, hwrites.find_directory hfind, hreadable⟩, name, ?_, heq⟩
  rw [hwrites.grows.place]
  exact hwrites.mem_sampleNames hname

theorem sourceFiles_of_writes (hdisk : disk.WellFormed) (hnext : next.WellFormed)
    (hwrites : disk.Writes next location content) (hinputs : e.sourceFiles disk = .ok inputs)
    (hapart : ∀ sources, e.sourceFiles next = .ok sources →
      ∀ source ∈ sources, disk.place source ≠ location) :
    e.sourceFiles next = .ok inputs := by
  obtain ⟨sources, hsources⟩ : ∃ sources, e.sourceFiles next = .ok sources := by
    rw [exists_sourceFiles_iff]
    intro key hkey
    obtain ⟨path, hpath⟩ := exists_sourceFiles_iff.mp ⟨inputs, hinputs⟩ key hkey
    exact ⟨path, hpath.of_writes hdisk hnext hwrites⟩
  obtain ⟨groups, rfl, hgroups⟩ := sourceFiles_eq_ok_iff.mp hinputs
  refine sourceFiles_eq_ok_iff.mpr ⟨groups, rfl, ?_⟩
  refine ((List.forall₂_and_left _ _).mpr ⟨fun key hkey => hkey, hgroups⟩).imp
    fun key files h => ?_
  obtain ⟨hkey, hfiles⟩ := h
  obtain ⟨files', hfiles', hsub⟩ := leafFiles_of_sourceFiles hsources hkey
  have hplaces := hwrites.grows.place (e.leafDirectory key)
  have hnames : disk.sampleNames (disk.place (e.leafDirectory key)) =
      next.sampleNames (disk.place (e.leafDirectory key)) := by
    refine hdisk.sampleNames_eq hnext fun name => ⟨hwrites.mem_sampleNames, fun hname => ?_⟩
    -- The name is that of a source, so what stands there was not written just now.
    have hsource : (e.leafDirectory key).join ⟨name⟩ ∈ sources := by
      apply hsub
      rw [leafFiles_eq hnext hfiles', hplaces]
      exact List.mem_map_of_mem hname
    have hplace := hapart sources hsources _ hsource
    rw [Disk.place_join (hnext.isName_of_mem_sampleNames hname)] at hplace
    rw [Disk.mem_sampleNames_iff, hwrites.others _ hplace] at hname
    exact Disk.mem_sampleNames_iff.mpr hname
  rw [hfiles', leafFiles_eq hnext hfiles', hplaces, ← hnames, ← leafFiles_eq hdisk hfiles]

theorem stampInputs_of_writes (hwrites : disk.Writes next location content)
    (hinputs : e.sourceFiles disk = .ok inputs)
    (hapart : ∀ source ∈ inputs, disk.place source ≠ location) {stamps : List InputStamp}
    (h : stampInputs disk inputs = .ok stamps) : stampInputs next inputs = .ok stamps := by
  have hfiles : ∀ source ∈ inputs, InputStamp.take next source = InputStamp.take disk source := by
    intro source hsource
    obtain ⟨content, modified, readable, hfind⟩ := file_of_mem_sourceFiles hinputs hsource
    rw [InputStamp.take_of_find hfind,
      InputStamp.take_of_find (hwrites.find hfind (hapart source hsource))]
  refine mapM_eq_ok_iff.mpr ?_
  refine ((List.forall₂_and_left _ _).mpr ⟨hfiles, mapM_eq_ok_iff.mp h⟩).imp fun _ _ h => ?_
  exact h.1.trans h.2

end Experiment
end CycleCount
