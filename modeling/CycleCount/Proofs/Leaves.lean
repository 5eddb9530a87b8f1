import CycleCount.Proofs.Assembly
import CycleCount.Proofs.Disk

/-! The sample files of an experiment. The list of all files, one group after the
other, tells the groups apart: each lies in one directory, is not empty and names
no file twice. Experiments that read the same files into the same layout
therefore assemble the same data. -/

namespace CycleCount

namespace Disk

variable {disk : Disk}

def sampleNames (disk : Disk) (location : Location) : List String :=
  let names := disk.entries.filterMap fun (other, _) => nameIn? location other
  (names.mergeSort fun a b => !decide (b < a)).filter fun name =>
    (disk.entry? (location ++ [name])).any Entry.isFile &&
      (Path.cutAtDot name.toList).2 == some ['c', 's', 'v']

theorem nameIn?_eq_some_iff {directory location : Location} {name : String} :
    nameIn? directory location = some name ↔ location = directory ++ [name] := by
  unfold nameIn?
  split
  · rename_i last hlast
    constructor
    · intro h
      split_ifs at h with heq
      cases h
      exact heq
    · rintro rfl
      rw [List.getLast?_concat, Option.some.injEq] at hlast
      rw [hlast, if_pos rfl]
  · rename_i hlast
    rw [List.getLast?_eq_none_iff] at hlast
    simp [hlast]

theorem mem_locations_of_mem_sampleNames {location : Location} {name : String}
    (h : name ∈ disk.sampleNames location) : ∃ entry, (location ++ [name], entry) ∈ disk.entries := by
  have hmem := List.mem_mergeSort.mp (List.mem_of_mem_filter h)
  obtain ⟨⟨other, entry⟩, hentry, hname⟩ := List.mem_filterMap.mp hmem
  rw [nameIn?_eq_some_iff.mp hname] at hentry
  exact ⟨entry, hentry⟩

theorem WellFormed.isName_of_mem_sampleNames (h : disk.WellFormed) {location : Location}
    {name : String} (hname : name ∈ disk.sampleNames location) : Path.IsName name := by
  obtain ⟨entry, hentry⟩ := mem_locations_of_mem_sampleNames hname
  exact h.names _ hentry name (by simp)

theorem WellFormed.nodup_sampleNames (h : disk.WellFormed) (location : Location) :
    (disk.sampleNames location).Nodup := by
  refine List.Nodup.filter _ ((List.mergeSort_perm _ _).nodup_iff.mpr ?_)
  have hlocations : (disk.entries.filterMap fun (other, _) => nameIn? location other) =
      (disk.entries.map (·.1)).filterMap (nameIn? location) := by
    rw [List.filterMap_map]
    rfl
  rw [hlocations]
  refine h.locations.filterMap fun first second name hfirst hsecond => ?_
  rw [nameIn?_eq_some_iff.mp hfirst, nameIn?_eq_some_iff.mp hsecond]

theorem list_eq_ok_iff {path : Path} {names : List String} :
    disk.list path = .ok names ↔ ∃ location about, disk.locate path = .ok location ∧
      disk.entry? location = some (.directory about) ∧ about.readable = true ∧
        names = disk.entries.filterMap fun (other, _) => nameIn? location other := by
  unfold list
  simp only [bind_eq_ok_iff, exists_and_left]
  refine exists_congr fun location => and_congr_right fun _ => ?_
  split
  · rename_i about hentry
    rw [hentry]
    split_ifs with hreadable
    · simp only [Except.ok.injEq, Option.some.injEq, Entry.directory.injEq, exists_eq_left',
        hreadable, true_and]
      exact eq_comm
    · simp [hreadable]
  · rename_i hfile
    simp [hfile]
  · rename_i hnone
    simp [hnone]

end Disk

namespace Experiment

variable {e : Experiment} {disk : Disk}

theorem isSampleFile_join {path : Path} {location : Disk.Location}
    (hlocate : disk.locate path = .ok location) (hdirectory : disk.IsDirectory location)
    {name : String} (hname : Path.IsName name) :
    isSampleFile disk (path.join ⟨name⟩) =
      ((disk.entry? (location ++ [name])).any Disk.Entry.isFile &&
        (Path.cutAtDot name.toList).2 == some ['c', 's', 'v']) := by
  have hfind : (disk.find (path.join ⟨name⟩)).toOption = disk.entry? (location ++ [name]) := by
    cases hentry : disk.entry? (location ++ [name]) with
    | some entry => rw [(Disk.find_join hlocate hdirectory hname).mpr hentry]; rfl
    | none =>
      cases hfound : disk.find (path.join ⟨name⟩) with
      | error fault => rfl
      | ok entry =>
        rw [Disk.find_join hlocate hdirectory hname, hentry] at hfound
        cases hfound
  rw [isSampleFile, hfind, Path.extension?, Path.fileName?_join path hname, Option.bind_some]

theorem leafFiles_eq (h : disk.WellFormed) {directory : Path} {files : List Path}
    (hfiles : leafFiles disk directory = .ok files) :
    files = (disk.sampleNames (disk.place directory)).map (fun name => directory.join ⟨name⟩) := by
  obtain ⟨-, names, hlist, rfl⟩ := leafFiles_eq_ok_iff.mp hfiles
  obtain ⟨location, about, hlocate, hdirectory, -, rfl⟩ := Disk.list_eq_ok_iff.mp hlist
  rw [List.filter_map, ← Disk.eq_place_of_locate hlocate, Disk.sampleNames]
  congr 1
  refine List.filter_congr fun name hname => ?_
  obtain ⟨⟨other, entry⟩, hentry, hother⟩ :=
    List.mem_filterMap.mp (List.mem_mergeSort.mp hname)
  rw [Disk.nameIn?_eq_some_iff.mp hother] at hentry
  exact isSampleFile_join hlocate ⟨about, hdirectory⟩ (h.names _ hentry name (by simp))

theorem file_of_isSampleFile {path : Path} (h : isSampleFile disk path = true) :
    ∃ content modified readable, disk.find path = .ok (.file content modified readable) := by
  rw [isSampleFile, Bool.and_eq_true] at h
  cases hfind : disk.find path with
  | error fault =>
    rw [hfind] at h
    cases h.1
  | ok entry =>
    cases entry with
    | directory about =>
      rw [hfind] at h
      cases h.1
    | file content modified readable => exact ⟨content, modified, readable, rfl⟩

theorem file_of_mem_leafFiles {directory path : Path} {files : List Path}
    (hfiles : leafFiles disk directory = .ok files) (hpath : path ∈ files) :
    ∃ content modified readable, disk.find path = .ok (.file content modified readable) := by
  obtain ⟨-, names, -, rfl⟩ := leafFiles_eq_ok_iff.mp hfiles
  exact file_of_isSampleFile (List.mem_filter.mp hpath).2

theorem sourceFiles_eq_ok_iff {inputs : List Path} :
    e.sourceFiles disk = .ok inputs ↔ ∃ groups, inputs = groups.flatten ∧
      List.Forall₂ (fun key files => leafFiles disk (e.leafDirectory key) = .ok files) e.keys
        groups := by
  unfold sourceFiles
  simp only [bind_eq_ok_iff, mapM_eq_ok_iff, pure_eq_ok, Except.ok.injEq]
  exact exists_congr fun groups => by rw [and_comm, eq_comm]

theorem leaf_of_mem_sourceFiles {inputs : List Path} (h : e.sourceFiles disk = .ok inputs)
    {path : Path} (hpath : path ∈ inputs) :
    ∃ key ∈ e.keys, ∃ files, leafFiles disk (e.leafDirectory key) = .ok files ∧ path ∈ files := by
  obtain ⟨groups, rfl, hgroups⟩ := sourceFiles_eq_ok_iff.mp h
  obtain ⟨files, hfiles, hpath⟩ := List.mem_flatten.mp hpath
  obtain ⟨key, hkey, hleaf⟩ := exists_left_of_forall₂ hgroups hfiles
  exact ⟨key, hkey, files, hleaf, hpath⟩

theorem file_of_mem_sourceFiles {inputs : List Path} (h : e.sourceFiles disk = .ok inputs)
    {path : Path} (hpath : path ∈ inputs) :
    ∃ content modified readable, disk.find path = .ok (.file content modified readable) := by
  obtain ⟨key, -, files, hleaf, hpath⟩ := leaf_of_mem_sourceFiles h hpath
  exact file_of_mem_leafFiles hleaf hpath

theorem leafFiles_of_sourceFiles {inputs : List Path} (h : e.sourceFiles disk = .ok inputs)
    {key : Key} (hkey : key ∈ e.keys) :
    ∃ files, leafFiles disk (e.leafDirectory key) = .ok files ∧ files ⊆ inputs := by
  obtain ⟨groups, rfl, hgroups⟩ := sourceFiles_eq_ok_iff.mp h
  obtain ⟨files, hfiles, hleaf⟩ := exists_right_of_forall₂ hgroups hkey
  exact ⟨files, hleaf, fun _ hpath => List.mem_flatten.mpr ⟨files, hfiles, hpath⟩⟩

theorem components_sourceFiles (h : disk.WellFormed) {inputs : List Path}
    (hinputs : e.sourceFiles disk = .ok inputs) :
    inputs.map Path.components = e.keys.flatMap fun key =>
      (disk.sampleNames (disk.place (e.leafDirectory key))).map fun name =>
        (e.leafDirectory key).components ++ [.name name] := by
  obtain ⟨groups, rfl, hgroups⟩ := sourceFiles_eq_ok_iff.mp hinputs
  rw [List.map_flatten, List.flatMap]
  congr 1
  refine (map_eq_map_iff_forall₂.mpr (hgroups.imp fun key files hfiles => ?_)).symm
  rw [leafFiles_eq h hfiles, List.map_map]
  refine List.map_congr_left fun name hname => ?_
  exact (Path.components_join _ (h.isName_of_mem_sampleNames hname)).symm

theorem sampleNames_ne_nil (h : disk.WellFormed) {inputs : List Path}
    (hinputs : e.sourceFiles disk = .ok inputs) {key : Key} (hkey : key ∈ e.keys) :
    disk.sampleNames (disk.place (e.leafDirectory key)) ≠ [] := by
  obtain ⟨files, hfiles, -⟩ := leafFiles_of_sourceFiles hinputs hkey
  obtain ⟨hne, -⟩ := leafFiles_eq_ok_iff.mp hfiles
  rintro hnil
  rw [leafFiles_eq h hfiles, hnil] at hne
  exact hne rfl

end Experiment

section Groups

variable {α β : Type} {f g : α → List β}

/-- Where one list of groups goes on inside a group of the other, that group
would name its first member twice. -/
theorem overhang_eq_nil {a : α} {as : List α} {overhang rest : List (α × β)}
    (hne : ∀ b ∈ a :: as, f b ≠ []) (hnodup : (g a).Nodup)
    (hgroup : (g a).map (a, ·) = (f a).map (a, ·) ++ overhang)
    (hrest : as.flatMap (fun b => (f b).map (b, ·)) = overhang ++ rest) : overhang = [] := by
  cases overhang with
  | nil => rfl
  | cons first overhang =>
    cases as with
    | nil => cases hrest
    | cons b as =>
      obtain ⟨x, xs, hx⟩ := List.exists_cons_of_ne_nil (hne a (List.mem_cons_self ..))
      obtain ⟨y, ys, hy⟩ := List.exists_cons_of_ne_nil
        (hne b (List.mem_cons_of_mem a (List.mem_cons_self ..)))
      rw [List.flatMap_cons, hy, List.map_cons, List.cons_append, List.cons_append,
        List.cons.injEq] at hrest
      have hfirst : first ∈ (g a).map (a, ·) := by simp [hgroup]
      obtain ⟨z, -, hz⟩ := List.mem_map.mp hfirst
      obtain rfl : a = b := by
        rw [← hrest.1, Prod.mk.injEq] at hz
        exact hz.1
      rw [hx, List.cons.injEq] at hy
      have htwice : ((f a).map (a, ·) ++ first :: overhang).Nodup := by
        rw [← hgroup]
        exact hnodup.map fun _ _ h => (Prod.mk.inj h).2
      rw [List.nodup_append] at htwice
      refine absurd ?_ (htwice.2.2 (a, x) (by simp [hx]) first (List.mem_cons_self ..))
      rw [← hrest.1, hy.1]

/-- Groups that are not empty and name nothing twice can be told apart in the list
of all their members. -/
theorem groups_eq_of_flatMap_eq {as bs : List α} (hf : ∀ a ∈ as, f a ≠ [] ∧ (f a).Nodup)
    (hg : ∀ b ∈ bs, g b ≠ [] ∧ (g b).Nodup)
    (h : as.flatMap (fun a => (f a).map (a, ·)) = bs.flatMap (fun b => (g b).map (b, ·))) :
    as = bs ∧ ∀ a ∈ as, f a = g a := by
  induction as generalizing bs with
  | nil =>
    cases bs with
    | nil => simp
    | cons b bs =>
      have hne := (hg b (List.mem_cons_self ..)).1
      simp only [List.flatMap_nil, List.flatMap_cons] at h
      have hnil := (List.append_eq_nil_iff.mp h.symm).1
      exact absurd (List.map_eq_nil_iff.mp hnil) hne
  | cons a as ih =>
    cases bs with
    | nil =>
      have hne := (hf a (List.mem_cons_self ..)).1
      simp only [List.flatMap_nil, List.flatMap_cons] at h
      have hnil := (List.append_eq_nil_iff.mp h).1
      exact absurd (List.map_eq_nil_iff.mp hnil) hne
    | cons b bs =>
      obtain ⟨hfa, hfaNodup⟩ := hf a (List.mem_cons_self ..)
      obtain ⟨hgb, hgbNodup⟩ := hg b (List.mem_cons_self ..)
      rw [List.flatMap_cons, List.flatMap_cons] at h
      obtain rfl : a = b := by
        obtain ⟨x, xs, hx⟩ := List.exists_cons_of_ne_nil hfa
        obtain ⟨y, ys, hy⟩ := List.exists_cons_of_ne_nil hgb
        rw [hx, hy, List.map_cons, List.map_cons, List.cons_append, List.cons_append,
          List.cons.injEq, Prod.mk.injEq] at h
        exact h.1.1
      -- The first groups start alike; were one of them longer, the next group of the
      -- other side would repeat a member of it.
      have hsplit : (f a).map (a, ·) = (g a).map (a, ·) ∧
          as.flatMap (fun a => (f a).map (a, ·)) = bs.flatMap (fun b => (g b).map (b, ·)) := by
        rcases List.append_eq_append_iff.mp h with ⟨overhang, hgroup, hrest⟩ | ⟨overhang, hgroup, hrest⟩
        · obtain rfl := overhang_eq_nil (fun b hb => (hf b hb).1) hgbNodup hgroup hrest
          exact ⟨by simpa using hgroup.symm, hrest⟩
        · obtain rfl := overhang_eq_nil (fun b hb => (hg b hb).1) hfaNodup hgroup hrest
          exact ⟨by simpa using hgroup, hrest.symm⟩
      have hgroup : f a = g a := (List.map_injective_iff.mpr (Prod.mk_right_injective a)) hsplit.1
      obtain ⟨rfl, hrest⟩ := ih (fun b hb => hf b (List.mem_cons_of_mem a hb))
        (fun b hb => hg b (List.mem_cons_of_mem a hb)) hsplit.2
      refine ⟨rfl, fun b hb => ?_⟩
      rcases List.mem_cons.mp hb with rfl | hb
      · exact hgroup
      · exact hrest b hb

end Groups

end CycleCount
