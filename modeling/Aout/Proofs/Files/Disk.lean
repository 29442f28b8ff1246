import Mathlib.Data.List.Infix
import Aout.Files.Disk
import Aout.Proofs.Fallible
/-!
What a write does to a disk. A path leads to one location (`Disk.locate`), from which a read takes
the bytes and to which a write puts them. The location of a file stands in a directory, so putting a
file there makes no directory and removes none (`Disk.isDirectory_put`); and as it is no directory
itself, every path leads where it led before. So a write changes one file and nothing else
(`Disk.rewritten_of_write`).
-/

set_option autoImplicit false
set_option relaxedAutoImplicit false

namespace Aout.Disk

variable {disk written : Disk} {path name : String} {bytes : List UInt8}
  {directory location other : Location}

/-- The location that a path leads to, be there a file or not. -/
def locate (disk : Disk) (path : String) : Except FileFault Location :=
  match FileFault.ofPath? path with
  | some fault => .error fault
  | none => do
    let steps := steps path
    let directory ← disk.enter (disk.origin steps) steps.dropLast
    step directory (steps.getLast?.getD "")

/-- A disk on which a file was written, over the one at the location of its path if there was one.
-/
structure Rewritten (disk : Disk) (path : String) (bytes : List UInt8) (written : Disk) :
    Prop where
  contents? : ∃ location, disk.locate path = .ok location ∧
    written.contents? location = some bytes ∧
    ∀ other, other ≠ location → written.contents? other = disk.contents? other
  isDirectory : ∀ location, written.isDirectory location = disk.isDirectory location
  workingDirectory : written.workingDirectory = disk.workingDirectory
  read : written.read path = .ok bytes
  read_of_ne : ∀ other, disk.locate other ≠ disk.locate path → ∀ found,
    written.read other = .ok found ↔ disk.read other = .ok found

/-! ### Directories -/

theorem isDirectory_iff : disk.isDirectory location ↔ location <+: disk.workingDirectory ∨
    ∃ entry ∈ disk.entries, location <+: entry.1 ∧ location.length < entry.1.length := by
  simp [isDirectory]

theorem isDirectory_of_above (hdirectory : disk.isDirectory directory)
    (habove : other <+: directory) : disk.isDirectory other := by
  rw [isDirectory_iff] at hdirectory ⊢
  rcases hdirectory with hworking | ⟨entry, hentry, hleads, hlength⟩
  · exact .inl (habove.trans hworking)
  · exact .inr ⟨entry, hentry, habove.trans hleads, Nat.lt_of_le_of_lt habove.length_le hlength⟩

theorem isDirectory_origin (disk : Disk) (names : List String) :
    disk.isDirectory (disk.origin names) := by
  rw [isDirectory_iff]
  unfold origin
  split
  · exact .inl List.nil_prefix
  · exact .inl (List.prefix_refl _)

/-- A file in a directory takes no part in what is a directory. -/
theorem isDirectory_put (hdirectory : disk.isDirectory directory) (name : String)
    (bytes : List UInt8) (other : Location) :
    (disk.put (directory ++ [name]) bytes).isDirectory other = disk.isDirectory other := by
  rw [Bool.eq_iff_iff]
  constructor
  · intro hother
    rw [isDirectory_iff] at hother
    rcases hother with hworking | ⟨entry, hentry, hleads, hlength⟩
    · exact isDirectory_iff.mpr (.inl hworking)
    · rcases List.mem_cons.mp hentry with rfl | hold
      · rcases List.prefix_concat_iff.mp hleads with rfl | habove
        · exact absurd hlength (Nat.lt_irrefl _)
        · exact isDirectory_of_above hdirectory habove
      · exact isDirectory_iff.mpr (.inr ⟨entry, List.mem_of_mem_filter hold, hleads, hlength⟩)
  · intro hother
    rw [isDirectory_iff] at hother ⊢
    refine hother.imp id ?_
    rintro ⟨entry, hentry, hleads, hlength⟩
    by_cases hsame : entry.1 = directory ++ [name]
    · rw [hsame] at hleads hlength
      exact ⟨_, List.mem_cons_self, hleads, hlength⟩
    · exact ⟨entry, List.mem_cons_of_mem _ (List.mem_filter.mpr ⟨hentry, by simpa using hsame⟩),
        hleads, hlength⟩

/-! ### Paths -/

/-- A step stays in the directory or leads out of it, or it names something in the directory. -/
theorem step_eq_ok (hstep : step directory name = .ok location) :
    location <+: directory ∨ location = directory ++ [name] := by
  unfold step at hstep
  split at hstep
  · obtain rfl := Except.ok.inj hstep
    exact .inl (List.prefix_refl _)
  · split at hstep
    · obtain rfl := Except.ok.inj hstep
      exact .inl (List.dropLast_prefix _)
    · split at hstep
      · cases hstep
      · exact .inr (Except.ok.inj hstep).symm

theorem enter_cons_eq_ok_iff {names : List String} :
    disk.enter directory (name :: names) = .ok location ↔
      ∃ next, step directory name = .ok next ∧ disk.isDirectory next ∧
        disk.enter next names = .ok location := by
  rw [enter, Fallible.bind_eq_ok_iff]
  refine exists_congr fun next ↦ and_congr_right fun _ ↦ ?_
  split
  · rename_i hnext
    simp [hnext]
  · rename_i hnext
    split <;> simp [hnext]

theorem isDirectory_of_enter {names : List String} (hdirectory : disk.isDirectory directory)
    (henter : disk.enter directory names = .ok location) : disk.isDirectory location := by
  induction names generalizing directory with
  | nil =>
    obtain rfl := Except.ok.inj henter
    exact hdirectory
  | cons name rest ih =>
    obtain ⟨next, -, hnext, hrest⟩ := enter_cons_eq_ok_iff.mp henter
    exact ih hnext hrest

theorem locate_eq_ok_iff : disk.locate path = .ok location ↔ FileFault.ofPath? path = none ∧
    ∃ directory, disk.enter (disk.origin (steps path)) (steps path).dropLast = .ok directory ∧
      step directory ((steps path).getLast?.getD "") = .ok location := by
  unfold locate
  cases FileFault.ofPath? path with
  | some fault => simp
  | none => simp only [Fallible.bind_eq_ok_iff, true_and]

/-- What is no directory stands in one. -/
theorem exists_directory_of_locate (hlocate : disk.locate path = .ok location)
    (hfile : disk.isDirectory location = false) :
    ∃ directory name, disk.isDirectory directory ∧ location = directory ++ [name] := by
  obtain ⟨-, directory, henter, hstep⟩ := locate_eq_ok_iff.mp hlocate
  have hdirectory := isDirectory_of_enter (isDirectory_origin disk _) henter
  rcases step_eq_ok hstep with habove | rfl
  · rw [isDirectory_of_above hdirectory habove] at hfile
    cases hfile
  · exact ⟨directory, _, hdirectory, rfl⟩

/-- On two disks with the same directories paths lead to the same locations. -/
theorem locate_congr (hdirectories : ∀ other, written.isDirectory other = disk.isDirectory other)
    (hworking : written.workingDirectory = disk.workingDirectory) (path : String) :
    written.locate path = .ok location ↔ disk.locate path = .ok location := by
  have henter (directory goal : Location) (names : List String) :
      written.enter directory names = .ok goal ↔ disk.enter directory names = .ok goal := by
    induction names generalizing directory with
    | nil => exact Iff.rfl
    | cons name rest ih => simp only [enter_cons_eq_ok_iff, hdirectories, ih]
  have horigin (names : List String) : written.origin names = disk.origin names := by
    unfold origin
    rw [hworking]
  simp only [locate_eq_ok_iff, henter, horigin]

/-! ### Reading and writing -/

theorem read_eq_ok_iff : disk.read path = .ok bytes ↔ ∃ location,
    disk.locate path = .ok location ∧ disk.isDirectory location = false ∧
      disk.contents? location = some bytes := by
  unfold read locate
  cases FileFault.ofPath? path with
  | some fault => simp
  | none =>
    simp only [Fallible.bind_eq_ok_iff]
    constructor
    · rintro ⟨directory, henter, location, hstep, hread⟩
      split at hread
      · cases hread
      · rename_i hfile
        split at hread
        · rename_i hcontents
          obtain rfl := Except.ok.inj hread
          exact ⟨location, ⟨directory, henter, hstep⟩, Bool.eq_false_iff.mpr hfile, hcontents⟩
        · cases hread
    · rintro ⟨location, ⟨directory, henter, hstep⟩, hfile, hcontents⟩
      refine ⟨directory, henter, location, hstep, ?_⟩
      rw [if_neg (Bool.eq_false_iff.mp hfile), hcontents]

/-- A write puts the file where its path leads. -/
theorem write_eq_ok (hwrite : disk.write path bytes = .ok written) : ∃ location,
    disk.locate path = .ok location ∧ disk.isDirectory location = false ∧
      written = disk.put location bytes := by
  unfold write at hwrite
  unfold locate
  cases hpath : FileFault.ofPath? path with
  | some fault =>
    rw [hpath] at hwrite
    cases hwrite
  | none =>
    rw [hpath] at hwrite
    obtain ⟨directory, henter, hwrite⟩ := Fallible.bind_eq_ok_iff.mp hwrite
    split at hwrite
    · cases hwrite
    rename_i hlength
    -- No slash at the end was left out, so these are the steps of a read.
    have hnamed : ((steps path).reverse.dropWhile (· == "")).reverse = steps path := by
      have hsuffix := List.dropWhile_suffix (l := (steps path).reverse) (· == "")
      rw [hsuffix.eq_of_length, List.reverse_reverse]
      have hle := hsuffix.length_le
      rw [List.length_reverse] at hlength hle ⊢
      omega
    rw [hnamed] at henter hwrite
    obtain ⟨location, hstep, hput⟩ := Fallible.bind_eq_ok_iff.mp hwrite
    split at hput
    · cases hput
    rename_i hfile
    exact ⟨location, Fallible.bind_eq_ok_iff.mpr ⟨directory, henter, hstep⟩,
      Bool.eq_false_iff.mpr hfile, (Except.ok.inj hput).symm⟩

/-- A write changes the file that its path leads to, and nothing else. -/
theorem rewritten_of_write (hwrite : disk.write path bytes = .ok written) :
    Rewritten disk path bytes written := by
  obtain ⟨location, hlocate, hfile, rfl⟩ := write_eq_ok hwrite
  obtain ⟨directory, name, hdirectory, rfl⟩ := exists_directory_of_locate hlocate hfile
  have hdirectories := isDirectory_put hdirectory name bytes
  have hlocates (path : String) (location : Location) :
      (disk.put (directory ++ [name]) bytes).locate path = .ok location ↔
        disk.locate path = .ok location := locate_congr hdirectories rfl path
  refine ⟨⟨_, hlocate, contents?_put disk _ bytes, fun other ↦ contents?_put_of_ne⟩, hdirectories,
    rfl, ?_, fun other hother found ↦ ?_⟩
  · exact read_eq_ok_iff.mpr ⟨_, (hlocates path _).mpr hlocate, by rw [hdirectories, hfile],
      contents?_put disk _ bytes⟩
  · rw [read_eq_ok_iff, read_eq_ok_iff]
    refine exists_congr fun goal ↦ ?_
    rw [hlocates other goal, hdirectories]
    refine and_congr_right fun hgoal ↦ ?_
    have hne : goal ≠ directory ++ [name] := by
      rintro rfl
      exact hother (hgoal.trans hlocate.symm)
    rw [contents?_put_of_ne hne]

end Aout.Disk
