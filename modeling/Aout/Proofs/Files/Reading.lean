import Aout.Files.Disk
import Aout.Files.Linking
import Aout.Proofs.Fallible
/-!
Reading from a disk. What the program reads is what the files hold (`Disk.HasObject`,
`Disk.HasSettings`), and a file that cannot be read is not replaced by anything but, where settings
are missing, by the defaults. So files are linked exactly if each of them holds an object and these
can be linked (`linkFiles_eq_ok_iff`).
-/

set_option autoImplicit false
set_option relaxedAutoImplicit false

namespace Aout

/-- The object in a file of the disk. -/
def Disk.HasObject (disk : Disk) (path : String) (object : Object) : Prop :=
  ∃ bytes, disk.read path = .ok bytes ∧ Object.decode bytes = .ok object

/-- The settings in a file of the disk, or the defaults if there is no such file. -/
inductive Disk.HasSettings (readDocument : String → Except String Settings) (disk : Disk)
    (path : String) : Settings → Prop
  | present {bytes : List UInt8} {settings : Settings} (hread : disk.read path = .ok bytes)
      (hdecode : Settings.decode readDocument bytes = .ok settings) :
      HasSettings readDocument disk path settings
  | absent (habsent : disk.isPresent path = false) : HasSettings readDocument disk path .default

variable {disk : Disk} {readDocument : String → Except String Settings}

/-! ### Objects -/

theorem Object.run_read (disk : Disk) (path : String) :
    Id.run (Object.read disk.files path) = match disk.read path with
      | .error fault => .error (.file fault)
      | .ok bytes => (Object.decode bytes).mapError .format := rfl

theorem Object.run_readAll_cons (disk : Disk) (path : String) (rest : List String) :
    Id.run (Object.readAll disk.files (path :: rest)) =
      match Id.run (Object.read disk.files path) with
      | .error fault => .error (path, fault)
      | .ok object => (Id.run (Object.readAll disk.files rest)).map (object :: ·) := rfl

theorem Object.read_eq_ok_iff {path : String} {object : Object} :
    Id.run (Object.read disk.files path) = .ok object ↔ disk.HasObject path object := by
  rw [run_read, Disk.HasObject]
  cases disk.read path with
  | error fault => simp
  | ok bytes =>
    simp only [Except.ok.injEq, exists_eq_left']
    exact Fallible.mapError_eq_ok_iff

theorem Object.readAll_eq_ok_iff {paths : List String} {objects : List Object} :
    Id.run (Object.readAll disk.files paths) = .ok objects ↔
      List.Forall₂ disk.HasObject paths objects := by
  induction paths generalizing objects with
  | nil =>
    have hreadAll : Id.run (Object.readAll disk.files []) = .ok [] := rfl
    rw [hreadAll, List.forall₂_nil_left_iff, Except.ok.injEq, eq_comm]
  | cons path rest ih =>
    rw [run_readAll_cons, List.forall₂_cons_left_iff]
    simp only [← read_eq_ok_iff, ← ih]
    cases Id.run (Object.read disk.files path) with
    | error fault => simp
    | ok object => simp [Fallible.map_eq_ok_iff, eq_comm (a := objects)]

/-! ### Settings -/

theorem Settings.run_load (disk : Disk) (path : String) :
    Id.run (Settings.load readDocument disk.files path) =
      if disk.isPresent path then
        match disk.read path with
        | .error fault => .error (.file fault)
        | .ok bytes => (Settings.decode readDocument bytes).map fun settings ↦ (settings, [])
      else .ok (.default, [.settingsMissing path]) := rfl

theorem Disk.isPresent_of_read {path : String} {bytes : List UInt8}
    (hread : disk.read path = .ok bytes) : disk.isPresent path := by
  rw [Disk.isPresent, hread]

theorem Settings.load_eq_ok_iff {path : String} {settings : Settings} :
    (∃ notices, Id.run (Settings.load readDocument disk.files path) = .ok (settings, notices)) ↔
      Disk.HasSettings readDocument disk path settings := by
  rw [run_load]
  constructor
  · rintro ⟨notices, hload⟩
    split at hload
    · split at hload
      · cases hload
      · rename_i bytes hread
        obtain ⟨found, hdecode, hfound⟩ := Fallible.map_eq_ok_iff.mp hload
        obtain ⟨rfl, -⟩ := Prod.mk.inj hfound
        exact .present hread hdecode
    · rename_i habsent
      cases hload
      exact .absent (Bool.eq_false_iff.mpr habsent)
  · rintro (⟨hread, hdecode⟩ | habsent)
    · rw [if_pos (Disk.isPresent_of_read hread), hread]
      exact ⟨[], Fallible.map_eq_ok_iff.mpr ⟨_, hdecode, rfl⟩⟩
    · rw [if_neg (Bool.eq_false_iff.mp habsent)]
      exact ⟨_, rfl⟩

/-! ### Linking -/

theorem run_linkFiles (disk : Disk) (paths : List String) (textBase : UInt16)
    (entrySymbol : String) :
    Id.run (linkFiles disk.files paths textBase entrySymbol) =
      match Id.run (Object.readAll disk.files paths) with
      | .error (_, fault) => .error (.read fault)
      | .ok objects => (link objects textBase entrySymbol).mapError .link := rfl

/-- Files are linked exactly if each of them holds an object, and these are linked in the order of
the files. -/
theorem linkFiles_eq_ok_iff {paths : List String} {textBase : UInt16} {entrySymbol : String}
    {linked : Object × List Notice} :
    Id.run (linkFiles disk.files paths textBase entrySymbol) = .ok linked ↔
      ∃ objects, List.Forall₂ disk.HasObject paths objects ∧
        link objects textBase entrySymbol = .ok linked := by
  simp only [← Object.readAll_eq_ok_iff, run_linkFiles]
  cases Id.run (Object.readAll disk.files paths) with
  | error failure => simp
  | ok objects =>
    simp only [Except.ok.injEq, exists_eq_left']
    exact Fallible.mapError_eq_ok_iff

end Aout
