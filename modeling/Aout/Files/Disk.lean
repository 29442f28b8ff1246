import Aout.Files
/-!
A disk as a value: files, each at a location, which is the list of names that lead to it from the
root, and the working directory. The directories are those that lead to a file or to the working
directory. A path is a text that names a location, step by step, from the root if a slash comes
first and from the working directory otherwise; every step but the last has to be a directory.
-/

set_option autoImplicit false
set_option relaxedAutoImplicit false

namespace Aout

abbrev Location := List String

structure Disk where
  entries : List (Location × List UInt8)
  workingDirectory : Location
  deriving DecidableEq

namespace Disk

def contents? (disk : Disk) (location : Location) : Option (List UInt8) :=
  disk.entries.lookup location

def isDirectory (disk : Disk) (location : Location) : Bool :=
  location.isPrefixOf disk.workingDirectory || disk.entries.any fun entry ↦
    location.isPrefixOf entry.1 && location.length < entry.1.length

/-- The steps of a path, which slashes separate. -/
def splitSteps : List Char → List (List Char)
  | [] => [[]]
  | character :: rest =>
    let steps := splitSteps rest
    if character = '/' then [] :: steps
    else (character :: steps.headD []) :: steps.tail

def steps (path : String) : List String :=
  (splitSteps path.toList).map String.ofList

/-- How many bytes a name may have. -/
def nameLimit : Nat := 255

/-- The location that a step leads to in a directory. -/
def step (directory : Location) (name : String) : Except FileFault Location :=
  if name = "" ∨ name = "." then .ok directory
  else if name = ".." then .ok directory.dropLast
  else if nameLimit < name.utf8ByteSize then .error .nameTooLong
  else .ok (directory ++ [name])

/-- The directory that steps lead to, from a directory. -/
def enter (disk : Disk) : (directory : Location) → List String → Except FileFault Location
  | directory, [] => .ok directory
  | directory, name :: rest => do
    let next ← step directory name
    if disk.isDirectory next then disk.enter next rest
    else if (disk.contents? next).isSome then .error .notDirectory
    else .error .missing

/-- The directory that steps start in. -/
def origin (disk : Disk) : List String → Location
  | "" :: _ => []
  | _ => disk.workingDirectory

def read (disk : Disk) (path : String) : Except FileFault (List UInt8) :=
  match FileFault.ofPath? path with
  | some fault => .error fault
  | none => do
    let steps := steps path
    let directory ← disk.enter (disk.origin steps) steps.dropLast
    let location ← step directory (steps.getLast?.getD "")
    if disk.isDirectory location then .error .isDirectory
    else match disk.contents? location with
      | some bytes => .ok bytes
      | none => .error .missing

def isPresent (disk : Disk) (path : String) : Bool :=
  match disk.read path with
  | .ok _ => true
  | .error fault => fault = .isDirectory

/-- Put a file at a location, in place of the one that is there. -/
def put (disk : Disk) (location : Location) (bytes : List UInt8) : Disk :=
  { disk with entries := (location, bytes) :: disk.entries.filter (·.1 != location) }

@[simp] theorem contents?_put (disk : Disk) (location : Location) (bytes : List UInt8) :
    (disk.put location bytes).contents? location = some bytes := by
  simp [put, contents?]

/-- Putting a file somewhere leaves all other files as they are. -/
theorem contents?_put_of_ne {disk : Disk} {location other : Location} {bytes : List UInt8}
    (hother : other ≠ location) :
    (disk.put location bytes).contents? other = disk.contents? other := by
  have hrest : ∀ entries : List (Location × List UInt8),
      (entries.filter (·.1 != location)).lookup other = entries.lookup other := by
    intro entries
    induction entries with
    | nil => rfl
    | cons entry rest ih =>
      by_cases hentry : entry.1 = location
      · have hmiss : (other == entry.1) = false := by simpa [hentry] using hother
        rw [List.filter_cons_of_neg (by simp [hentry]), ih, List.lookup_cons, hmiss]
      · rw [List.filter_cons_of_pos (by simp [hentry]), List.lookup_cons, List.lookup_cons, ih]
  have hfirst : (other == location) = false := by simpa using hother
  rw [contents?, put, List.lookup_cons, hfirst]
  exact hrest disk.entries

/-- Write a file. A path with a slash at its end names no file. -/
def write (disk : Disk) (path : String) (bytes : List UInt8) : Except FileFault Disk :=
  match FileFault.ofPath? path with
  | some fault => .error fault
  | none => do
    let steps := steps path
    let named := (steps.reverse.dropWhile (· == "")).reverse
    let directory ← disk.enter (disk.origin steps) named.dropLast
    if named.length < steps.length then .error .isDirectory
    else
      let location ← step directory (named.getLast?.getD "")
      if disk.isDirectory location then .error .isDirectory
      else return disk.put location bytes

/-- The disk as the files that a command sees. -/
def files (disk : Disk) : Files Id where
  isPresent := disk.isPresent
  read := disk.read

end Disk

end Aout
