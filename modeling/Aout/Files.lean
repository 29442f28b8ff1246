/-!
Files, as the commands see them. A command only ever asks whether a path is present and what a file
holds; `Files` answers in some monad, which is the identity for a disk that is a value.
-/

set_option autoImplicit false
set_option relaxedAutoImplicit false

namespace Aout

/-- Why a file cannot be read or written. -/
inductive FileFault
  | nulInPath
  | missing
  | isDirectory
  | notDirectory
  | nameTooLong
  | other (description : String)
  deriving DecidableEq

namespace FileFault

def message : FileFault → String
  | .nulInPath => "file name contained an unexpected NUL byte"
  | .missing => "No such file or directory (os error 2)"
  | .isDirectory => "Is a directory (os error 21)"
  | .notDirectory => "Not a directory (os error 20)"
  | .nameTooLong => "File name too long (os error 36)"
  | .other description => description

/-- How many bytes a path may have. -/
def pathLimit : Nat := 4095

/-- What is wrong with a path that leads to no file, whatever files there are. -/
def ofPath? (path : String) : Option FileFault :=
  if '\x00' ∈ path.toList then some .nulInPath
  else if path = "" then some .missing
  else if pathLimit < path.utf8ByteSize then some .nameTooLong
  else none

end FileFault

structure Files (m : Type → Type) where
  isPresent : (path : String) → m Bool
  read : (path : String) → m (Except FileFault (List UInt8))

end Aout
