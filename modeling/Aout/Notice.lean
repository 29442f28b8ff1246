import Aout.Text.Numeral
/-!
Notices: what the linker and the commands tell the user besides their results.
-/

set_option autoImplicit false
set_option relaxedAutoImplicit false

namespace Aout

inductive Notice
  | settingsMissing (path : String)
  | entryUndefined (name : String)
  | linked (modules : Nat) (text data bss : UInt32) (entry : UInt16)
  | imageWritten (path : String)
  | strippedWritten (path : String)
  deriving DecidableEq

namespace Notice

def level : Notice → String
  | .entryUndefined _ => "WARN"
  | _ => "INFO"

def message : Notice → String
  | .settingsMissing path => path ++ " not found, using default config"
  | .entryUndefined name =>
    "entry symbol '" ++ name ++ "' not defined, entry point set to start of text"
  | .linked modules text data bss entry =>
    "linked " ++ Numeral.decimal modules ++ " modules: text=" ++ Numeral.decimal text.toNat ++
      " data=" ++ Numeral.decimal data.toNat ++ " bss=" ++ Numeral.decimal bss.toNat ++
      " entry=" ++ Numeral.prefixedHex 4 entry.toNat
  | .imageWritten path => "image written to " ++ path
  | .strippedWritten path => "stripped object written to " ++ path

/-- The notice as a line of the log. -/
def line (notice : Notice) : String :=
  notice.level ++ " " ++ notice.message

end Notice

end Aout
