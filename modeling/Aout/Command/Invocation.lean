import Aout.Report
import Aout.Settings
/-!
Invocations: what the user asks for. The program depends on two readers, one of command lines and
one of settings documents (`Readers`), and on nothing but what these give.
-/

set_option autoImplicit false
set_option relaxedAutoImplicit false

namespace Aout

namespace Command

/-- A command with its options. A report shows all sections if `all` is given, and stripping drops
the relocation records if either flag is. -/
inductive Invocation
  | link (inputs : List String) (output? : Option String) (base? : Option UInt16)
      (settings : String)
  | report (input : String) (selection : Report.Selection) (all : Bool)
  | strip (input : String) (all relocations : Bool) (output? : Option String) (settings : String)
  deriving DecidableEq

/-- The settings file that is read if none is named. -/
def Invocation.defaultSettings : String := "config.yml"

/-- Why there is nothing to carry out: the arguments are wrong, or they ask how to use the program.
-/
inductive Refusal
  | misuse
  | help
  deriving DecidableEq

end Command

/-- How the program reads a command line and a settings document. A document that cannot be read is
refused with a description of what is wrong. -/
structure Readers where
  arguments : List String → Except Command.Refusal Command.Invocation
  settings : String → Except String Settings

end Aout
