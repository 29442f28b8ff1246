/-!
Settings of the tools: the address where an image's text starts, the symbol where it is entered, and
the file that it is written to.
-/

set_option autoImplicit false
set_option relaxedAutoImplicit false

namespace Aout

structure Settings where
  baseAddress : UInt16
  entrySymbol : String
  output : String
  deriving DecidableEq

def Settings.default : Settings := ⟨0, "main", "a.out"⟩

end Aout
