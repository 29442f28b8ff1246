import Aout.Standard.Invocation
import Aout.Standard.Settings
/-!
The readers that the program is built with.
-/

set_option autoImplicit false
set_option relaxedAutoImplicit false

namespace Aout

def Readers.standard : Readers where
  arguments := Command.Invocation.parse
  settings := fun text ↦ (Settings.parse text).mapError (·.message)

end Aout
