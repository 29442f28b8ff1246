import Aout.Files.Reading
import Aout.Linking.Image
/-!
Linking files.
-/

set_option autoImplicit false
set_option relaxedAutoImplicit false

namespace Aout

variable {m : Type → Type} [Monad m]

/-- Why files cannot be linked. -/
inductive LinkFilesFault
  | read (fault : Object.ReadFault)
  | link (fault : LinkFault)
  deriving DecidableEq

/-- Read every file, and then link the objects in the given order. -/
def linkFiles (files : Files m) (paths : List String) (textBase : UInt16) (entrySymbol : String) :
    m (Except LinkFilesFault (Object × List Notice)) := do
  match ← Object.readAll files paths with
  | .error (_, fault) => return .error (.read fault)
  | .ok objects => return (link objects textBase entrySymbol).mapError .link

end Aout
