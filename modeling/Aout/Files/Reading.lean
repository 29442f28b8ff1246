import Aout.Files
import Aout.Notice
import Aout.Object.File
import Aout.Settings
import Aout.Text.Utf8
/-!
Objects and settings from files. A settings file that is missing stands for the defaults.
-/

set_option autoImplicit false
set_option relaxedAutoImplicit false

namespace Aout

variable {m : Type → Type} [Monad m]

namespace Object

/-- Why no object can be had from a file. -/
inductive ReadFault
  | file (fault : FileFault)
  | format (fault : FormatFault)
  deriving DecidableEq

def ReadFault.message : ReadFault → String
  | .file fault => fault.message
  | .format fault => fault.message

/-- The object in a file. -/
def read (files : Files m) (path : String) : m (Except ReadFault Object) := do
  return match ← files.read path with
    | .error fault => .error (.file fault)
    | .ok bytes => (decode bytes).mapError .format

/-- The objects in files, or else the first file that has none. -/
def readAll (files : Files m) : List String → m (Except (String × ReadFault) (List Object))
  | [] => return .ok []
  | path :: paths => do
    match ← read files path with
    | .error fault => return .error (path, fault)
    | .ok object =>
      return (← readAll files paths).map (object :: ·)

end Object

namespace Settings

/-- Why no settings can be had from a file. -/
inductive LoadFault
  | file (fault : FileFault)
  | undecodable
  | document (description : String)
  deriving DecidableEq

def LoadFault.message : LoadFault → String
  | .file fault => fault.message
  | .undecodable => "stream did not contain valid UTF-8"
  | .document description => "invalid configuration: " ++ description

/-- The settings that the bytes of a file give, by way of a reader of documents. -/
def decode (readDocument : String → Except String Settings) (bytes : List UInt8) :
    Except LoadFault Settings :=
  match Utf8.decode? bytes with
  | none => .error .undecodable
  | some text => (readDocument text).mapError .document

/-- The settings in a file, with a notice if they are the defaults because there is no such file. -/
def load (readDocument : String → Except String Settings) (files : Files m) (path : String) :
    m (Except LoadFault (Settings × List Notice)) := do
  if ← files.isPresent path then
    return match ← files.read path with
      | .error fault => .error (.file fault)
      | .ok bytes => (decode readDocument bytes).map fun settings ↦ (settings, [])
  else return .ok (default, [.settingsMissing path])

end Settings

end Aout
