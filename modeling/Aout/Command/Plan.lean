import Aout.Command.Invocation
import Aout.Files.Reading
import Aout.Linking.Image
import Aout.Object.Stripping
/-!
Plans: what an invocation comes to, given the files. All that can go wrong before anything is
printed or written goes wrong here, so a command does one deed at most, and that one last.
-/

set_option autoImplicit false
set_option relaxedAutoImplicit false

namespace Aout.Command

/-- Why a command does not do what it is asked to. -/
inductive Failure
  | settings (path : String) (fault : Settings.LoadFault)
  | input (path : String) (fault : Object.ReadFault)
  | link (fault : LinkFault)
  | strip (path : String) (fault : LinkFault)
  | output (path : String) (fault : FileFault)
  deriving DecidableEq

def Failure.message : Failure → String
  | .settings path fault => "failed to load " ++ path ++ ": " ++ fault.message
  | .input path fault => "failed to read " ++ path ++ ": " ++ fault.message
  | .link fault => fault.message
  | .strip path fault => "cannot strip " ++ path ++ ": " ++ fault.message
  | .output path fault => "failed to write " ++ path ++ ": " ++ fault.message

/-- What a command does in the end: print a text, or write a file and tell so. -/
inductive Deed
  | print (text : String)
  | save (path : String) (bytes : List UInt8) (notice : Notice)
  deriving DecidableEq

/-- What there is to tell, and then the deed or the failure. -/
structure Plan where
  notices : List Notice
  outcome : Except Failure Deed

variable {m : Type → Type} [Monad m]

namespace Invocation

def planLink (readers : Readers) (files : Files m) (inputs : List String)
    (output? : Option String) (base? : Option UInt16) (settingsPath : String) : m Plan := do
  match ← Settings.load readers.settings files settingsPath with
  | .error fault => return ⟨[], .error (.settings settingsPath fault)⟩
  | .ok (settings, notices) =>
    match ← Object.readAll files inputs with
    | .error (path, fault) => return ⟨notices, .error (.input path fault)⟩
    | .ok objects =>
      match Aout.link objects (base?.getD settings.baseAddress) settings.entrySymbol with
      | .error fault => return ⟨notices, .error (.link fault)⟩
      | .ok (image, more) =>
        let path := output?.getD settings.output
        return ⟨notices ++ more, .ok (.save path image.encode (.imageWritten path))⟩

def planReport (files : Files m) (input : String) (selection : Report.Selection) : m Plan := do
  match ← Object.read files input with
  | .error fault => return ⟨[], .error (.input input fault)⟩
  | .ok object => return ⟨[], .ok (.print (Aout.report object selection))⟩

def planStrip (readers : Readers) (files : Files m) (input : String) (relocationsToo : Bool)
    (output? : Option String) (settingsPath : String) : m Plan := do
  match ← Settings.load readers.settings files settingsPath with
  | .error fault => return ⟨[], .error (.settings settingsPath fault)⟩
  | .ok (settings, notices) =>
    match ← Object.read files input with
    | .error fault => return ⟨notices, .error (.input input fault)⟩
    | .ok object =>
      match (object.strip relocationsToo).result with
      | .error fault => return ⟨notices, .error (.strip input fault)⟩
      | .ok stripped =>
        let path := output?.getD settings.output
        return ⟨notices, .ok (.save path stripped.encode (.strippedWritten path))⟩

def plan (readers : Readers) (files : Files m) : Invocation → m Plan
  | .link inputs output? base? settingsPath =>
    planLink readers files inputs output? base? settingsPath
  | .report input selection all => planReport files input (if all then .all else selection)
  | .strip input all relocations output? settingsPath =>
    planStrip readers files input (all || relocations) output? settingsPath

end Invocation

end Aout.Command
