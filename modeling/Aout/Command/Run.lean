import Aout.Command.Plan
import Aout.Files.Disk
/-!
Runs of the program on a disk. A run plans its deed on the disk as it finds it, and then does it.
-/

set_option autoImplicit false
set_option relaxedAutoImplicit false

namespace Aout.Command

/-- How a run ends. -/
inductive Ending
  | done
  | refused (refusal : Refusal)
  | failed (failure : Failure)
  deriving DecidableEq

def Ending.exitCode : Ending → Nat
  | .done => 0
  | .refused .help => 0
  | .refused .misuse => 2
  | .failed _ => 1

/-- What a run leaves behind. -/
structure Run where
  disk : Disk
  printed : String
  notices : List Notice
  ending : Ending
  deriving DecidableEq

/-- Carry out a plan. -/
def Plan.carryOut (plan : Plan) (disk : Disk) : Run :=
  match plan.outcome with
  | .error failure => ⟨disk, "", plan.notices, .failed failure⟩
  | .ok (.print text) => ⟨disk, text, plan.notices, .done⟩
  | .ok (.save path bytes notice) =>
    match disk.write path bytes with
    | .error fault => ⟨disk, "", plan.notices, .failed (.output path fault)⟩
    | .ok written => ⟨written, "", plan.notices ++ [notice], .done⟩

def run (readers : Readers) (disk : Disk) (arguments : List String) : Run :=
  match readers.arguments arguments with
  | .error refusal => ⟨disk, "", [], .refused refusal⟩
  | .ok invocation => (Id.run (invocation.plan readers disk.files)).carryOut disk

end Aout.Command
