import Aout.Command.Run
import Aout.Standard
/-!
The program. Plans are made over the real files; notices and failures go to the error stream.
-/

set_option autoImplicit false
set_option relaxedAutoImplicit false

namespace Aout.Program

open Command

/-- What is wrong with a file. Some calls of the system negate the number of an error. -/
def fileFault : IO.Error → FileFault
  | .noFileOrDirectory .. => .missing
  | .inappropriateType _ code _ =>
    if min code (0 - code) = 21 then .isDirectory else .notDirectory
  | .permissionDenied _ code details | .resourceExhausted _ code details
  | .invalidArgument _ code details =>
    .other (details ++ " (os error " ++ Numeral.decimal (min code (0 - code)).toNat ++ ")")
  | error => .other (toString error)

/-- The files of the system. A file that cannot be opened is present unless its path leads nowhere.
-/
def systemFiles : Files IO where
  isPresent path := do
    if (FileFault.ofPath? path).isSome then return false
    match ← (IO.FS.Handle.mk path .read).toBaseIO with
    | .ok _ => return true
    | .error (.noFileOrDirectory ..) | .error (.inappropriateType ..)
    | .error (.invalidArgument ..) => return false
    | .error _ => return true
  read path := do
    if let some fault := FileFault.ofPath? path then return .error fault
    match ← (IO.FS.readBinFile path).toBaseIO with
    | .ok bytes => return .ok bytes.data.toList
    | .error error => return .error (fileFault error)

def tell (notices : List Notice) : IO Unit :=
  notices.forM fun notice ↦ IO.eprintln notice.line

def usage : String :=
  "usage: ln INPUT... [-o OUTPUT] [-b ADDRESS] [--config FILE]\n" ++
  "       dumpbin INPUT [-tdrsa]\n" ++
  "       strip INPUT [-ar] [-o OUTPUT] [--config FILE]\n"

/-- Do a deed in the system, and give how the program ends. -/
def carryOut : Deed → IO Ending
  | .print text => do
    IO.print text
    return .done
  | .save path bytes notice => do
    if let some fault := FileFault.ofPath? path then return .failed (.output path fault)
    match ← (IO.FS.writeBinFile path ⟨bytes.toArray⟩).toBaseIO with
    | .error error => return .failed (.output path (fileFault error))
    | .ok () =>
      tell [notice]
      return .done

def run (readers : Readers) (arguments : List String) : IO Ending := do
  match readers.arguments arguments with
  | .error refusal => return .refused refusal
  | .ok invocation =>
    let plan ← invocation.plan readers systemFiles
    tell plan.notices
    match plan.outcome with
    | .error failure => return .failed failure
    | .ok deed => carryOut deed

end Aout.Program

def main (arguments : List String) : IO UInt32 := do
  let ending ← Aout.Program.run .standard arguments
  match ending with
  | .done => pure ()
  | .refused .help => IO.print Aout.Program.usage
  | .refused .misuse => IO.eprint Aout.Program.usage
  | .failed failure => IO.eprintln ("error: " ++ failure.message)
  return UInt32.ofNat ending.exitCode
