import Aout.AddressLiteral
import Aout.Command.Invocation
/-!
Command-line arguments. An argument that starts with a dash is an option, and any other one, the
lone dash included, is an operand; after `--` all are. An option is one word behind two dashes, or
one letter behind a single dash, where several letters may share the dash. A parameter has a value,
which follows an equals sign, or the letter, or in the next argument, which then is no option.
Arguments are read from the left, no option may be given twice, and no path is empty.
-/

set_option autoImplicit false
set_option relaxedAutoImplicit false

namespace Aout.Command

inductive Switch
  | text
  | data
  | relocations
  | symbols
  | all
  deriving DecidableEq

inductive Parameter
  | output
  | base
  | settings
  deriving DecidableEq

/-- What an option stands for. -/
inductive Meaning
  | help
  | switch (switch : Switch)
  | parameter (parameter : Parameter)
  deriving DecidableEq

/-- The options that a command takes, and whether it takes more than one operand. -/
structure Grammar where
  letters : List (Char × Meaning)
  words : List (String × Meaning)
  manyOperands : Bool

/-- The arguments read so far. -/
structure Arguments where
  operands : List String
  switches : List Switch
  output? : Option String
  base? : Option UInt16
  settings? : Option String
  deriving DecidableEq

namespace Arguments

def empty : Arguments := ⟨[], [], none, none, none⟩

def addOperand (grammar : Grammar) (arguments : Arguments) (operand : String) :
    Except Refusal Arguments :=
  if operand = "" ∨ (¬ grammar.manyOperands ∧ ¬ arguments.operands.isEmpty) then .error .misuse
  else .ok { arguments with operands := arguments.operands ++ [operand] }

def addSwitch (arguments : Arguments) (switch : Switch) : Except Refusal Arguments :=
  if switch ∈ arguments.switches then .error .misuse
  else .ok { arguments with switches := switch :: arguments.switches }

/-- A path for a parameter that has no value yet. -/
def newPath (present? : Option String) (path : String) : Except Refusal (Option String) :=
  if present?.isSome ∨ path = "" then .error .misuse else .ok (some path)

def assign (arguments : Arguments) (parameter : Parameter) (value : String) :
    Except Refusal Arguments :=
  match parameter with
  | .output => do return { arguments with output? := ← newPath arguments.output? value }
  | .settings => do return { arguments with settings? := ← newPath arguments.settings? value }
  | .base =>
    match arguments.base?, AddressLiteral.parse value with
    | none, .ok address => .ok { arguments with base? := some address }
    | _, _ => .error .misuse

/-- Read letters that share a dash. The second component is the parameter whose value follows. -/
def addLetters (grammar : Grammar) (arguments : Arguments) :
    List Char → Except Refusal (Arguments × Option Parameter)
  | [] => .ok (arguments, none)
  | letter :: rest =>
    match grammar.letters.lookup letter with
    | none => .error .misuse
    | some .help => .error .help
    | some (.switch switch) => do addLetters grammar (← arguments.addSwitch switch) rest
    | some (.parameter parameter) =>
      match rest with
      | [] => .ok (arguments, some parameter)
      | '=' :: value => do return (← arguments.assign parameter (String.ofList value), none)
      | value => do return (← arguments.assign parameter (String.ofList value), none)

/-- Read a word behind two dashes, likewise. -/
def addWord (grammar : Grammar) (arguments : Arguments) (word : List Char) :
    Except Refusal (Arguments × Option Parameter) :=
  let name := String.ofList (word.takeWhile (· != '='))
  match grammar.words.lookup name, word.dropWhile (· != '=') with
  | some .help, [] => .error .help
  | some (.switch switch), [] => do return (← arguments.addSwitch switch, none)
  | some (.parameter parameter), [] => .ok (arguments, some parameter)
  | some (.parameter parameter), _ :: value => do
    return (← arguments.assign parameter (String.ofList value), none)
  | _, _ => .error .misuse

def isOption (argument : String) : Bool :=
  match argument.toList with
  | '-' :: _ :: _ => true
  | _ => false

/-- Read arguments, of which the first is the value of `pending?` if there is such a parameter. -/
def addAll (grammar : Grammar) (arguments : Arguments) :
    (pending? : Option Parameter) → List String → Except Refusal Arguments
  | none, [] => .ok arguments
  | some _, [] => .error .misuse
  | some parameter, value :: rest =>
    if isOption value then .error .misuse
    else do addAll grammar (← arguments.assign parameter value) none rest
  | none, argument :: rest =>
    match argument.toList with
    | ['-', '-'] => rest.foldlM (addOperand grammar) arguments
    | '-' :: '-' :: word => do
      let (arguments, pending?) ← addWord grammar arguments word
      addAll grammar arguments pending? rest
    | '-' :: letter :: letters => do
      let (arguments, pending?) ← addLetters grammar arguments (letter :: letters)
      addAll grammar arguments pending? rest
    | _ => do addAll grammar (← arguments.addOperand grammar argument) none rest

def read (grammar : Grammar) (arguments : List String) : Except Refusal Arguments :=
  empty.addAll grammar none arguments

end Arguments

end Aout.Command
