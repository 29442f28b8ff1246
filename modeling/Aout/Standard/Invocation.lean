import Aout.Command.Invocation
import Aout.Standard.Arguments
/-!
Command lines. The first argument names the command, and the rest are its options and operands.
-/

set_option autoImplicit false
set_option relaxedAutoImplicit false

namespace Aout.Command.Invocation

def linkGrammar : Grammar where
  letters := [('h', .help), ('o', .parameter .output), ('b', .parameter .base)]
  words := [("help", .help), ("output", .parameter .output), ("base", .parameter .base),
    ("config", .parameter .settings)]
  manyOperands := true

def reportGrammar : Grammar where
  letters := [('h', .help), ('t', .switch .text), ('d', .switch .data),
    ('r', .switch .relocations), ('s', .switch .symbols), ('a', .switch .all)]
  words := [("help", .help)]
  manyOperands := false

def stripGrammar : Grammar where
  letters := [('h', .help), ('a', .switch .all), ('r', .switch .relocations),
    ('o', .parameter .output)]
  words := [("help", .help), ("output", .parameter .output), ("config", .parameter .settings)]
  manyOperands := false

/-- The sections that switches select. -/
def selection (switches : List Switch) : Report.Selection :=
  ⟨.text ∈ switches, .data ∈ switches, .relocations ∈ switches, .symbols ∈ switches⟩

def names : List String := ["ln", "dumpbin", "strip", "help"]

/-- Arguments that name no command: options of the program itself, or a mistake. -/
def refusal (argument : String) : Refusal :=
  match argument.toList with
  | ['-', '-', 'h', 'e', 'l', 'p'] | ['-', '-', 'v', 'e', 'r', 's', 'i', 'o', 'n'] => .help
  | '-' :: 'h' :: _ | '-' :: 'V' :: _ => .help
  | _ => .misuse

def parse : List String → Except Refusal Invocation
  | [] => .error .misuse
  | command :: rest =>
    match command with
    | "ln" => do
      let arguments ← Arguments.read linkGrammar rest
      if arguments.operands.isEmpty then .error .misuse
      else
        return .link arguments.operands arguments.output? arguments.base?
          (arguments.settings?.getD defaultSettings)
    | "dumpbin" => do
      let arguments ← Arguments.read reportGrammar rest
      match arguments.operands with
      | [input] => return .report input (selection arguments.switches) (.all ∈ arguments.switches)
      | _ => .error .misuse
    | "strip" => do
      let arguments ← Arguments.read stripGrammar rest
      match arguments.operands with
      | [input] =>
        return .strip input (.all ∈ arguments.switches) (.relocations ∈ arguments.switches)
          arguments.output? (arguments.settings?.getD defaultSettings)
      | _ => .error .misuse
    | "help" =>
      match rest with
      | [] => .error .help
      | [topic] => .error (if topic ∈ names then .help else .misuse)
      | _ => .error .misuse
    | other => .error (refusal other)

end Aout.Command.Invocation
