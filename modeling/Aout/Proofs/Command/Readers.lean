import Aout.AddressLiteral
import Aout.Command.Invocation
/-!
What the program relies on in its reader of command lines. The first argument names the command, the
inputs are arguments in their order, and a command line that is spelled out is read as what it says.
-/

set_option autoImplicit false
set_option relaxedAutoImplicit false

namespace Aout

namespace Command

/-- An argument that is neither an option nor empty. -/
def IsPlain (argument : String) : Prop :=
  ∃ first rest, argument.toList = first :: rest ∧ first ≠ '-'

/-- An option with its value, if there is one. -/
def withValue (option : String) (value? : Option String) : List String :=
  value?.toList.flatMap fun value ↦ [option, value]

/-- An option that has no value, if it is chosen. -/
def ifChosen (option : String) (chosen : Bool) : List String :=
  if chosen then [option] else []

namespace Invocation

/-- The word that names the command. -/
def word : Invocation → String
  | link .. => "ln"
  | report .. => "dumpbin"
  | strip .. => "strip"

/-- The object files that the command reads. -/
def inputs : Invocation → List String
  | link inputs .. => inputs
  | report input .. => [input]
  | strip input .. => [input]

/-- A command line that spells an invocation out: the operands first, and then one option after the
other, each with its value in the next argument. -/
inductive Spelled : List String → Invocation → Prop
  | link {inputs : List String} {output? literal? settings? : Option String}
      {base? : Option UInt16} (hinputs : inputs ≠ [])
      (hplain : ∀ argument ∈ inputs ++ output?.toList ++ literal?.toList ++ settings?.toList,
        IsPlain argument)
      (hbase : literal?.map AddressLiteral.parse = base?.map .ok) :
      Spelled ("ln" :: (inputs ++ withValue "-o" output? ++ withValue "-b" literal? ++
          withValue "--config" settings?))
        (.link inputs output? base? (settings?.getD defaultSettings))
  | report {input : String} {selection : Report.Selection} {all : Bool} (hplain : IsPlain input) :
      Spelled ("dumpbin" :: input :: (ifChosen "-t" selection.text ++
          ifChosen "-d" selection.data ++ ifChosen "-r" selection.relocations ++
          ifChosen "-s" selection.symbols ++ ifChosen "-a" all))
        (.report input selection all)
  | strip {input : String} {all relocations : Bool} {output? settings? : Option String}
      (hplain : ∀ argument ∈ input :: (output?.toList ++ settings?.toList), IsPlain argument) :
      Spelled ("strip" :: input :: (ifChosen "-a" all ++ ifChosen "-r" relocations ++
          withValue "-o" output? ++ withValue "--config" settings?))
        (.strip input all relocations output? (settings?.getD defaultSettings))

end Invocation

end Command

/-- Readers that take command lines for what they say. -/
structure Readers.Lawful (readers : Readers) : Prop where
  word : ∀ arguments invocation, readers.arguments arguments = .ok invocation →
    arguments.head? = some invocation.word
  inputs : ∀ arguments invocation, readers.arguments arguments = .ok invocation →
    invocation.inputs.Sublist arguments
  spelled : ∀ arguments invocation, Command.Invocation.Spelled arguments invocation →
    readers.arguments arguments = .ok invocation

end Aout
