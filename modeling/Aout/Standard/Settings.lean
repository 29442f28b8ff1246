import Aout.Settings
import Aout.Standard.Yaml.Document
import Aout.Text.Numeral.Reading
/-!
Settings documents. A settings document is a YAML mapping with any of three keys. What it does not
mention has a default, keys of other names are ignored, and no key may be given twice.
-/

set_option autoImplicit false
set_option relaxedAutoImplicit false

namespace Aout

namespace Settings

inductive Key
  | baseAddress
  | entrySymbol
  | output
  deriving DecidableEq

def Key.name : Key → String
  | .baseAddress => "base_address"
  | .entrySymbol => "entry_symbol"
  | .output => "output"

def Key.ofName? (name : String) : Option Key :=
  [Key.baseAddress, .entrySymbol, .output].find? (·.name == name)

/-- Why a text holds no settings. -/
inductive Fault
  | malformed
  | notMapping
  | keyNotText
  | repeatedKey (key : Key)
  | unfitValue (key : Key)
  deriving DecidableEq

def Fault.message : Fault → String
  | .malformed => "not a YAML document"
  | .notMapping => "not a mapping"
  | .keyNotText => "a key is not text"
  | .repeatedKey key => key.name ++ " is given twice"
  | .unfitValue key => key.name ++ " has a value of the wrong kind"

/-- A 16-bit numeral in one radix, of at least one digit. -/
def wordIn? (radix : Nat) : List Char → Option UInt16
  | [] => none
  | digits => (Numeral.readDigits radix UInt16.size 0 digits).toOption.map UInt16.ofNat

/-- A 16-bit numeral: hexadecimal behind `0x`, octal behind `0o`, binary behind `0b`, and decimal
otherwise. Decimal numerals have no leading zeros. -/
def unsignedWord? : List Char → Option UInt16
  | '0' :: 'x' :: digits => wordIn? 16 digits
  | '0' :: 'o' :: digits => wordIn? 8 digits
  | '0' :: 'b' :: digits => wordIn? 2 digits
  | '0' :: [] => some 0
  | '0' :: _ => none
  | digits => wordIn? 10 digits

/-- Whether a scalar may stand for a number: it is plain, or it is a literal block that is said to
be an integer. -/
def isNumeric (style : Yaml.Style) (tag? : Option String) : Bool :=
  style == .plain || (style == .literal && tag? == some Yaml.Tag.integer)

/-- The address that a scalar stands for, with or without a plus sign. -/
def address? : Yaml.Node → Option UInt16
  | .scalar style tag? text =>
    if isNumeric style tag? then
      match text.toList with
      | '+' :: numeral => unsignedWord? numeral
      | numeral => unsignedWord? numeral
    else none
  | _ => none

/-- The text of a scalar, however it is written. -/
def text? : Yaml.Node → Option String
  | .scalar _ _ text => some text
  | _ => none

/-- What a settings document has said so far. -/
structure Draft where
  baseAddress? : Option UInt16
  entrySymbol? : Option String
  output? : Option String

def Draft.empty : Draft := ⟨none, none, none⟩

/-- The settings of a draft, with defaults for what it leaves out. -/
def Draft.settings (draft : Draft) : Settings :=
  ⟨draft.baseAddress?.getD default.baseAddress, draft.entrySymbol?.getD default.entrySymbol,
    draft.output?.getD default.output⟩

/-- The value to be set for a key, which must be of the right kind and not set yet. -/
def assign {Value : Type} (key : Key) (present? value? : Option Value) :
    Except Fault (Option Value) :=
  if present?.isSome then .error (.repeatedKey key)
  else if value?.isNone then .error (.unfitValue key)
  else .ok value?

def Draft.read (draft : Draft) (entry : Yaml.Node × Yaml.Node) : Except Fault Draft :=
  match text? entry.1 with
  | none => .error .keyNotText
  | some name =>
    match Key.ofName? name with
    | none => .ok draft
    | some .baseAddress => do
      return { draft with
        baseAddress? := ← assign .baseAddress draft.baseAddress? (address? entry.2) }
    | some .entrySymbol => do
      return { draft with
        entrySymbol? := ← assign .entrySymbol draft.entrySymbol? (text? entry.2) }
    | some .output => do
      return { draft with output? := ← assign .output draft.output? (text? entry.2) }

def ofNode : Yaml.Node → Except Fault Settings
  | .scalar .plain _ "" => .ok default
  | .mapping entries => do
    let draft ← entries.foldlM Draft.read Draft.empty
    return draft.settings
  | _ => .error .notMapping

/-- The settings that a document gives. -/
def parse (text : String) : Except Fault Settings :=
  match Yaml.Node.read? text with
  | some node => ofNode node
  | none => .error .malformed

end Settings

end Aout
