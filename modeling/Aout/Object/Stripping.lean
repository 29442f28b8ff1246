import Aout.Object
import Aout.Progress
/-!
Stripping an object of what only linking needs. The symbol and name tables can go once no relocation
record refers to a symbol.
-/

set_option autoImplicit false
set_option relaxedAutoImplicit false

namespace Aout.Object

/-- The table position in the first record that refers to a symbol, text before data. -/
def firstSymbolInUse? (object : Object) : Option Nat :=
  (object.text.relocations.toList ++ object.data.relocations.toList).findSome? (·.symbolIndex?)

/-- Drop the symbol and name tables, unless a record still refers to a symbol. -/
def stripSymbols (object : Object) : Progress Object :=
  match object.firstSymbolInUse? with
  | none => .done { object with symbols := .empty, names := .empty }
  | some position =>
    .stopped object (.symbolInUse (match object.symbols.entryAt? position with
      | some entry => entry.name
      | none => "#" ++ Numeral.decimal position))

/-- Drop all relocation records. -/
def stripRelocations (object : Object) : Object :=
  { object with
    text := { object.text with relocations := #[] }
    data := { object.data with relocations := #[] } }

/-- Drop the symbol and name tables, and before that all relocation records if asked to. -/
def strip (object : Object) (relocationsToo : Bool) : Progress Object :=
  (if relocationsToo then object.stripRelocations else object).stripSymbols

end Aout.Object
