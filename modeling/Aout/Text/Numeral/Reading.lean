/-!
Reading numerals. The digits of a number below a limit are read from the left, and the first one
that is no digit of the radix, or takes the number to the limit, is what is wrong with the numeral.
-/

set_option autoImplicit false
set_option relaxedAutoImplicit false

namespace Aout.Numeral

/-- Why a text is no number of the wanted width. -/
inductive DigitFault
  | empty
  | invalidDigit
  | tooLarge
  deriving DecidableEq

def DigitFault.message : DigitFault → String
  | .empty => "cannot parse integer from empty string"
  | .invalidDigit => "invalid digit found in string"
  | .tooLarge => "number too large to fit in target type"

/-- The value of a digit in a radix of at most sixteen. -/
def digitValue? (radix : Nat) (character : Char) : Option Nat :=
  let code := character.toNat
  let value? :=
    if '0'.toNat ≤ code ∧ code ≤ '9'.toNat then some (code - '0'.toNat)
    else if 'a'.toNat ≤ code ∧ code ≤ 'f'.toNat then some (code - 'a'.toNat + 10)
    else if 'A'.toNat ≤ code ∧ code ≤ 'F'.toNat then some (code - 'A'.toNat + 10)
    else none
  value?.filter (· < radix)

/-- Read digits behind those that spell `number`, which is below `limit`. -/
def readDigits (radix limit : Nat) : (number : Nat) → List Char → Except DigitFault Nat
  | number, [] => .ok number
  | number, character :: rest =>
    match digitValue? radix character with
    | none => .error .invalidDigit
    | some digit =>
      let longer := number * radix + digit
      if longer < limit then readDigits radix limit longer rest else .error .tooLarge

end Aout.Numeral
