import Aout.Text.Blank
import Aout.Text.Numeral.Reading
/-!
Address literals, as the command line takes them: a 16-bit number in decimal, or in hexadecimal
behind `0x`, with an optional plus sign before the digits and any white space around the whole.
-/

set_option autoImplicit false
set_option relaxedAutoImplicit false

namespace Aout.AddressLiteral

open Numeral (DigitFault readDigits)

/-- Read a numeral below `limit`: an optional plus sign and at least one digit. -/
def readNumeral (radix limit : Nat) : List Char → Except DigitFault Nat
  | [] => .error .empty
  | '+' :: [] => .error .invalidDigit
  | '+' :: digits => readDigits radix limit 0 digits
  | digits => readDigits radix limit 0 digits

/-- Read a literal that has no white space around it. -/
def readTrimmed : List Char → Except DigitFault Nat
  | '0' :: 'x' :: digits => readNumeral 16 UInt16.size digits
  | digits => readNumeral 10 UInt16.size digits

/-- The address that a text spells, or else what to tell the user. -/
def parse (text : String) : Except String UInt16 :=
  let trimmed := Blank.trim text.toList
  match readTrimmed trimmed with
  | .ok number => .ok (UInt16.ofNat number)
  | .error fault =>
    .error ("invalid address '" ++ String.ofList trimmed ++ "': " ++ fault.message)

end Aout.AddressLiteral
