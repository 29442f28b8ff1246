/-!
Numerals. A number is written in a radix of at most sixteen, most significant digit first, with no
leading zeros beyond the requested width. `digits` gives the digit values, and
`ofDigits_digits` says that they spell the number.
-/

set_option autoImplicit false
set_option relaxedAutoImplicit false

namespace Aout.Numeral

/-- Which letters stand for the digits from ten to fifteen. -/
inductive LetterCase
  | lower
  | upper
  deriving DecidableEq

/-- The character of a digit value below sixteen. -/
def digitChar (letters : LetterCase) (digit : Nat) : Char :=
  if digit < 10 then Char.ofNat ('0'.toNat + digit)
  else match letters with
    | .lower => Char.ofNat ('a'.toNat + (digit - 10))
    | .upper => Char.ofNat ('A'.toNat + (digit - 10))

/-- The digit values of a number, most significant first. A radix below two has no numerals, and
the number stands for itself. -/
def digits (radix number : Nat) : List Nat :=
  if _hdone : number < radix ∨ radix < 2 then [number]
  else digits radix (number / radix) ++ [number % radix]
termination_by number
decreasing_by exact Nat.div_lt_self (by omega) (by omega)

/-- The number that digit values spell. -/
def ofDigits (radix : Nat) (values : List Nat) : Nat :=
  values.foldl (fun number digit ↦ number * radix + digit) 0

theorem ofDigits_append_singleton (radix : Nat) (values : List Nat) (digit : Nat) :
    ofDigits radix (values ++ [digit]) = ofDigits radix values * radix + digit := by
  simp [ofDigits, List.foldl_append]

theorem ofDigits_digits (radix number : Nat) : ofDigits radix (digits radix number) = number := by
  fun_induction digits radix number with
  | case1 number hdone => simp [ofDigits]
  | case2 number hmore ih =>
    rw [ofDigits_append_singleton, ih, Nat.mul_comm]
    exact Nat.div_add_mod number radix

/-- A numeral of at least `width` characters, filled up with zeros on the left. -/
def padded (radix width : Nat) (letters : LetterCase) (number : Nat) : List Char :=
  let shown := (digits radix number).map (digitChar letters)
  List.replicate (width - shown.length) '0' ++ shown

/-- A byte as two hexadecimal digits. -/
def byteDigits (letters : LetterCase) (byte : UInt8) : List Char :=
  [digitChar letters (byte.toNat / 16), digitChar letters (byte.toNat % 16)]

def decimal (number : Nat) : String :=
  String.ofList (padded 10 1 .lower number)

/-- A signed number in decimal. -/
def signedDecimal (number : Int) : String :=
  if number < 0 then "-" ++ decimal number.natAbs else decimal number.natAbs

/-- An upper-case hexadecimal numeral, as reports show sizes and addresses. -/
def upperHex (width number : Nat) : String :=
  String.ofList (padded 16 width .upper number)

/-- A lower-case hexadecimal numeral behind `0x`, as messages show addresses. -/
def prefixedHex (width number : Nat) : String :=
  "0x" ++ String.ofList (padded 16 width .lower number)

/-- An octal numeral behind `0o`. -/
def prefixedOctal (number : Nat) : String :=
  "0o" ++ String.ofList (padded 8 1 .lower number)

end Aout.Numeral
