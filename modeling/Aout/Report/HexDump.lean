import Aout.Text.Numeral
/-!
The hex dump of a byte string, sixteen bytes to a line: the offset of the line, two digits for each
byte with gaps after the fourth and twelfth and a dash after the eighth, and in brackets the
characters of the printable bytes. The last line is filled up with zero bytes.
-/

set_option autoImplicit false
set_option relaxedAutoImplicit false

namespace Aout.HexDump

/-- The number of bytes of a line. -/
def lineLength : Nat := 16

/-- What stands before the digits of the byte in a given column of a line. -/
def gap (column : Nat) : List Char :=
  if column = 8 then ['-', ' ']
  else if column = 4 ∨ column = 12 then [' ']
  else []

/-- The digits of the bytes of a line from a given column on, each byte followed by a blank. -/
def digits : (column : Nat) → List UInt8 → List Char
  | _, [] => []
  | column, byte :: rest =>
    gap column ++ Numeral.byteDigits .upper byte ++ [' '] ++ digits (column + 1) rest

def isPrintable (byte : UInt8) : Bool :=
  0x20 ≤ byte && byte ≤ 0x7E

/-- The character of a printable byte, and a dot for any other. -/
def glyph (byte : UInt8) : Char :=
  if isPrintable byte then Char.ofNat byte.toNat else '.'

/-- A line without its end: the offset, the digits, and the characters in brackets. -/
def line (offset : Nat) (row : List UInt8) : List Char :=
  let filled := row ++ List.replicate (lineLength - row.length) 0
  Numeral.padded 16 4 .upper offset ++ [':', ' '] ++ digits 0 filled ++ ['['] ++
    filled.map glyph ++ [']']

/-- The lines of a byte string that starts at an offset. Offsets are shown modulo 2^32. -/
def linesFrom (offset : Nat) (bytes : List UInt8) : List String :=
  match bytes with
  | [] => []
  | first :: rest =>
    String.ofList (line (offset % UInt32.size) ((first :: rest).take lineLength)) ::
      linesFrom (offset + lineLength) ((first :: rest).drop lineLength)
termination_by bytes.length
decreasing_by
  simp only [List.length_drop, List.length_cons, lineLength]
  omega

def lines (bytes : List UInt8) : List String :=
  linesFrom 0 bytes

/-- The dump as text, every line ended. -/
def text (bytes : List UInt8) : String :=
  String.join ((lines bytes).map fun line ↦ line ++ "\n")

end Aout.HexDump
