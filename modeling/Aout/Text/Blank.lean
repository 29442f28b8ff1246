/-!
White space: the characters with the Unicode property White_Space, and the text that is left when
they are taken off both ends.
-/

set_option autoImplicit false
set_option relaxedAutoImplicit false

namespace Aout.Blank

/-- The ranges of characters with the property White_Space, first and last code point. -/
def ranges : List (Nat × Nat) :=
  [(0x9, 0xD), (0x20, 0x20), (0x85, 0x85), (0xA0, 0xA0), (0x1680, 0x1680), (0x2000, 0x200A),
    (0x2028, 0x2029), (0x202F, 0x202F), (0x205F, 0x205F), (0x3000, 0x3000)]

def isBlank (character : Char) : Bool :=
  ranges.any fun range ↦ range.1 ≤ character.toNat && character.toNat ≤ range.2

/-- The text without the white space at its two ends. -/
def trim (text : List Char) : List Char :=
  ((text.dropWhile isBlank).reverse.dropWhile isBlank).reverse

end Aout.Blank
