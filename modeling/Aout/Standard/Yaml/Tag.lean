import Aout.Text.Numeral.Reading
import Aout.Standard.Yaml.Place
/-!
Tags, which tell what kind a node is of. A tag is written in angle brackets, or behind a handle: one
or two exclamation marks, or a name between two. A handle stands for the beginning of a tag, and
directives tell of which (`Tag.resolve?`). Any octet of a tag may be written as `%` and two
hexadecimal digits, and what follows an octet that is zero is no part of the tag.
-/

set_option autoImplicit false
set_option relaxedAutoImplicit false

namespace Aout.Yaml

/-! ### Names -/

def isNameCharacter (character : Char) : Bool :=
  character.isAlphanum || character == '-' || character == '_'

/-! ### Escapes -/

/-- The characters that tags are written with. In angle brackets and in directives, there may also
be commas and square brackets. -/
def isTagCharacter (isDelimited : Bool) (character : Char) : Bool :=
  isNameCharacter character ||
    [';', '/', '?', ':', '@', '&', '=', '+', '$', '.', '%', '!', '~', '*', '\'', '(', ')'].contains
      character ||
    (isDelimited && [',', '[', ']'].contains character)

/-- How many octets of a character follow its first one. -/
def octetsAfter? (octet : Nat) : Option Nat :=
  if octet < 0x80 then some 0
  else if octet < 0xC0 then none
  else if octet < 0xE0 then some 1
  else if octet < 0xF0 then some 2
  else if octet < 0xF8 then some 3
  else none

/-- How many octets are missing from a character behind one more, if so many were before. -/
def octetsLeft? (missing octet : Nat) : Option Nat :=
  if missing = 0 then octetsAfter? octet
  else if octet / 0x40 = 2 then some (missing - 1)
  else none

/-- The octets that a text with escapes stands for, each as a character, since tags are only
compared. The escapes of the octets of one character follow one another. -/
def unescape? (missing : Nat) : List Char → Option (List Char)
  | [] => if missing = 0 then some [] else none
  | '%' :: high :: low :: rest => do
    let octet := (← Numeral.digitValue? 16 high) * 16 + (← Numeral.digitValue? 16 low)
    return Char.ofNat octet :: (← unescape? (← octetsLeft? missing octet) rest)
  | character :: rest =>
    if missing = 0 ∧ character ≠ '%' then (unescape? 0 rest).map (character :: ·) else none

/-- A text with escapes up to the first zero, the number of characters it is written with, and those
behind it. -/
def readTagText (isDelimited : Bool) (characters : List Char) :
    Option (String × Nat × List Char) := do
  let written := characters.takeWhile (isTagCharacter isDelimited)
  let octets ← unescape? 0 written
  return (String.ofList (octets.takeWhile (· ≠ '\x00')), written.length,
    characters.drop written.length)

/-! ### Tags -/

/-- A tag as it is written: in full, or as a handle and what follows it. -/
inductive Tag
  | full (text : String)
  | short (handle rest : String)

/-- A handle behind its first exclamation mark, if another one closes it, and the characters after
it. -/
def readHandle? (characters : List Char) : Option (List Char × List Char) :=
  match characters.dropWhile isNameCharacter with
  | '!' :: rest => some (characters.takeWhile isNameCharacter ++ ['!'], rest)
  | _ => none

namespace Tag

/-- Handles and what they stand for, the latest one first. -/
abbrev Handles := List (String × String)

/-- What handles stand for that no directive mentions. -/
def Handles.default : Handles :=
  [("!", "!"), ("!!", "tag:yaml.org,2002:")]

/-- The tag in full, unless its handle is unknown. -/
def resolve? (handles : Handles) : Tag → Option String
  | full text => some text
  | short handle rest =>
    ((handles ++ Handles.default).lookup handle).map fun beginning ↦ beginning ++ rest

/-- What kind integers are of. -/
def integer : String := "tag:yaml.org,2002:int"

/-- A tag behind its exclamation mark, the number of characters it is written with, and those behind
it. The exclamation mark on its own is a tag in full. -/
def readBehindMark : List Char → Option (Tag × Nat × List Char)
  | '<' :: characters => do
    let (text, length, rest) ← readTagText true characters
    if length = 0 ∨ rest.head? ≠ some '>' then none
    else return (full text, length + 2, rest.tail)
  | characters =>
    match readHandle? characters with
    | some (name, characters) => do
      let (text, length, rest) ← readTagText false characters
      if length = 0 then none
      else return (short (String.ofList ('!' :: name)) text, name.length + length, rest)
    | none => do
      let (text, length, rest) ← readTagText false characters
      return (if text = "" then full "!" else short "!" text, length, rest)

/-- A tag, and the place after it. It is set off from what follows, or a comma in flow style does.
-/
def read (place : Place) (inFlow : Bool) : Option (Tag × Place) := do
  let (tag, length, rest) ← readBehindMark place.ahead.tail
  if isSetOff rest || (inFlow && rest.head? == some ',') then
    return (tag, place.past (length + 1) rest)
  else none

end Tag

end Aout.Yaml
