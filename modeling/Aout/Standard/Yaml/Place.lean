/-!
Places in a YAML text, and what may stand between two tokens: blanks, line breaks, and comments,
which run from a `#` to the end of the line. A tab is a blank only where no key may start, so tabs
never take part in indentation. A byte order mark is skipped where a line starts, and takes up a
column there. Line breaks of all kinds but the two Unicode separators are line feeds here
(`unifyBreaks`).
-/

set_option autoImplicit false
set_option relaxedAutoImplicit false

namespace Aout.Yaml

/-- A YAML text has no control characters besides tab and line breaks. -/
def isAllowed (character : Char) : Bool :=
  let code := character.toNat
  code == 0x9 || code == 0xA || code == 0xD || (0x20 ≤ code && code ≤ 0x7E) || code == 0x85 ||
    (0xA0 ≤ code && code ≤ 0xFFFD) || 0x10000 ≤ code

/-- The text with a line feed for each carriage return, pair of both, and next-line character. -/
def unifyBreaks : List Char → List Char
  | '\r' :: '\n' :: rest => '\n' :: unifyBreaks rest
  | character :: rest =>
    (if character = '\r' ∨ character = '\u0085' then '\n' else character) :: unifyBreaks rest
  | [] => []

def isBreak (character : Char) : Bool :=
  character == '\n' || character == '\u2028' || character == '\u2029'

def isSpace (character : Char) : Bool :=
  character == ' ' || character == '\t'

/-- Whether a token that ends here is set off from what follows. -/
def isSetOff : List Char → Bool
  | [] => true
  | character :: _ => isSpace character || isBreak character

/-- A place in a text: the characters ahead, the line and column of the first of them, and whether a
key or a block collection may start here. -/
structure Place where
  ahead : List Char
  line : Nat
  column : Nat
  allowsKey : Bool

namespace Place

def start (characters : List Char) : Place :=
  ⟨characters, 0, 0, true⟩

/-- The place after some characters of a token, all on one line. -/
def past (place : Place) (length : Nat) (rest : List Char) : Place :=
  ⟨rest, place.line, place.column + length, false⟩

/-- The place after an indicator, which is a token of one character. -/
def pastIndicator (place : Place) (allowsKey : Bool) : Place :=
  ⟨place.ahead.tail, place.line, place.column + 1, allowsKey⟩

/-- Past blanks, breaks, comments and byte order marks. In flow style, a line break lets no key
start. -/
def skipFrom (inFlow : Bool) :
    (inComment allowsKey : Bool) → (line column : Nat) → List Char → Place
  | _, allowsKey, line, column, [] => ⟨[], line, column, allowsKey⟩
  | inComment, allowsKey, line, column, character :: rest =>
    if isBreak character then skipFrom inFlow false (allowsKey || !inFlow) (line + 1) 0 rest
    else if inComment || character == '#' then
      skipFrom inFlow true allowsKey line (column + 1) rest
    else if column == 0 && character == '\ufeff' then skipFrom inFlow false allowsKey line 1 rest
    else if character == ' ' || (character == '\t' && (inFlow || !allowsKey)) then
      skipFrom inFlow false allowsKey line (column + 1) rest
    else ⟨character :: rest, line, column, allowsKey⟩

/-- The place of the next token. -/
def skip (place : Place) (inFlow : Bool) : Place :=
  skipFrom inFlow false place.allowsKey place.line place.column place.ahead

/-- Past a line that starts with three of a mark, as those between documents do. -/
def pastMarker? (place : Place) (mark : Char) : Option Place :=
  match place.ahead with
  | first :: second :: third :: rest =>
    if place.column = 0 ∧ first = mark ∧ second = mark ∧ third = mark ∧ isSetOff rest then
      some ⟨rest, place.line, 3, false⟩
    else none
  | _ => none

/-- Whether the document ends here. -/
def endsDocument (place : Place) : Bool :=
  place.ahead.isEmpty || (place.pastMarker? '-').isSome || (place.pastMarker? '.').isSome

/-- How many bytes characters take up. -/
def byteCount (characters : List Char) : Nat :=
  characters.foldl (fun count character ↦ count + character.utf8Size) 0

/-- How many bytes a key may take up, with the blanks before its colon. -/
def keyLimit : Nat := 1024

/-- Whether a colon at a place makes a key of what starts at `key`: it follows on the same line, and
not too far away. -/
def isKeyBefore (key colon : Place) : Bool :=
  let distance := colon.column - key.column
  key.line == colon.line && distance ≤ keyLimit && byteCount (key.ahead.take distance) ≤ keyLimit

end Place

end Aout.Yaml
