import Aout.Standard.Yaml.BlockScalar
import Aout.Standard.Yaml.Token
/-!
How a text is read as tokens. Outside brackets and braces, indentation opens block collections, each
in the column of its first entry, and closes those further right. A node on one line with a colon
behind it is a key, so until a colon or something else follows, where such a node starts is kept in
mind, and how many tokens stand before it (`KeyStart`).
-/

set_option autoImplicit false
set_option relaxedAutoImplicit false

namespace Aout.Yaml

/-- Where a node starts that may turn out to be a key, and how many tokens stand before it. It has
to be one if it stands in the column of a block collection. -/
structure KeyStart where
  place : Place
  count : Nat
  isRequired : Bool

/-- How far a text has been read: the next place, the columns of the block collections that are
open, innermost first, the node that may be a key, if any, here and outside each bracket and brace
that is open, the names of anchors with their numbers, and the tokens, last one first, and how many
there are. -/
structure Reading where
  place : Place
  columns : List Nat
  keyStart? : Option KeyStart
  outerKeyStarts : List (Option KeyStart)
  anchors : List (String × Nat)
  reversed : List Token
  count : Nat

namespace Reading

def start (characters : List Char) : Reading :=
  ⟨.start characters, [], none, [], [], [], 0⟩

/-- Whether a bracket or brace is open. -/
def inFlow (reading : Reading) : Bool :=
  !reading.outerKeyStarts.isEmpty

/-- The least column of what belongs to the innermost block collection. -/
def floor (reading : Reading) : Nat :=
  (reading.columns.head?.map (· + 1)).getD 0

/-- The text is read to a place, and holds a token there. -/
def add (reading : Reading) (token : Token) (after : Place) : Reading :=
  { reading with
    place := after, reversed := token :: reading.reversed, count := reading.count + 1 }

/-! ### Block collections -/

/-- Close the block collections in a column and further right. In flow style, there is no such
thing. -/
def closeFrom (reading : Reading) (column : Nat) : Reading :=
  if reading.inFlow then reading
  else
    let closed := reading.columns.takeWhile (column ≤ ·)
    { reading with
      columns := reading.columns.drop closed.length
      reversed := List.replicate closed.length .closeBlock ++ reading.reversed
      count := reading.count + closed.length }

/-- Whether an entry in a column is the first one of a block collection. -/
def startsBlock (reading : Reading) (column : Nat) : Bool :=
  !reading.inFlow && reading.columns.head?.all (· < column)

/-- At an indicator in block style, open a collection unless it is open already. -/
def openBlock (reading : Reading) (token : Token) : Option Reading :=
  let place := reading.place
  if !reading.inFlow && !place.allowsKey then none
  else if reading.startsBlock place.column then
    some { reading.add token place with columns := place.column :: reading.columns }
  else some reading

/-! ### Keys -/

/-- No colon follows the node that may be a key. -/
def forgetKey (reading : Reading) : Option Reading :=
  if reading.keyStart?.any (·.isRequired) then none
  else some { reading with keyStart? := none }

/-- A node starts here, which may be a key where one is allowed. -/
def markKey (reading : Reading) : Option Reading :=
  if reading.place.allowsKey then do
    let isRequired := !reading.inFlow && reading.columns.head? == some reading.place.column
    return { ← reading.forgetKey with
      keyStart? := some ⟨reading.place, reading.count, isRequired⟩ }
  else some reading

/-- The node that starts at a place is a key. It may be the first one of a block mapping. -/
def insertKey (reading : Reading) (start : KeyStart) : Reading :=
  let since := reading.reversed.take (reading.count - start.count)
  let before := reading.reversed.drop (reading.count - start.count)
  if reading.startsBlock start.place.column then
    { reading with
      keyStart? := none
      columns := start.place.column :: reading.columns
      reversed := since ++ .key :: .openMapping :: before
      count := reading.count + 2 }
  else
    { reading with
      keyStart? := none
      reversed := since ++ .key :: before
      count := reading.count + 1 }

/-! ### Tokens -/

/-- A dash or question mark. -/
def readEntryMark (reading : Reading) (collection token : Token) (allowsKey : Bool) :
    Option Reading := do
  let reading ← (← reading.openBlock collection).forgetKey
  return reading.add token (reading.place.pastIndicator allowsKey)

/-- A colon, with or without a key in front of it. -/
def readColon (reading : Reading) : Option Reading :=
  match reading.keyStart?.filter (·.place.isKeyBefore reading.place) with
  | some start => some ((reading.insertKey start).add .value (reading.place.pastIndicator false))
  | none => do
    let reading ← (← reading.forgetKey).openBlock .openMapping
    return reading.add .value (reading.place.pastIndicator !reading.inFlow)

def readOpening (reading : Reading) (token : Token) : Option Reading := do
  let reading ← reading.markKey
  return { reading.add token (reading.place.pastIndicator true) with
    keyStart? := none, outerKeyStarts := reading.keyStart? :: reading.outerKeyStarts }

def readClosing (reading : Reading) (token : Token) : Option Reading := do
  let reading ← reading.forgetKey
  return { reading.add token (reading.place.pastIndicator false) with
    keyStart? := reading.outerKeyStarts.head?.join, outerKeyStarts := reading.outerKeyStarts.tail }

def readComma (reading : Reading) : Option Reading := do
  return (← reading.forgetKey).add .comma (reading.place.pastIndicator true)

/-- What ends or starts a document, or tells something about it. All block collections end there. -/
def readBoundary (reading : Reading) (token : Token) (after : Place) : Option Reading := do
  return (← (reading.closeFrom 0).forgetKey).add token after

/-- Whether a name may end before some characters. -/
def endsName (characters : List Char) : Bool :=
  isSetOff characters ||
    characters.head?.any ['?', ':', ',', ']', '\x7d', '%', '@', '\x60'].contains

/-- The name behind an indicator, and the place after it. -/
def readName (place : Place) : Option (String × Place) :=
  let name := place.ahead.tail.takeWhile isNameCharacter
  let rest := place.ahead.tail.drop name.length
  if name.isEmpty || !endsName rest then none
  else some (String.ofList name, place.past (name.length + 1) rest)

/-- An anchor. Its number is how many names there were before, so where a name is given again, the
next new name gets the same number. -/
def readAnchor (reading : Reading) : Option Reading := do
  let (name, after) ← readName reading.place
  let number := reading.anchors.length
  return { reading.add (.anchor number) after with
    anchors := (name, number) :: reading.anchors.filter (·.1 ≠ name) }

def readAlias (reading : Reading) : Option Reading := do
  let (name, after) ← readName reading.place
  return reading.add (.aliasOf (← reading.anchors.lookup name)) after

def readTag (reading : Reading) : Option Reading := do
  let (tag, after) ← Tag.read reading.place reading.inFlow
  return reading.add (.tag tag) after

def readQuotedText (reading : Reading) : Option Reading := do
  let (text, after) ← readQuoted reading.place
  return reading.add (.scalar .quoted text) after

def readPlainText (reading : Reading) : Option Reading := do
  let (text, after) ← readPlain reading.place reading.inFlow reading.floor
  return reading.add (.scalar .plain text) after

/-- What a node in flow style may start with besides a bracket or brace. It may be a key. -/
def readNodeStart (reading : Reading) (character : Char) (others : List Char) : Option Reading := do
  let reading ← reading.markKey
  if character == '*' then reading.readAlias
  else if character == '&' then reading.readAnchor
  else if character == '!' then reading.readTag
  else if character == '\'' || character == '"' then reading.readQuotedText
  else if startsPlain reading.inFlow (character :: others) then reading.readPlainText
  else none

def readBlockText (reading : Reading) : Option Reading := do
  let reading ← reading.forgetKey
  let (style, text, after) ← readBlockScalar reading.place reading.floor
  return reading.add (.scalar style text) after

/-- The token that starts with a character, others being behind it. -/
def readToken (reading : Reading) (character : Char) (others : List Char) : Option Reading :=
  let isApart := reading.inFlow || isSetOff others
  if character == '[' then reading.readOpening .openBracket
  else if character == '\x7b' then reading.readOpening .openBrace
  else if character == ']' then reading.readClosing .closeBracket
  else if character == '\x7d' then reading.readClosing .closeBrace
  else if character == ',' then reading.readComma
  else if character == '-' && isSetOff others then reading.readEntryMark .openSequence .dash true
  else if character == '?' && isApart then
    reading.readEntryMark .openMapping .key !reading.inFlow
  else if character == ':' && isApart then reading.readColon
  else if !reading.inFlow && startsBlockScalar (character :: others) then reading.readBlockText
  else reading.readNodeStart character others

/-- The next token, and those that indentation stands for in front of it. -/
def step (reading : Reading) (character : Char) (others : List Char) : Option Reading :=
  let place := reading.place
  if place.column == 0 && character == '%' then do
    let (directive, after) ← Directive.read place
    reading.readBoundary (.directive directive) after
  else
    match place.pastMarker? '-', place.pastMarker? '.' with
    | some after, _ => reading.readBoundary .documentStart after
    | none, some after => reading.readBoundary .documentEnd after
    | none, none => reading.readToken character others

/-- All tokens of a text. Each takes up a character at least. -/
def finish : (fuel : Nat) → Reading → Option (List Token)
  | 0, _ => none
  | fuel + 1, reading =>
    let place := reading.place.skip reading.inFlow
    let reading := { reading with place := place }.closeFrom (place.column + 1)
    match place.ahead with
    | [] => (reading.closeFrom 0).forgetKey.map (·.reversed.reverse)
    | character :: others =>
      match reading.step character others with
      | some reading => finish fuel reading
      | none => none

end Reading

/-- The tokens of a text. -/
def Token.ofText? (text : String) : Option (List Token) :=
  let characters := text.toList
  if characters.all isAllowed then
    Reading.finish (characters.length + 1) (.start (unifyBreaks characters))
  else none

end Aout.Yaml
