import Aout.Text.Numeral.Reading
import Aout.Standard.Yaml.Place
/-!
The texts of YAML scalars: plain ones, and those in single or double quotes. A scalar may run over
several lines. The gap between two words is kept as it is within a line; one line break in it makes
it a space, and of several breaks the first is dropped.
-/

set_option autoImplicit false
set_option relaxedAutoImplicit false

namespace Aout.Yaml

/-- How a scalar is written: as it is, in quotes, or as a block, with its line breaks or without. -/
inductive Style
  | plain
  | quoted
  | literal
  | folded
  deriving DecidableEq

/-- What separates two words: blanks on one line, or line breaks, with the blanks around them
dropped. The first break is missing if a backslash hides it. Both lists have their last character
first. -/
inductive Gap
  | blanks (reversed : List Char)
  | breaks (first? : Option Char) (moreReversed : List Char)

namespace Gap

def addSpace (character : Char) : Gap → Gap
  | blanks reversed => blanks (character :: reversed)
  | breaks first? more => breaks first? more

def addBreak (character : Char) : Gap → Gap
  | blanks _ => breaks (some character) []
  | breaks first? more => breaks first? (character :: more)

def isEmpty : Gap → Bool
  | blanks [] => true
  | _ => false

def crossesLine : Gap → Bool
  | blanks _ => false
  | breaks .. => true

/-- The characters of the gap, last one first. -/
def kept : Gap → List Char
  | blanks reversed => reversed
  | breaks first? more => more ++ first?.toList

/-- The characters that the gap stands for, last one first. -/
def filled : Gap → List Char
  | breaks (some '\n') [] => [' ']
  | breaks (some '\n') more => more
  | gap => gap.kept

end Gap

/-- A scalar that is being read: its text so far, last character first, and the gap behind it. -/
structure Draft where
  reversed : List Char
  gap : Gap

namespace Draft

def empty : Draft := ⟨[], .blanks []⟩

def addSpace (draft : Draft) (character : Char) : Draft :=
  { draft with gap := draft.gap.addSpace character }

def addBreak (draft : Draft) (character : Char) : Draft :=
  { draft with gap := draft.gap.addBreak character }

/-- Put the gap into the text. -/
def fill (draft : Draft) : Draft :=
  ⟨draft.gap.filled ++ draft.reversed, .blanks []⟩

def addCharacter (draft : Draft) (character : Char) : Draft :=
  ⟨character :: draft.fill.reversed, .blanks []⟩

/-- Go on behind a line break that a backslash hides. -/
def hideBreak (draft : Draft) : Draft :=
  { draft.fill with gap := .breaks none [] }

/-- The text without the gap behind it. -/
def text (draft : Draft) : String :=
  String.ofList draft.reversed.reverse

end Draft

/-! ### Plain scalars -/

/-- The characters that flow style is made of. -/
def isFlowIndicator (character : Char) : Bool :=
  [',', '[', ']', '\x7b', '\x7d'].contains character

/-- The characters besides dash, question mark, colon and flow indicators that start no plain
scalar. -/
def isReserved (character : Char) : Bool :=
  ['#', '&', '*', '!', '|', '>', '\'', '"', '%', '@', '\x60'].contains character

/-- Whether a plain scalar may start with a character, and with what comes next. -/
def startsPlain (inFlow : Bool) : List Char → Bool
  | [] => false
  | character :: rest =>
    if isSpace character || isBreak character then false
    else if character == '-' then !isSetOff rest
    else if character == '?' || character == ':' then !inFlow && !isSetOff rest
    else !isFlowIndicator character && !isReserved character

/-- Whether a plain scalar ends before the characters at a place, `gap` being between it and them.
-/
def endsPlain (inFlow : Bool) (floor : Nat) (gap : Gap) (place : Place) : Bool :=
  match place.ahead with
  | [] => true
  | character :: rest =>
    (gap.crossesLine && !inFlow && place.column < floor) || place.endsDocument ||
      (!gap.isEmpty && character == '#') || (character == ':' && isSetOff rest) ||
      (inFlow && isFlowIndicator character)

/-- A plain scalar from somewhere inside it. -/
def readPlainFrom (inFlow : Bool) (floor : Nat) (draft : Draft) (line column : Nat) :
    List Char → Option (String × Place)
  | [] => some (draft.text, ⟨[], line, column, draft.gap.crossesLine⟩)
  | character :: rest =>
    if isBreak character then
      readPlainFrom inFlow floor (draft.addBreak character) (line + 1) 0 rest
    else if isSpace character then
      if character == '\t' && draft.gap.crossesLine && column < floor then none
      else readPlainFrom inFlow floor (draft.addSpace character) line (column + 1) rest
    else
      let place : Place := ⟨character :: rest, line, column, draft.gap.crossesLine⟩
      if endsPlain inFlow floor draft.gap place then some (draft.text, place)
      else if inFlow && character == ':' &&
          (rest.head?.any fun next ↦ isFlowIndicator next || next == '?') then none
      else readPlainFrom inFlow floor (draft.addCharacter character) line (column + 1) rest

/-- A plain scalar, whose further lines are indented to `floor` at least, and the place after it and
the gap behind it. -/
def readPlain (place : Place) (inFlow : Bool) (floor : Nat) : Option (String × Place) :=
  readPlainFrom inFlow floor .empty place.line place.column place.ahead

/-! ### Quoted scalars -/

/-- A scalar in single quotes, from behind the first one. A quote in it is written twice. -/
def readSingleFrom (draft : Draft) (line column : Nat) : List Char → Option (String × Place)
  | [] => none
  | '\'' :: '\'' :: rest => readSingleFrom (draft.addCharacter '\'') line (column + 2) rest
  | character :: rest =>
    if character == '\'' then some (draft.fill.text, ⟨rest, line, column + 1, false⟩)
    else if isBreak character then readSingleFrom (draft.addBreak character) (line + 1) 0 rest
    else if isSpace character then
      readSingleFrom (draft.addSpace character) line (column + 1) rest
    else if (⟨character :: rest, line, column, false⟩ : Place).endsDocument then none
    else readSingleFrom (draft.addCharacter character) line (column + 1) rest

/-- How far the escape sequence at hand has been read: not begun, its backslash, or all but some of
the digits of a code point. -/
inductive Escape
  | unbegun
  | begun
  | digits (left value : Nat)

/-- What the character after a backslash stands for, unless a code point follows it. -/
def escaped? (character : Char) : Option Char :=
  [('0', '\x00'), ('a', '\x07'), ('b', '\x08'), ('t', '\t'), ('\t', '\t'), ('n', '\n'),
    ('v', '\x0b'), ('f', '\x0c'), ('r', '\r'), ('e', '\x1b'), (' ', ' '), ('"', '"'),
    ('/', '/'), ('\\', '\\'),
    ('N', '\u0085'), ('_', '\u00a0'), ('L', '\u2028'), ('P', '\u2029')].lookup character

/-- How many digits of a code point follow a backslash and a character. -/
def codeLength? (character : Char) : Option Nat :=
  [('x', 2), ('u', 4), ('U', 8)].lookup character

/-- A scalar in double quotes, from behind the first one. -/
def readDoubleFrom (escape : Escape) (draft : Draft) (line column : Nat) :
    List Char → Option (String × Place)
  | [] => none
  | character :: rest =>
    match escape with
    | .unbegun =>
      if character == '"' then some (draft.fill.text, ⟨rest, line, column + 1, false⟩)
      else if isBreak character then
        readDoubleFrom .unbegun (draft.addBreak character) (line + 1) 0 rest
      else if isSpace character then
        readDoubleFrom .unbegun (draft.addSpace character) line (column + 1) rest
      else if (⟨character :: rest, line, column, false⟩ : Place).endsDocument then none
      else if character == '\\' then readDoubleFrom .begun draft line (column + 1) rest
      else readDoubleFrom .unbegun (draft.addCharacter character) line (column + 1) rest
    | .begun =>
      if isBreak character then readDoubleFrom .unbegun draft.hideBreak (line + 1) 0 rest
      else
        match escaped? character, codeLength? character with
        | some meant, _ =>
          readDoubleFrom .unbegun (draft.addCharacter meant) line (column + 1) rest
        | none, some length => readDoubleFrom (.digits length 0) draft line (column + 1) rest
        | none, none => none
    | .digits left value =>
      match Numeral.digitValue? 16 character with
      | none => none
      | some digit =>
        let code := value * 16 + digit
        if 1 < left then readDoubleFrom (.digits (left - 1) code) draft line (column + 1) rest
        else if code.isValidChar then
          readDoubleFrom .unbegun (draft.addCharacter (Char.ofNat code)) line (column + 1) rest
        else none

/-- A quoted scalar at its first quote, and the place after its last one. -/
def readQuoted (place : Place) : Option (String × Place) :=
  match place.ahead with
  | '\'' :: rest => readSingleFrom .empty place.line (place.column + 1) rest
  | '"' :: rest => readDoubleFrom .unbegun .empty place.line (place.column + 1) rest
  | _ => none

end Aout.Yaml
