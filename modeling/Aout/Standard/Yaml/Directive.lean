import Aout.Standard.Yaml.Tag
/-!
Directives, which stand before a document, each in a line of its own behind a `%`: the version of
YAML that it is written in, which is 1.1 or 1.2, and what a handle of tags stands for.
-/

set_option autoImplicit false
set_option relaxedAutoImplicit false

namespace Aout.Yaml

inductive Directive
  | version
  | handle (name beginning : String)

namespace Directive

/-- Past a number of at most nine digits that is one of some digits, leading zeros apart. -/
def pastNumber? (allowed characters : List Char) : Option (List Char) :=
  let digits := characters.takeWhile Char.isDigit
  match digits.dropWhile (· == '0') with
  | [digit] =>
    if digits.length ≤ 9 ∧ digit ∈ allowed then some (characters.drop digits.length) else none
  | _ => none

/-- What follows the name of a directive, and the characters after it. -/
def readParameters (name : String) (characters : List Char) :
    Option (Directive × List Char) :=
  if name = "YAML" then do
    let minor ← pastNumber? ['1'] characters
    if minor.head? = some '.' then return (version, ← pastNumber? ['1', '2'] minor.tail) else none
  else if name = "TAG" ∧ characters.head? = some '!' then
    let (name, rest) := (readHandle? characters.tail).getD ([], characters.tail)
    if rest.head?.any isSpace then do
      let (beginning, length, rest) ← readTagText true (rest.dropWhile isSpace)
      if length = 0 ∨ ¬ isSetOff rest then none
      else return (handle (String.ofList ('!' :: name)) beginning, rest)
    else none
  else none

/-- A directive at its first character, and the start of the next line. Nothing but a comment may
follow the directive on its own line, and no key may start behind it. -/
def read (place : Place) : Option (Directive × Place) := do
  let name := place.ahead.tail.takeWhile isNameCharacter
  let rest := place.ahead.tail.drop name.length
  if isSetOff rest then
    let (directive, rest) ← readParameters (String.ofList name) (rest.dropWhile isSpace)
    let remark := rest.dropWhile isSpace
    if remark.head?.all fun character ↦ character == '#' || isBreak character then
      return (directive, ⟨(remark.dropWhile (!isBreak ·)).tail, place.line + 1, 0, false⟩)
    else none
  else none

end Directive

end Aout.Yaml
