import Aout.Standard.Yaml.Scalar
/-!
Block scalars. A header, which is one line, is followed by lines that are indented alike. Behind a
bar they are kept as they are; behind an angle bracket, a line break between two of them becomes a
gap between words, unless one of the two starts with a further blank.
-/

set_option autoImplicit false
set_option relaxedAutoImplicit false

namespace Aout.Yaml

/-- What becomes of the line breaks at the end: all are dropped, all but the first, or none. -/
inductive Chomping
  | strip
  | clip
  | keep

namespace Chomping

/-- The breaks that are left of a gap, last one first. -/
def remains : Chomping → Gap → List Char
  | keep, breaks => breaks.kept
  | clip, .breaks first? _ => first?.toList
  | _, _ => []

end Chomping

/-- The header of a block scalar. An indentation counts from that of the collection around it. -/
structure BlockHeader where
  style : Style
  chomping? : Option Chomping
  indentation? : Option Nat

namespace BlockHeader

/-- A header before its sign and its digit have been read. -/
def ofIndicator? : Char → Option BlockHeader
  | '|' => some ⟨.literal, none, none⟩
  | '>' => some ⟨.folded, none, none⟩
  | _ => none

/-- Read a sign and a digit, either of which may be missing, in any order. -/
def readIndicators (header : BlockHeader) : List Char → Option (BlockHeader × List Char)
  | [] => some (header, [])
  | character :: rest =>
    let chomping? := ([('-', .strip), ('+', .keep)] : List (Char × Chomping)).lookup character
    match chomping?, Numeral.digitValue? 10 character with
    | some chomping, _ =>
      if header.chomping?.isSome then none
      else readIndicators { header with chomping? := some chomping } rest
    | none, some digit =>
      if digit = 0 ∨ header.indentation?.isSome then none
      else readIndicators { header with indentation? := some digit } rest
    | none, none => some (header, character :: rest)

end BlockHeader

/-- How far the first line that is not blank is indented, or a line before it if that is further. -/
def indentationOf (greatest column : Nat) : List Char → Option Nat
  | [] => some (max greatest column)
  | character :: rest =>
    if character == ' ' then indentationOf greatest (column + 1) rest
    else if character == '\t' then none
    else if isBreak character then indentationOf (max greatest column) 0 rest
    else some (max greatest column)

/-- The lines of a block scalar from a character on, which may be inside one of them. `isIndented`
tells whether the line before or around it starts with a blank. -/
def readLines (folds : Bool) (indentation : Nat) (isInside isIndented : Bool) (draft : Draft)
    (line column : Nat) : List Char → Option (Draft × Place)
  | [] => some (draft, ⟨[], line, column, true⟩)
  | character :: rest =>
    if isBreak character then
      let gap := if isInside then .breaks (some character) [] else draft.gap.addBreak character
      readLines folds indentation false isIndented ⟨draft.reversed, gap⟩ (line + 1) 0 rest
    else if isInside then
      readLines folds indentation true isIndented ⟨character :: draft.reversed, draft.gap⟩ line
        (column + 1) rest
    else if indentation ≤ column then
      let gap :=
        if folds && !isIndented && !isSpace character then draft.gap.filled else draft.gap.kept
      readLines folds indentation true (isSpace character)
        ⟨character :: (gap ++ draft.reversed), .breaks none []⟩ line (column + 1) rest
    else if character == ' ' then
      readLines folds indentation false isIndented draft line (column + 1) rest
    else if character == '\t' then none
    else some (draft, ⟨character :: rest, line, column, true⟩)

def startsBlockScalar (characters : List Char) : Bool :=
  (characters.head?.bind BlockHeader.ofIndicator?).isSome

/-- A block scalar at its indicator, in a collection whose contents are indented to `floor`, and the
place after it. -/
def readBlockScalar (place : Place) (floor : Nat) : Option (Style × String × Place) := do
  let (header, rest) ← (← BlockHeader.ofIndicator? (← place.ahead.head?)).readIndicators
    place.ahead.tail
  let remark := (rest.takeWhile (!isBreak ·)).dropWhile isSpace
  if remark.head?.all (· == '#') then
    let lines := (rest.dropWhile (!isBreak ·)).tail
    let indentation ← match header.indentation? with
      | some indentation => some (floor - 1 + indentation)
      | none => (indentationOf 0 0 lines).map fun indentation ↦ max indentation (max floor 1)
    let (draft, after) ← readLines (header.style == .folded) indentation false false
      ⟨[], .breaks none []⟩ (place.line + 1) 0 lines
    let tail := (header.chomping?.getD .clip).remains draft.gap
    return (header.style, String.ofList (tail ++ draft.reversed).reverse, after)
  else none

end Aout.Yaml
