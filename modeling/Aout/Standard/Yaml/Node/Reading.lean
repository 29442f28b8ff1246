import Aout.Standard.Yaml.Node
/-!
How tokens are read as nodes. A node may have an anchor and a tag in front of it, in any order. A
node may be left out where something shows that it is: in an entry of a collection, or behind an
anchor or a tag.
-/

set_option autoImplicit false
set_option relaxedAutoImplicit false

namespace Aout.Yaml.Node

/-! ### Properties -/

/-- What stands in front of a node. -/
structure Properties where
  anchor? : Option Nat
  tag? : Option String

namespace Properties

def empty : Properties := ⟨none, none⟩

def isEmpty (properties : Properties) : Bool :=
  properties.anchor?.isNone && properties.tag?.isNone

/-- The node behind the properties, under the number of the anchor. -/
def apply (properties : Properties) (node : Node) : Node :=
  match properties.anchor? with
  | some number => anchored number node
  | none => node

/-- An anchor and a tag at most, and the tokens behind them. -/
def read (handles : Tag.Handles) : List Token → Option (Properties × List Token)
  | .anchor number :: .tag tag :: rest | .tag tag :: .anchor number :: rest => do
    return (⟨some number, some (← tag.resolve? handles)⟩, rest)
  | .anchor number :: rest => some (⟨some number, none⟩, rest)
  | .tag tag :: rest => do return (⟨none, some (← tag.resolve? handles)⟩, rest)
  | rest => some (empty, rest)

end Properties

/-! ### Entries -/

/-- What kind of entry a node is of: one in brackets or braces, one behind a dash, or one of a block
mapping. What a document holds counts as an item behind a dash. -/
inductive Spot
  | bracket
  | brace
  | dashed
  | keyed
  deriving DecidableEq

namespace Spot

def inFlow (spot : Spot) : Bool :=
  spot == bracket || spot == brace

/-- Whether a node is left out in front of a token. -/
def isEmptyBefore : Spot → Token → Bool
  | bracket, .value | bracket, .comma | bracket, .closeBracket => true
  | brace, .value | brace, .comma | brace, .closeBrace => true
  | dashed, .dash | dashed, .key | dashed, .value | dashed, .closeBlock => true
  | keyed, .key | keyed, .value | keyed, .closeBlock => true
  | _, _ => false

/-- Whether a token ends the collection in flow style around. -/
def isClosedBy : Spot → Token → Bool
  | bracket, .closeBracket | brace, .closeBrace => true
  | _, _ => false

end Spot

/-- Whether a sequence starts here that is not indented. -/
def startsItem : List Token → Bool
  | .dash :: _ => true
  | _ => false

/-- An entry in brackets. One with a value is a mapping of its own. -/
def ofBracketEntry : Node × Option Node → Node
  | (item, none) => item
  | (key, some value) => mapping [(key, value)]

/-- An entry in braces, which may have no value. -/
def ofBraceEntry (entry : Node × Option Node) : Node × Node :=
  (entry.1, entry.2.getD absent)

/-! ### Nodes -/

mutual

/-- A node, and the tokens after it. -/
def readNode (handles : Tag.Handles) : (fuel : Nat) → Spot → List Token → Option (Node × List Token)
  | 0, _, _ => none
  | fuel + 1, spot, tokens =>
    match tokens with
    | .aliasOf number :: rest => some (aliasOf number, rest)
    | _ => do
      let (properties, rest) ← Properties.read handles tokens
      let (node, rest) ← readContent handles fuel spot properties rest
      return (properties.apply node, rest)

/-- What stands behind some properties. Block collections do not stand in flow style, and sequences
that are not indented stand in mappings only. -/
def readContent (handles : Tag.Handles) :
    (fuel : Nat) → Spot → Properties → List Token → Option (Node × List Token)
  | 0, _, _, _ => none
  | fuel + 1, spot, properties, tokens =>
    match tokens, spot.inFlow with
    | .scalar style text :: rest, _ => some (scalar style properties.tag? text, rest)
    | .openBracket :: rest, _ => do
      let (entries, rest) ← readFlow handles fuel .bracket rest
      return (sequence (entries.map ofBracketEntry), rest)
    | .openBrace :: rest, _ => do
      let (entries, rest) ← readFlow handles fuel .brace rest
      return (mapping (entries.map ofBraceEntry), rest)
    | .openSequence :: rest, false => do
      match ← readItems handles fuel rest with
      | (items, .closeBlock :: rest) => return (sequence items, rest)
      | _ => none
    | .openMapping :: rest, false => do
      let (entries, rest) ← readEntries handles fuel rest
      return (mapping entries, rest)
    | _, _ =>
      if spot == .keyed && startsItem tokens then do
        let (items, rest) ← readItems handles fuel tokens
        return (sequence items, rest)
      else if properties.isEmpty then none
      else some (absent, tokens)

/-- A node that may be left out in its spot. -/
def readOrSkip (handles : Tag.Handles) :
    (fuel : Nat) → Spot → List Token → Option (Node × List Token)
  | 0, _, _ => none
  | fuel + 1, spot, tokens =>
    if tokens.head?.any spot.isEmptyBefore then some (absent, tokens)
    else readNode handles fuel spot tokens

/-- A key behind its mark, and the value behind its colon. In brackets, the token that shows that
the key is left out counts as the key. -/
def readPair (handles : Tag.Handles) :
    (fuel : Nat) → Spot → List Token → Option ((Node × Node) × List Token)
  | 0, _, _ => none
  | fuel + 1, spot, tokens => do
    let (key, rest) ←
      if spot == .bracket && tokens.head?.any spot.isEmptyBefore then some (absent, tokens.tail)
      else readOrSkip handles fuel spot tokens
    match rest with
    | .value :: rest =>
      let (value, rest) ← readOrSkip handles fuel spot rest
      return ((key, value), rest)
    | _ => return ((key, absent), rest)

/-- The entries in brackets or braces, and the tokens behind. -/
def readFlow (handles : Tag.Handles) :
    (fuel : Nat) → Spot → List Token → Option (List (Node × Option Node) × List Token)
  | 0, _, _ => none
  | fuel + 1, spot, tokens =>
    if tokens.head?.any spot.isClosedBy then some ([], tokens.tail)
    else do
      let (entry, rest) ← match tokens with
        | .key :: rest =>
          (readPair handles fuel spot rest).map fun ((key, value), rest) ↦ ((key, some value), rest)
        | _ => (readNode handles fuel spot tokens).map fun (item, rest) ↦ ((item, none), rest)
      match rest with
      | .comma :: rest =>
        let (entries, rest) ← readFlow handles fuel spot rest
        return (entry :: entries, rest)
      | _ => if rest.head?.any spot.isClosedBy then some ([entry], rest.tail) else none

/-- The items behind dashes, and the tokens behind. -/
def readItems (handles : Tag.Handles) :
    (fuel : Nat) → List Token → Option (List Node × List Token)
  | 0, _ => none
  | fuel + 1, tokens =>
    match tokens with
    | .dash :: rest => do
      let (item, rest) ← readOrSkip handles fuel .dashed rest
      let (items, rest) ← readItems handles fuel rest
      return (item :: items, rest)
    | _ => some ([], tokens)

/-- The entries of a block mapping, and the tokens behind. -/
def readEntries (handles : Tag.Handles) :
    (fuel : Nat) → List Token → Option (List (Node × Node) × List Token)
  | 0, _ => none
  | fuel + 1, tokens =>
    match tokens with
    | .key :: rest => do
      let (entry, rest) ← readPair handles fuel .keyed rest
      let (entries, rest) ← readEntries handles fuel rest
      return (entry :: entries, rest)
    | .closeBlock :: rest => some ([], rest)
    | _ => none

end

end Aout.Yaml.Node
