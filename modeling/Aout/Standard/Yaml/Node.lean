import Aout.Standard.Yaml.Token
/-!
The nodes of YAML documents. A node may be anchored under a number, and stand again wherever an
alias has that number (`Node.resolve`).
-/

set_option autoImplicit false
set_option relaxedAutoImplicit false

namespace Aout.Yaml

/-- The value that a document holds. How a scalar is written matters, and its tag, if it has one,
because a scalar may be other than text. -/
inductive Node
  | scalar (style : Style) (tag? : Option String) (text : String)
  | sequence (items : List Node)
  | mapping (entries : List (Node × Node))
  | anchored (number : Nat) (node : Node)
  | aliasOf (number : Nat)

namespace Node

/-- What stands where nothing is written. -/
def absent : Node := scalar .plain none ""

/-! ### Anchors -/

mutual

/-- The anchored nodes in a node with their numbers, last one first, in front of others. -/
def anchors (others : List (Nat × Node)) : Node → List (Nat × Node)
  | scalar .. => others
  | sequence items => anchorsOfItems others items
  | mapping entries => anchorsOfEntries others entries
  | anchored number node => node.anchors ((number, node) :: others)
  | aliasOf _ => others

def anchorsOfItems (others : List (Nat × Node)) : List Node → List (Nat × Node)
  | [] => others
  | item :: rest => anchorsOfItems (item.anchors others) rest

def anchorsOfEntries (others : List (Nat × Node)) : List (Node × Node) → List (Nat × Node)
  | [] => others
  | (key, value) :: rest => anchorsOfEntries (value.anchors (key.anchors others)) rest

end

mutual

/-- The node without anchors, and with what its aliases stand for in their places. What stands there
keeps anchors and aliases of its own. -/
def substitute (anchors : List (Nat × Node)) : Node → Option Node
  | scalar style tag? text => some (scalar style tag? text)
  | sequence items => (substituteItems anchors items).map sequence
  | mapping entries => (substituteEntries anchors entries).map mapping
  | anchored _ node => node.substitute anchors
  | aliasOf number => anchors.lookup number

def substituteItems (anchors : List (Nat × Node)) : List Node → Option (List Node)
  | [] => some []
  | item :: rest => do
    return (← item.substitute anchors) :: (← substituteItems anchors rest)

def substituteEntries (anchors : List (Nat × Node)) :
    List (Node × Node) → Option (List (Node × Node))
  | [] => some []
  | (key, value) :: rest => do
    let entry := (← key.substitute anchors, ← value.substitute anchors)
    return entry :: (← substituteEntries anchors rest)

end

/-- The node with what its aliases stand for: of the nodes anchored under a number the last one,
wherever the alias is. -/
def resolve (node : Node) : Option Node :=
  node.substitute (node.anchors [])

end Node

end Aout.Yaml
