import Aout.Standard.Yaml.Node.Reading
import Aout.Standard.Yaml.Token.Reading
/-!
YAML documents. A text holds one document, and an empty text holds the empty scalar. There may be
directives in front of the line that starts a document.
-/

set_option autoImplicit false
set_option relaxedAutoImplicit false

namespace Aout.Yaml.Node

/-- The handles of tags that directives tell of, each of them once, and the tokens behind. The
version is told once too. -/
def readDirectives (hasVersion : Bool) (handles : Tag.Handles) :
    List Token → Option (Tag.Handles × List Token)
  | .directive .version :: rest => if hasVersion then none else readDirectives true handles rest
  | .directive (.handle name beginning) :: rest =>
    if (handles.lookup name).isSome then none
    else readDirectives hasVersion ((name, beginning) :: handles) rest
  | rest => some (handles, rest)

def isDocumentEnd : Token → Bool
  | .documentEnd => true
  | _ => false

/-- Enough fuel for some tokens: of six calls inside one another, one at least passes a token. -/
def fuelFor (tokens : List Token) : Nat := 6 * tokens.length + 6

/-- What a document holds behind its directives, and the tokens behind. Only behind the line that
starts a document may its contents be left out, unless there are no tokens at all. -/
def readContents (handles : Tag.Handles) (tokens : List Token) : Option (Node × List Token) :=
  match tokens with
  | [] => some (absent, [])
  | .documentStart :: rest =>
    if rest.head?.all isDocumentEnd then some (absent, rest)
    else readNode handles (fuelFor rest) .dashed rest
  | _ => readNode handles (fuelFor tokens) .dashed tokens

def isDirective : Token → Bool
  | .directive _ => true
  | _ => false

def isDocumentStart : Token → Bool
  | .documentStart => true
  | _ => false

/-- The node of the one document that tokens make up. -/
def ofTokens? (tokens : List Token) : Option Node := do
  let (handles, start) ← readDirectives false [] tokens
  if tokens.head?.any isDirective && !start.head?.any isDocumentStart then none
  else
    let (node, rest) ← readContents handles start
    if rest.all isDocumentEnd then node.resolve else none

/-- The node that a text holds. -/
def read? (text : String) : Option Node := do
  ofTokens? (← Token.ofText? text)

end Aout.Yaml.Node
