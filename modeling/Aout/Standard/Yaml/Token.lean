import Aout.Standard.Yaml.Directive
import Aout.Standard.Yaml.Scalar
/-!
The tokens of a YAML text. Those that open and close block collections stand for indentation, and
the one in front of a key may stand for a question mark. Anchors and aliases have numbers for names.
-/

set_option autoImplicit false
set_option relaxedAutoImplicit false

namespace Aout.Yaml

inductive Token
  | directive (directive : Directive)
  | documentStart
  | documentEnd
  | scalar (style : Style) (text : String)
  | aliasOf (number : Nat)
  | anchor (number : Nat)
  | tag (tag : Tag)
  | openSequence
  | openMapping
  | closeBlock
  | dash
  | key
  | value
  | openBracket
  | closeBracket
  | openBrace
  | closeBrace
  | comma

end Aout.Yaml
