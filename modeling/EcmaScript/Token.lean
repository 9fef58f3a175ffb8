import EcmaScript.Binary64
import EcmaScript.Token.Keyword
import EcmaScript.Token.Punctuator

/-!
Tokens.

String and template tokens carry their decoded text, in which a lone surrogate escape is the
replacement character. A template with substitutions is a head, middles and a tail; the scanner
finds the later pieces, and regular expressions, only when the grammar asks for them.
-/

namespace EcmaScript

/-- A token of the lexical grammar. -/
inductive Token where
  /-- A word that is no keyword, and whether it was written with an escape. -/
  | identifier (name : String) (escaped : Bool)
  /-- A name behind a sigil, without the sigil; possibly empty. -/
  | privateName (name : String)
  | number (value : Binary64)
  /-- An integer with the suffix `n`, without the suffix. -/
  | bigInt (text : String)
  | string (value : String)
  /-- A template without substitutions. -/
  | templateLiteral (cooked : String)
  /-- A template up to its first substitution. -/
  | templateHead (cooked : String)
  /-- A template between two substitutions. -/
  | templateMiddle (cooked : String)
  /-- A template from its last substitution on. -/
  | templateTail (cooked : String)
  | regExp (pattern flags : String)
  | keyword (word : Keyword)
  | punctuator (symbol : Punctuator)
  | endOfInput
deriving DecidableEq

namespace Token

def isIdentifierLike : Token → Bool
  | .identifier _ _ => true
  | .keyword word => word.isContextual
  | _ => false

/-- Whether a modifier word in front of this token is the property name itself. -/
def endsPropertyName : Token → Bool
  | .endOfInput => true
  | .punctuator symbol =>
    match symbol with
    | .lParen | .assign | .semicolon | .comma | .colon | .rBrace => true
    | _ => false
  | _ => false

end Token

end EcmaScript
