import EcmaScript.Text.Classes

/-!
Punctuators: delimiters and operators made of punctuation.

The scanner takes the longest punctuator that begins at the cursor. The candidates for a first
character are listed longest first, so the first candidate whose spelling is there is the longest.
-/

namespace EcmaScript

/-- A delimiter or an operator. -/
inductive Punctuator where
  | lParen | rParen | lBrace | rBrace | lBracket | rBracket | semicolon | comma | dot | spread
  | optionalChain | colon | question | assign | arrow | plus | minus | star | slash | percent
  | starStar | eqEq | eqEqEq | notEq | notEqEq | lt | ltEq | gt | gtEq | andAnd | orOr
  | nullishCoalesce | not | and | or | xor | tilde | ltLt | gtGt | gtGtGt | plusEq | minusEq
  | starEq | slashEq | percentEq | starStarEq | andEq | orEq | xorEq | ltLtEq | gtGtEq | gtGtGtEq
  | andAndEq | orOrEq | nullishCoalesceEq | plusPlus | minusMinus
deriving DecidableEq

namespace Punctuator

def spelling : Punctuator → String
  | .lParen => "("
  | .rParen => ")"
  | .lBrace => "\x7b"
  | .rBrace => "\x7d"
  | .lBracket => "["
  | .rBracket => "]"
  | .semicolon => ";"
  | .comma => ","
  | .dot => "."
  | .spread => "..."
  | .optionalChain => "?."
  | .colon => ":"
  | .question => "?"
  | .assign => "="
  | .arrow => "=>"
  | .plus => "+"
  | .minus => "-"
  | .star => "*"
  | .slash => "/"
  | .percent => "%"
  | .starStar => "**"
  | .eqEq => "=="
  | .eqEqEq => "==="
  | .notEq => "!="
  | .notEqEq => "!=="
  | .lt => "<"
  | .ltEq => "<="
  | .gt => ">"
  | .gtEq => ">="
  | .andAnd => "&&"
  | .orOr => "||"
  | .nullishCoalesce => "??"
  | .not => "!"
  | .and => "&"
  | .or => "|"
  | .xor => "^"
  | .tilde => "~"
  | .ltLt => "<<"
  | .gtGt => ">>"
  | .gtGtGt => ">>>"
  | .plusEq => "+="
  | .minusEq => "-="
  | .starEq => "*="
  | .slashEq => "/="
  | .percentEq => "%="
  | .starStarEq => "**="
  | .andEq => "&="
  | .orEq => "|="
  | .xorEq => "^="
  | .ltLtEq => "<<="
  | .gtGtEq => ">>="
  | .gtGtGtEq => ">>>="
  | .andAndEq => "&&="
  | .orOrEq => "||="
  | .nullishCoalesceEq => "??="
  | .plusPlus => "++"
  | .minusMinus => "--"

/-- Name of the punctuator in reports. -/
def name : Punctuator → String
  | .lParen => "LParen"
  | .rParen => "RParen"
  | .lBrace => "LBrace"
  | .rBrace => "RBrace"
  | .lBracket => "LBracket"
  | .rBracket => "RBracket"
  | .semicolon => "Semicolon"
  | .comma => "Comma"
  | .dot => "Dot"
  | .spread => "Spread"
  | .optionalChain => "OptionalChain"
  | .colon => "Colon"
  | .question => "Question"
  | .assign => "Assign"
  | .arrow => "Arrow"
  | .plus => "Plus"
  | .minus => "Minus"
  | .star => "Star"
  | .slash => "Slash"
  | .percent => "Percent"
  | .starStar => "StarStar"
  | .eqEq => "EqEq"
  | .eqEqEq => "EqEqEq"
  | .notEq => "NotEq"
  | .notEqEq => "NotEqEq"
  | .lt => "Lt"
  | .ltEq => "LtEq"
  | .gt => "Gt"
  | .gtEq => "GtEq"
  | .andAnd => "AndAnd"
  | .orOr => "OrOr"
  | .nullishCoalesce => "NullishCoalesce"
  | .not => "Not"
  | .and => "And"
  | .or => "Or"
  | .xor => "Xor"
  | .tilde => "Tilde"
  | .ltLt => "LtLt"
  | .gtGt => "GtGt"
  | .gtGtGt => "GtGtGt"
  | .plusEq => "PlusEq"
  | .minusEq => "MinusEq"
  | .starEq => "StarEq"
  | .slashEq => "SlashEq"
  | .percentEq => "PercentEq"
  | .starStarEq => "StarStarEq"
  | .andEq => "AndEq"
  | .orEq => "OrEq"
  | .xorEq => "XorEq"
  | .ltLtEq => "LtLtEq"
  | .gtGtEq => "GtGtEq"
  | .gtGtGtEq => "GtGtGtEq"
  | .andAndEq => "AndAndEq"
  | .orOrEq => "OrOrEq"
  | .nullishCoalesceEq => "NullishCoalesceEq"
  | .plusPlus => "PlusPlus"
  | .minusMinus => "MinusMinus"

/-- The punctuators that begin with the given character, longest first. -/
def candidates : Char → List Punctuator
  | '(' => [.lParen]
  | ')' => [.rParen]
  | '{' => [.lBrace]
  | '}' => [.rBrace]
  | '[' => [.lBracket]
  | ']' => [.rBracket]
  | ';' => [.semicolon]
  | ',' => [.comma]
  | '.' => [.spread, .dot]
  | '?' => [.nullishCoalesceEq, .optionalChain, .nullishCoalesce, .question]
  | ':' => [.colon]
  | '=' => [.eqEqEq, .arrow, .eqEq, .assign]
  | '+' => [.plusEq, .plusPlus, .plus]
  | '-' => [.minusEq, .minusMinus, .minus]
  | '*' => [.starStarEq, .starStar, .starEq, .star]
  | '/' => [.slashEq, .slash]
  | '%' => [.percentEq, .percent]
  | '!' => [.notEqEq, .notEq, .not]
  | '<' => [.ltLtEq, .ltEq, .ltLt, .lt]
  | '>' => [.gtGtGtEq, .gtGtGt, .gtGtEq, .gtEq, .gtGt, .gt]
  | '&' => [.andAndEq, .andAnd, .andEq, .and]
  | '|' => [.orOrEq, .orOr, .orEq, .or]
  | '^' => [.xorEq, .xor]
  | '~' => [.tilde]
  | _ => []

/-- Whether `p` may be read in front of `following`: an optional chain is not read in front of a
digit, where `?` opens a conditional and `.` a fraction. -/
def admits (p : Punctuator) (following : List Char) : Bool :=
  !(p == .optionalChain && following.head?.any isDecimalDigit)

def ofText? (text : List Char) : Option Punctuator :=
  (text.head?.elim [] candidates).find? fun p =>
    p.spelling.toList.isPrefixOf text && p.admits (text.drop p.spelling.length)

end Punctuator

end EcmaScript
