import EcmaScript.Scan.Numeral
import EcmaScript.Scan.RegExp
import EcmaScript.Scan.Text
import EcmaScript.Scan.Trivia
import EcmaScript.Scan.Word

/-!
One token at the cursor.

Token rules are tried first, in order: a rule is given the next character and either reads the token
or declines, and then it should leave the cursor where it is. Otherwise the character at the cursor
decides which kind of token is read.
-/

namespace EcmaScript

/-- A scanning rule that may claim the token in front of a character; `none` declines it. -/
abbrev TokenRule := Char → Scan (Option Token)

namespace TokenRule

/-- Reads `mark` and the word behind it as a private name, which is empty if there is no word. -/
def sigil (mark : Char) : TokenRule := fun first => do
  if first == mark then
    let _ ← Scan.bump
    return some (.privateName (String.ofList (← Scan.word)))
  else
    return none

/-- The rule for private names of classes. -/
def privateName : TokenRule := sigil '#'

/-- Reads `mark` and refuses it, at the position behind it, as a grammar error with this text. -/
def refuse (mark : Char) (text : String) : TokenRule := fun first => do
  if first == mark then
    let _ ← Scan.bump
    throw (.error (.located (.custom .syntaxError text) (← Scan.here)))
  else
    return none

end TokenRule

namespace Scan

/-- Reads the token that begins with `first`, the next character, by the rules of the language. -/
def languageToken (first : Char) (start : Position) : Scan Token := do
  let rest := (← get).rest
  if first == '.' && rest.tail.head?.any isDecimalDigit then
    skip 1
    numericLiteral '.' start
  else if let some symbol := Punctuator.ofText? rest then
    skip symbol.spelling.length
    return .punctuator symbol
  else if isDecimalDigit first then
    skip 1
    numericLiteral first start
  else if first == '"' || first == '\'' then
    skip 1
    stringLiteral first start
  else if first == '\x60' then
    skip 1
    templateStart start
  else if isIdStart first || first == '\\' then
    identifier first start
  else
    skip 1
    fail (.unexpectedCharacter first) start

def claimed (first : Char) : List TokenRule → Scan (Option Token)
  | [] => return none
  | rule :: rules => do
    match ← rule first with
    | some token => return some token
    | none => claimed first rules

/-- Reads the token at the cursor, which stands behind all trivia. -/
def token (rules : List TokenRule) : Scan Token := do
  match ← peek with
  | none => return .endOfInput
  | some first =>
    let start ← here
    match ← claimed first rules with
    | some token => return token
    | none => languageToken (← nextChar) start

end Scan

end EcmaScript
