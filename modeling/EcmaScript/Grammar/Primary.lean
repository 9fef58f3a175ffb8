import EcmaScript.Grammar.Literal

/-!
Primary expressions.

A name or a list in parentheses may turn out to be the parameters of an arrow function: that is
known only at the arrow, where the expressions read so far are re-read as patterns.
-/

namespace EcmaScript.Grammar

open Parse

variable {σ : Type}

def nextIsArrow : Parse σ Bool := do
  unless ← nextIs .arrow do return false
  return !(← newlineBefore)

/-- A token that is a literal by itself. -/
def literal (start : Position) (value : Literal) : Parse σ Expression := do
  skip
  return .literal value (← spanFrom start)

/-- A regular expression, at the slash that begins it. -/
def regExpLiteral (start : Position) : Parse σ Expression := do
  skip
  match ← lexing Lexing.rescanRegExp with
  | .regExp pattern flags => return .literal (.regExp pattern flags) (← spanFrom start)
  | _ => unexpectedAt start

/-- A name, or an arrow function with one parameter. -/
def identifierOrArrow (g : Grammar σ) (start : Position) : Parse σ Expression := do
  let (name, span) ← g.identifierReference
  if ← nextIsArrow then
    ensure ((← g.nameRules).checkBinding name span.start)
    g.arrowFunction start [.identifier name span] false
  else
    return .identifier name span

/-- `super`, in front of a call or a member access. -/
def superExpression (start : Position) : Parse σ Expression := do
  skip
  unless (← context).allowsSuper do fail .superOutsideMethod start
  match ← peek with
  | .punctuator .lParen | .punctuator .dot | .punctuator .lBracket =>
    return .super (← spanFrom start)
  | _ => unexpected

/-- `async` as a modifier of a function or of an arrow function with one parameter, or as a
name. -/
def asyncAtom (g : Grammar σ) (start : Position) : Parse σ Expression := do
  let (second, newline) ← peekSecond
  if !newline && second == .keyword .function then
    skip
    g.functionExpression start true
  else if !newline && second.isIdentifierLike then
    skip
    let (name, span) ← g.bindingIdentifier
    unless ← nextIsArrow do unexpected
    g.arrowFunction start [.identifier name span] true
  else
    g.identifierOrArrow start

/-- What has been read of a list in parentheses, last item first. -/
structure ParenRead where
  items : List Expression := []
  rest : Option Pattern := none
  /-- Whether the last comma stands in front of the closing parenthesis. -/
  trailingComma : Bool := false

def parenItemsRound (g : Grammar σ) (list : ParenRead) : Parse σ (Round ParenRead ParenRead) := do
  if ← nextIs .rParen then
    return .stop list
  if ← nextIs .spread then
    return .stop { list with rest := some (← g.restElement) }
  let list := { list with items := (← g.assignment) :: list.items }
  if ← accept .comma then
    return .again { list with trailingComma := ← nextIs .rParen }
  return .stop list

def parenItems (g : Grammar σ) : Parse σ ParenRead := g.loop g.parenItemsRound {}

/-- A parenthesized expression, or an arrow function, behind the opening parenthesis. -/
def parenRest (g : Grammar σ) (start : Position) : Parse σ Expression := do
  let innerStart ← startPosition
  let list ← g.parenItems
  let inner : Span := ⟨innerStart, ← lastEnd⟩
  expect .rParen
  if ← nextIsArrow then
    let rules ← g.nameRules
    let params ← ensure (list.items.reverse.mapM (·.toPattern rules .binding))
    g.arrowFunction start (params ++ list.rest.toList) false
  else if list.rest.isSome || list.trailingComma then
    unexpected
  else
    match list.items with
    | [] => unexpected
    | [item] => return item
    | items => return .sequence items.reverse inner

def parenthesized (g : Grammar σ) (start : Position) : Parse σ Expression := do
  expect .lParen
  allowingIn (g.parenRest start)

def classExpression (g : Grammar σ) (start : Position) : Parse σ Expression := do
  let (name, definition) ← g.classDefinition start false
  return .class_ name definition

/-- A primary expression that begins with the given keyword. -/
def keywordAtom (g : Grammar σ) (start : Position) : Keyword → Parse σ Expression
  | .this => do
    skip
    return .this (← spanFrom start)
  | .super => superExpression start
  | .function => g.functionExpression start false
  | .async => g.asyncAtom start
  | .class_ => g.classExpression start
  | .true_ => literal start (.boolean true)
  | .false_ => literal start (.boolean false)
  | .null => literal start .null
  | word => if word.isContextual then g.identifierOrArrow start else unexpected

/-- A primary expression that begins with the given punctuator. -/
def punctuatorAtom (g : Grammar σ) (start : Position) : Punctuator → Parse σ Expression
  | .slash | .slashEq => regExpLiteral start
  | .lParen => g.parenthesized start
  | .lBracket => g.arrayLiteral start
  | .lBrace => g.objectLiteral start
  | _ => unexpected

/-- A primary expression. -/
def atom (g : Grammar σ) : Parse σ Expression := do
  let start ← startPosition
  match ← peek with
  | .keyword word => g.keywordAtom start word
  | .punctuator symbol => g.punctuatorAtom start symbol
  | .number value => literal start (.number value)
  | .bigInt text => literal start (.bigInt text)
  | .string value => literal start (.string value)
  | .templateLiteral _ | .templateHead _ => g.templateLiteral
  | .identifier _ _ => g.identifierOrArrow start
  | _ => unexpected

/-- A primary expression, reported to the hooks with the token behind it. -/
def primary (g : Grammar σ) : Parse σ Expression := do
  let value ← g.atom
  let following ← peek
  hook (g.hooks.afterAtom value following)
  return value

end EcmaScript.Grammar
