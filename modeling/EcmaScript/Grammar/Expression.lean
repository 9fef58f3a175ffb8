import EcmaScript.Grammar.Primary

/-!
Member accesses and calls, unary, binary, conditional and assignment expressions.

An arrow function is a complete assignment expression: no operator, access or call applies to it.
-/

namespace EcmaScript

/-- An operator with two operands, of either sort. -/
inductive InfixOperator where
  | binary (operator : BinaryOperator)
  | logical (operator : LogicalOperator)
deriving DecidableEq

namespace InfixOperator

def join (operator : InfixOperator) (left right : Expression) (span : Span) : Expression :=
  match operator with
  | .binary operator => .binary operator left right span
  | .logical operator => .logical operator left right span

/-- How tightly the operator binds. -/
def precedence : InfixOperator → Nat
  | .logical .nullishCoalesce => 1
  | .logical .or => 1
  | .logical .and => 2
  | .binary .bitwiseOr => 3
  | .binary .bitwiseXor => 4
  | .binary .bitwiseAnd => 5
  | .binary .eq => 6
  | .binary .notEq => 6
  | .binary .strictEq => 6
  | .binary .strictNotEq => 6
  | .binary .lt => 7
  | .binary .gt => 7
  | .binary .ltEq => 7
  | .binary .gtEq => 7
  | .binary .instanceof => 7
  | .binary .in_ => 7
  | .binary .leftShift => 8
  | .binary .rightShift => 8
  | .binary .unsignedRightShift => 8
  | .binary .add => 9
  | .binary .sub => 9
  | .binary .mul => 10
  | .binary .div => 10
  | .binary .mod => 10
  | .binary .exp => 11

/-- The least precedence in the right operand; only exponentiation groups to the right. -/
def rightPrecedence (operator : InfixOperator) : Nat :=
  if operator == .binary .exp then operator.precedence else operator.precedence + 1

def ofPunctuator? : Punctuator → Option InfixOperator
  | .nullishCoalesce => some (.logical .nullishCoalesce)
  | .orOr => some (.logical .or)
  | .andAnd => some (.logical .and)
  | .or => some (.binary .bitwiseOr)
  | .xor => some (.binary .bitwiseXor)
  | .and => some (.binary .bitwiseAnd)
  | .eqEq => some (.binary .eq)
  | .notEq => some (.binary .notEq)
  | .eqEqEq => some (.binary .strictEq)
  | .notEqEq => some (.binary .strictNotEq)
  | .lt => some (.binary .lt)
  | .gt => some (.binary .gt)
  | .ltEq => some (.binary .ltEq)
  | .gtEq => some (.binary .gtEq)
  | .ltLt => some (.binary .leftShift)
  | .gtGt => some (.binary .rightShift)
  | .gtGtGt => some (.binary .unsignedRightShift)
  | .plus => some (.binary .add)
  | .minus => some (.binary .sub)
  | .star => some (.binary .mul)
  | .slash => some (.binary .div)
  | .percent => some (.binary .mod)
  | .starStar => some (.binary .exp)
  | _ => none

/-- The operator that the token is, if it is one; `in` is one only where it is allowed. -/
def ofToken? (allowIn : Bool) : Token → Option InfixOperator
  | .punctuator symbol => ofPunctuator? symbol
  | .keyword .instanceof => some (.binary .instanceof)
  | .keyword .in_ => if allowIn then some (.binary .in_) else none
  | _ => none

end InfixOperator

def UnaryOperator.ofToken? : Token → Option UnaryOperator
  | .punctuator .minus => some .minus
  | .punctuator .plus => some .plus
  | .punctuator .not => some .not
  | .punctuator .tilde => some .bitwiseNot
  | .keyword .typeof => some .typeof
  | .keyword .void => some .void
  | .keyword .delete => some .delete
  | _ => none

def UpdateOperator.ofToken? : Token → Option UpdateOperator
  | .punctuator .plusPlus => some .increment
  | .punctuator .minusMinus => some .decrement
  | _ => none

def AssignmentOperator.ofToken? : Token → Option AssignmentOperator
  | .punctuator .assign => some .assign
  | .punctuator .plusEq => some .add
  | .punctuator .minusEq => some .sub
  | .punctuator .starEq => some .mul
  | .punctuator .slashEq => some .div
  | .punctuator .percentEq => some .mod
  | .punctuator .starStarEq => some .exp
  | .punctuator .andEq => some .bitAnd
  | .punctuator .orEq => some .bitOr
  | .punctuator .xorEq => some .bitXor
  | .punctuator .ltLtEq => some .leftShift
  | .punctuator .gtGtEq => some .rightShift
  | .punctuator .gtGtGtEq => some .unsignedRightShift
  | .punctuator .andAndEq => some .logicalAnd
  | .punctuator .orOrEq => some .logicalOr
  | .punctuator .nullishCoalesceEq => some .nullishCoalesce
  | _ => none

/-- Whether a `yield` in front of the token has no argument. -/
def Token.endsYield : Token → Bool
  | .endOfInput => true
  | .punctuator symbol =>
    match symbol with
    | .rParen | .rBracket | .rBrace | .comma | .semicolon | .colon => true
    | _ => false
  | _ => false

namespace Grammar

open Parse

variable {σ : Type}

/-- The name behind a dot, which may be private. -/
def memberProperty (g : Grammar σ) : Parse σ Expression := do
  if ← nextIsPrivateName then
    let name ← privateName
    unless ← hook (g.hooks.referenceName name g.options) do
      unexpectedAt name.span.start
    return .privateName name
  let start ← startPosition
  match ← next with
  | .identifier name _ => return .identifier name (← spanFrom start)
  | .keyword word => return .identifier word.spelling (← spanFrom start)
  | _ => unexpectedAt start

def computedProperty (g : Grammar σ) : Parse σ Expression := do
  let property ← allowingIn g.expression
  expect .rBracket
  return property

def optionalLink (g : Grammar σ) (base : Expression) (start : Position) : Parse σ Expression := do
  if ← nextIs .lParen then
    let arguments ← g.arguments
    return .call base arguments true (← spanFrom start)
  if ← accept .lBracket then
    let property ← g.computedProperty
    return .member base property true true (← spanFrom start)
  let property ← g.memberProperty
  return .member base property false true (← spanFrom start)

def isAsyncName : Expression → Bool
  | .identifier "async" _ => true
  | _ => false

/-- A call, or an async arrow function whose parameters were read as the arguments of a call. -/
def callOrAsyncArrow (g : Grammar σ) (base : Expression) (start : Position) :
    Parse σ (Round Expression Expression) := do
  let arguments ← g.arguments
  if isAsyncName base then
    if ← nextIsArrow then
      let params ← ensure (argumentsToParams (← g.nameRules) arguments)
      return .stop (← g.arrowFunction start params true)
  return .again (.call base arguments false (← spanFrom start))

/-- The next member access, call or tagged template behind `base`, or the end of them. The callee
of `new` takes neither calls nor optional links. -/
def subscriptsRound (g : Grammar σ) (start : Position) (calleeOfNew : Bool) (base : Expression) :
    Parse σ (Round Expression Expression) := do
  if ← accept .dot then
    let property ← g.memberProperty
    return .again (.member base property false false (← spanFrom start))
  if ← nextIs .optionalChain then
    if calleeOfNew then
      fail (.optionalChain .newCallee) (← startPosition)
    skip
    return .again (← g.optionalLink base start)
  if ← accept .lBracket then
    let property ← g.computedProperty
    return .again (.member base property true false (← spanFrom start))
  if !calleeOfNew then
    if ← nextIs .lParen then
      return ← g.callOrAsyncArrow base start
  if ← nextIsTemplate then
    if base.inOptionalChain then
      fail (.optionalChain .templateTag) (← startPosition)
    let quasi ← g.templateLiteral
    return .again (.taggedTemplate base quasi (← spanFrom start))
  return .stop base

/-- Member accesses, calls and tagged templates behind `base`. -/
def subscripts (g : Grammar σ) (base : Expression) (start : Position) (calleeOfNew : Bool) :
    Parse σ Expression :=
  g.loop (g.subscriptsRound start calleeOfNew) base

/-- `new` with its callee and, if there are any, its arguments. -/
def newExpressionRule (g : Grammar σ) : Parse σ Expression := do
  let start ← startPosition
  expectWord .new
  let calleeStart ← startPosition
  let callee ← if ← nextIsWord .new then g.newExpression else g.primary
  let callee ← g.subscripts callee calleeStart true
  let arguments ← if ← nextIs .lParen then g.arguments else pure []
  return .new callee arguments (← spanFrom start)

/-- A primary or `new` expression with what is applied to it. -/
def leftHandSideRule (g : Grammar σ) : Parse σ Expression := do
  let start ← startPosition
  let base ← if ← nextIsWord .new then g.newExpressionRule else g.primary
  if base.isArrow then
    return base
  g.subscripts base start false

/-- Refuses `delete` of a name in strict code. -/
def checkDelete (operator : UnaryOperator) (argument : Expression) (start : Position) :
    Parse σ Unit := do
  if operator == .delete && (← context).strict then
    if let .identifier _ _ := argument then
      fail .strictDelete start

/-- A left-hand side with an optional update operator behind it, on the same line. -/
def updateBehind (g : Grammar σ) (start : Position) : Parse σ Expression := do
  let argument ← g.leftHandSideRule
  match UpdateOperator.ofToken? (← peek) with
  | none => return argument
  | some operator =>
    if (← newlineBefore) || argument.isArrow then
      return argument
    ensure ((← g.nameRules).checkSimpleTarget argument)
    skip
    return .update operator false argument (← spanFrom start)

def unaryBody (g : Grammar σ) : Parse σ Expression := do
  let start ← startPosition
  let token ← peek
  if let some operator := UnaryOperator.ofToken? token then
    skip
    let argument ← g.unary
    checkDelete operator argument start
    return .unary operator argument (← spanFrom start)
  if let some operator := UpdateOperator.ofToken? token then
    skip
    let argument ← g.unary
    ensure ((← g.nameRules).checkSimpleTarget argument)
    return .update operator true argument (← spanFrom start)
  if (← context).inAsync && token == .keyword .await then
    skip
    let argument ← g.unary
    return .await argument (← spanFrom start)
  g.updateBehind start

def unaryRule (g : Grammar σ) : Parse σ Expression := do
  let value ← g.unaryBody
  hook (g.hooks.afterUnary value)
  return value

/-- The next operator of at least the given precedence with its right operand, or the end of the
operators. -/
def binaryRound (g : Grammar σ) (start : Position) (least : Nat) (left : Expression) :
    Parse σ (Round Expression Expression) := do
  let allowIn := !(← context).inForInit
  match InfixOperator.ofToken? allowIn (← peek) with
  | none => return .stop left
  | some operator =>
    if operator.precedence < least then
      return .stop left
    skip
    let right ← g.binary operator.rightPrecedence
    return .again (operator.join left right (← spanFrom start))

/-- Operands joined by operators of at least the given precedence. -/
def binaryRule (g : Grammar σ) (least : Nat) : Parse σ Expression := do
  let start ← startPosition
  let first ← g.unaryRule
  if first.isArrow then
    return first
  g.loop (g.binaryRound start least) first

def conditional (g : Grammar σ) : Parse σ Expression := do
  let start ← startPosition
  let test ← g.binaryRule 0
  if test.isArrow then
    return test
  unless ← accept .question do return test
  let consequent ← allowingIn g.assignment
  expect .colon
  let alternate ← g.assignment
  return .conditional test consequent alternate (← spanFrom start)

def yieldExpression (g : Grammar σ) : Parse σ Expression := do
  let start ← startPosition
  skip
  let newline ← newlineBefore
  if newline || (← peek).endsYield then
    return .yield none false (← spanFrom start)
  let delegate ← accept .star
  let argument ← g.assignment
  return .yield (some argument) delegate (← spanFrom start)

def assignmentRule (g : Grammar σ) : Parse σ Expression := do
  if (← context).inGenerator then
    if ← nextIsWord .yield then
      return ← g.yieldExpression
  let start ← startPosition
  let left ← g.conditional
  match AssignmentOperator.ofToken? (← peek) with
  | none => return left
  | some operator =>
    let target ← ensure (left.toTarget (← g.nameRules) operator)
    skip
    let value ← g.assignment
    return .assignment operator target value (← spanFrom start)

end Grammar

end EcmaScript
