import EcmaScript.Proofs.Script.Class

/-!
Scripts of the rules for expressions.
-/

def EcmaScript.Grammar.assignmentBody {σ : Type} (g : Grammar σ) : Parse σ Expression := do
  let start ← Parse.startPosition
  let left ← g.conditional
  match AssignmentOperator.ofToken? (← Parse.peek) with
  | none => return left
  | some operator =>
    let target ← Parse.ensure (left.toTarget (← g.nameRules) operator)
    Parse.skip
    let value ← g.assignment
    return .assignment operator target value (← Parse.spanFrom start)

namespace EcmaScript.Script

open Grammar (ParenRead TemplateRead)

variable {σ α : Type} (g : Grammar σ)

/-! ## Sequences and literals -/

def expressionRound (expressions : List Expression) :
    Script (Round (List Expression) (List Expression)) := do
  if ← accept .comma then
    return .again ((← assignment) :: expressions)
  return .stop expressions

def expression : Script Expression := do
  let start ← startPosition
  let first ← assignment
  unless ← nextIs .comma do return first
  let expressions ← loop expressionRound [first]
  return .sequence expressions.reverse (← spanFrom start)

def headExpression : Script Expression := do
  expect .lParen
  let value ← allowingIn expression
  expect .rParen
  return value

def spreadOrAssignment : Script Expression := do
  unless ← nextIs .spread do return ← assignment
  let start ← startPosition
  skip
  let argument ← assignment
  return .spread argument (← spanFrom start)

def argumentsRound (arguments : List Expression) :
    Script (Round (List Expression) (List Expression)) := do
  if ← accept .rParen then
    return .stop arguments
  let argument ← spreadOrAssignment
  if ← accept .comma then
    return .again (argument :: arguments)
  expect .rParen
  return .stop (argument :: arguments)

def arguments : Script (List Expression) := do
  expect .lParen
  let arguments ← allowingIn <| loop argumentsRound []
  return arguments.reverse

def arrayLiteralRound (elements : List (Option Expression)) :
    Script (Round (List (Option Expression)) (List (Option Expression))) := do
  if ← accept .rBracket then
    return .stop elements
  if ← accept .comma then
    return .again (none :: elements)
  let element ← spreadOrAssignment
  if ← accept .comma then
    return .again (some element :: elements)
  expect .rBracket
  return .stop (some element :: elements)

def arrayLiteral (start : Position) : Script Expression := do
  expect .lBracket
  let elements ← allowingIn <| loop arrayLiteralRound []
  return .array elements.reverse (← spanFrom start)

def shorthandValue (name : String) (span : Span) : Script Expression := do
  if ← accept .assign then
    let default ← assignment
    return .assignment .assign (.simple (.identifier name span)) default (← spanFrom span.start)
  return .identifier name span

def shorthandProperty (start : Position) (key : PropertyKey) : Script ObjectProperty := do
  match key with
  | .identifier name span =>
    ensure ((← nameRules).checkWord name span.start)
    let value ← shorthandValue name span
    return .property key value .init false true false (← spanFrom start)
  | _ => unexpected

def objectProperty : Script ObjectProperty := do
  let start ← startPosition
  if ← accept .spread then
    let argument ← assignment
    return .spread argument (← spanFrom start)
  let m ← modifiers
  let (key, computed) ← propertyKey
  if ← nextIs .lParen then
    let function ← methodFunction m.isAsync m.isGenerator
    return .property key (.function none function) (Grammar.propertyKind m.accessor)
      m.accessor.isNone false computed (← spanFrom start)
  if m.needMethod then
    unexpected
  if ← accept .colon then
    let value ← assignment
    return .property key value .init false false computed (← spanFrom start)
  shorthandProperty start key

def objectLiteralRound (properties : List ObjectProperty) :
    Script (Round (List ObjectProperty) (List ObjectProperty)) := do
  if ← accept .rBrace then
    return .stop properties
  let property ← objectProperty
  if ← accept .comma then
    return .again (property :: properties)
  expect .rBrace
  return .stop (property :: properties)

def objectLiteral (start : Position) : Script Expression := do
  expect .lBrace
  let properties ← allowingIn <| loop objectLiteralRound []
  return .object properties.reverse (← spanFrom start)

@[simp] theorem denote_expressionRound (expressions : List Expression) :
    (expressionRound expressions).denote g = g.expressionRound expressions := by
  simp [expressionRound, Grammar.expressionRound]

@[simp] theorem denote_expression : expression.denote g = g.expression := by
  simp [expression, Grammar.expression]

@[simp] theorem denote_headExpression : headExpression.denote g = g.headExpression := by
  simp [headExpression, Grammar.headExpression]

@[simp] theorem denote_spreadOrAssignment :
    spreadOrAssignment.denote g = g.spreadOrAssignment := by
  simp [spreadOrAssignment, Grammar.spreadOrAssignment]

@[simp] theorem denote_argumentsRound (arguments : List Expression) :
    (argumentsRound arguments).denote g = g.argumentsRound arguments := by
  simp [argumentsRound, Grammar.argumentsRound]

@[simp] theorem denote_arguments : arguments.denote g = g.arguments := by
  simp [arguments, Grammar.arguments]

@[simp] theorem denote_arrayLiteralRound (elements : List (Option Expression)) :
    (arrayLiteralRound elements).denote g = g.arrayLiteralRound elements := by
  simp [arrayLiteralRound, Grammar.arrayLiteralRound]

@[simp] theorem denote_arrayLiteral (start : Position) :
    (arrayLiteral start).denote g = g.arrayLiteral start := by
  simp [arrayLiteral, Grammar.arrayLiteral]

@[simp] theorem denote_shorthandProperty (start : Position) (key : PropertyKey) :
    (shorthandProperty start key).denote g = g.shorthandProperty start key := by
  cases key <;> simp [shorthandProperty, shorthandValue, Grammar.shorthandProperty]

@[simp] theorem denote_objectProperty : objectProperty.denote g = g.objectProperty := by
  simp [objectProperty, Grammar.objectProperty]

@[simp] theorem denote_objectLiteralRound (properties : List ObjectProperty) :
    (objectLiteralRound properties).denote g = g.objectLiteralRound properties := by
  simp [objectLiteralRound, Grammar.objectLiteralRound]

@[simp] theorem denote_objectLiteral (start : Position) :
    (objectLiteral start).denote g = g.objectLiteral start := by
  simp [objectLiteral, Grammar.objectLiteral]

/-! ## Templates -/

def templateRound (start : Position) (template : TemplateRead) :
    Script (Round TemplateRead TemplateRead) := do
  let value ← allowingIn expression
  unless ← nextIs .rBrace do return ← unexpected
  let expressions := value :: template.expressions
  match ← lexing .templateContinuation with
  | .templateMiddle cooked => return .again ⟨⟨cooked, false⟩ :: template.quasis, expressions⟩
  | .templateTail cooked => return .stop ⟨⟨cooked, true⟩ :: template.quasis, expressions⟩
  | _ => unexpectedAt start

def templateRest (start : Position) (head : String) : Script TemplateRead :=
  loop (templateRound start) { quasis := [⟨head, false⟩] }

def templateParts (start : Position) : Script TemplateRead := do
  match ← next with
  | .templateLiteral cooked => return { quasis := [⟨cooked, true⟩] }
  | .templateHead cooked => templateRest start cooked
  | _ => unexpectedAt start

def templateLiteral : Script Expression := do
  let start ← startPosition
  let template ← templateParts start
  return .template template.quasis.reverse template.expressions.reverse (← spanFrom start)

def nextIsTemplate : Script Bool := do
  match ← peek with
  | .templateLiteral _ | .templateHead _ => return true
  | _ => return false

/-- Nothing is read behind an unexpected token. -/
theorem unexpected_bind {β : Type} (rest : α → Parse σ β) :
    (Parse.unexpected >>= rest) = Parse.unexpected := by
  simp only [Parse.unexpected, bind_assoc]
  rfl

@[simp] theorem denote_templateRound (start : Position) (template : TemplateRead) :
    (templateRound start template).denote g = g.templateRound start template := by
  simp only [templateRound, Grammar.templateRound, denote_bind, denote_allowingIn,
    denote_expression, denote_nextIs, denote_ite, denote_unexpected, denote_lexing,
    ← skip_readTemplateContinuation, unexpected_bind, bind_assoc]
  refine bind_congr fun value => bind_congr fun closes => ?_
  congr
  funext _
  refine bind_congr fun token => ?_
  cases token <;> simp

@[simp] theorem denote_templateRest (start : Position) (head : String) :
    (templateRest start head).denote g = g.templateRest start head := by
  simp [templateRest, Grammar.templateRest]

@[simp] theorem denote_templateLiteral : templateLiteral.denote g = g.templateLiteral := by
  simp only [templateLiteral, templateParts, Grammar.templateLiteral, denote_bind,
    denote_startPosition, denote_next, bind_assoc]
  refine bind_congr fun start => bind_congr fun token => ?_
  cases token <;> simp

@[simp] theorem denote_nextIsTemplate : nextIsTemplate.denote g = Grammar.nextIsTemplate := by
  simp only [nextIsTemplate, Grammar.nextIsTemplate, denote_bind, denote_peek]
  refine bind_congr fun token => ?_
  cases token <;> simp

/-! ## Primary expressions -/

def nextIsArrow : Script Bool := do
  unless ← nextIs .arrow do return false
  return !(← newlineBefore)

def literal (start : Position) (value : Literal) : Script Expression := do
  skip
  return .literal value (← spanFrom start)

def regExpLiteral (start : Position) : Script Expression := do
  match ← lexing .regExp with
  | .regExp pattern flags => return .literal (.regExp pattern flags) (← spanFrom start)
  | _ => unexpectedAt start

def identifierOrArrow (start : Position) : Script Expression := do
  let (name, span) ← identifierReference
  if ← nextIsArrow then
    ensure ((← nameRules).checkBinding name span.start)
    arrowFunction start [.identifier name span] false
  else
    return .identifier name span

def superExpression (start : Position) : Script Expression := do
  skip
  unless (← context).allowsSuper do fail .superOutsideMethod start
  match ← peek with
  | .punctuator .lParen | .punctuator .dot | .punctuator .lBracket =>
    return .super (← spanFrom start)
  | _ => unexpected

def asyncAtom (start : Position) : Script Expression := do
  let (second, newline) ← peekSecond
  if !newline && second == .keyword .function then
    skip
    functionExpression start true
  else if !newline && second.isIdentifierLike then
    skip
    let (name, span) ← bindingIdentifier
    unless ← nextIsArrow do unexpected
    arrowFunction start [.identifier name span] true
  else
    identifierOrArrow start

def parenItemsRound (list : ParenRead) : Script (Round ParenRead ParenRead) := do
  if ← nextIs .rParen then
    return .stop list
  if ← nextIs .spread then
    return .stop { list with rest := some (← restElement) }
  let list := { list with items := (← assignment) :: list.items }
  if ← accept .comma then
    return .again { list with trailingComma := ← nextIs .rParen }
  return .stop list

def parenItems : Script ParenRead := loop parenItemsRound {}

def parenExpression (items : List Expression) (inner : Span) : Script Expression :=
  match items with
  | [] => unexpected
  | [item] => return item
  | items => return .sequence items.reverse inner

def parenRest (start : Position) : Script Expression := do
  let innerStart ← startPosition
  let list ← parenItems
  let inner : Span := ⟨innerStart, ← lastEnd⟩
  expect .rParen
  if ← nextIsArrow then
    let rules ← nameRules
    let params ← ensure (list.items.reverse.mapM (·.toPattern rules .binding))
    arrowFunction start (params ++ list.rest.toList) false
  else if list.rest.isSome || list.trailingComma then
    unexpected
  else
    parenExpression list.items inner

def parenthesized (start : Position) : Script Expression := do
  expect .lParen
  allowingIn (parenRest start)

def classExpression (start : Position) : Script Expression := do
  let (name, definition) ← classDefinition start false
  return .class_ name definition

def keywordAtom (start : Position) : Keyword → Script Expression
  | .this => do
    skip
    return .this (← spanFrom start)
  | .super => superExpression start
  | .function => functionExpression start false
  | .async => asyncAtom start
  | .class_ => classExpression start
  | .true_ => literal start (.boolean true)
  | .false_ => literal start (.boolean false)
  | .null => literal start .null
  | word => if word.isContextual then identifierOrArrow start else unexpected

def punctuatorAtom (start : Position) : Punctuator → Script Expression
  | .slash | .slashEq => regExpLiteral start
  | .lParen => parenthesized start
  | .lBracket => arrayLiteral start
  | .lBrace => objectLiteral start
  | _ => unexpected

def atom : Script Expression := do
  let start ← startPosition
  match ← peek with
  | .keyword word => keywordAtom start word
  | .punctuator symbol => punctuatorAtom start symbol
  | .number value => literal start (.number value)
  | .bigInt text => literal start (.bigInt text)
  | .string value => literal start (.string value)
  | .templateLiteral _ | .templateHead _ => templateLiteral
  | .identifier _ _ => identifierOrArrow start
  | _ => unexpected

def primary : Script Expression := do
  let value ← atom
  let following ← peek
  afterAtom value following
  return value

@[simp] theorem denote_nextIsArrow : nextIsArrow.denote g = Grammar.nextIsArrow := by
  simp [nextIsArrow, Grammar.nextIsArrow]

@[simp] theorem denote_literal (start : Position) (value : Literal) :
    (literal start value).denote g = Grammar.literal start value := by
  simp [literal, Grammar.literal]

@[simp] theorem denote_regExpLiteral (start : Position) :
    (regExpLiteral start).denote g = Grammar.regExpLiteral start := by
  simp only [regExpLiteral, Grammar.regExpLiteral, denote_bind, denote_lexing,
    ← skip_rescanRegExp, bind_assoc]
  refine bind_congr fun _ => bind_congr fun token => ?_
  cases token <;> simp

@[simp] theorem denote_identifierOrArrow (start : Position) :
    (identifierOrArrow start).denote g = g.identifierOrArrow start := by
  simp [identifierOrArrow, Grammar.identifierOrArrow]

@[simp] theorem denote_superExpression (start : Position) :
    (superExpression start).denote g = Grammar.superExpression start := by
  simp only [superExpression, Grammar.superExpression, denote_bind, denote_skip, denote_context,
    denote_ite, denote_fail, denote_peek]
  refine bind_congr fun _ => bind_congr fun context => ?_
  congr
  · funext token
    cases token with
    | punctuator symbol => cases symbol <;> simp
    | _ => simp
  · funext _
    refine bind_congr fun token => ?_
    cases token with
    | punctuator symbol => cases symbol <;> simp
    | _ => simp

@[simp] theorem denote_asyncAtom (start : Position) :
    (asyncAtom start).denote g = g.asyncAtom start := by
  simp [asyncAtom, Grammar.asyncAtom]

@[simp] theorem denote_parenItemsRound (list : ParenRead) :
    (parenItemsRound list).denote g = g.parenItemsRound list := by
  simp [parenItemsRound, Grammar.parenItemsRound]

@[simp] theorem denote_parenItems : parenItems.denote g = g.parenItems := by
  simp [parenItems, Grammar.parenItems]

@[simp] theorem denote_parenRest (start : Position) :
    (parenRest start).denote g = g.parenRest start := by
  simp only [parenRest, Grammar.parenRest, denote_bind, denote_startPosition, denote_parenItems,
    denote_lastEnd, denote_expect, denote_nextIsArrow]
  refine bind_congr fun innerStart => bind_congr fun list => ?_
  obtain ⟨_ | ⟨item, _ | ⟨other, items⟩⟩, rest, comma⟩ := list <;> simp [parenExpression]

@[simp] theorem denote_parenthesized (start : Position) :
    (parenthesized start).denote g = g.parenthesized start := by
  simp [parenthesized, Grammar.parenthesized]

@[simp] theorem denote_classExpression (start : Position) :
    (classExpression start).denote g = g.classExpression start := by
  simp [classExpression, Grammar.classExpression]

@[simp] theorem denote_keywordAtom (start : Position) (word : Keyword) :
    (keywordAtom start word).denote g = g.keywordAtom start word := by
  cases word <;> simp [keywordAtom, Grammar.keywordAtom]

@[simp] theorem denote_punctuatorAtom (start : Position) (symbol : Punctuator) :
    (punctuatorAtom start symbol).denote g = g.punctuatorAtom start symbol := by
  cases symbol <;> simp [punctuatorAtom, Grammar.punctuatorAtom]

@[simp] theorem denote_atom : atom.denote g = g.atom := by
  simp only [atom, Grammar.atom, denote_bind, denote_startPosition, denote_peek]
  refine bind_congr fun start => bind_congr fun token => ?_
  cases token <;> simp

@[simp] theorem denote_primary : primary.denote g = g.primary := by
  simp [primary, Grammar.primary]

/-! ## Members and calls -/

def memberProperty : Script Expression := do
  if ← nextIsPrivateName then
    let name ← privateName
    referenceName name
    return .privateName name
  let start ← startPosition
  match ← next with
  | .identifier name _ => return .identifier name (← spanFrom start)
  | .keyword word => return .identifier word.spelling (← spanFrom start)
  | _ => unexpectedAt start

def computedProperty : Script Expression := do
  let property ← allowingIn expression
  expect .rBracket
  return property

def optionalLink (base : Expression) (start : Position) : Script Expression := do
  if ← nextIs .lParen then
    let arguments ← arguments
    return .call base arguments true (← spanFrom start)
  if ← accept .lBracket then
    let property ← computedProperty
    return .member base property true true (← spanFrom start)
  let property ← memberProperty
  return .member base property false true (← spanFrom start)

def callOrAsyncArrow (base : Expression) (start : Position) :
    Script (Round Expression Expression) := do
  let arguments ← arguments
  if Grammar.isAsyncName base then
    if ← nextIsArrow then
      let params ← ensure (argumentsToParams (← nameRules) arguments)
      return .stop (← arrowFunction start params true)
  return .again (.call base arguments false (← spanFrom start))

def taggedTemplate (start : Position) (base : Expression) :
    Script (Round Expression Expression) := do
  if ← nextIsTemplate then
    if base.inOptionalChain then
      fail (.optionalChain .templateTag) (← startPosition)
    let quasi ← templateLiteral
    return .again (.taggedTemplate base quasi (← spanFrom start))
  return .stop base

def subscriptsRound (start : Position) (calleeOfNew : Bool) (base : Expression) :
    Script (Round Expression Expression) := do
  if ← accept .dot then
    let property ← memberProperty
    return .again (.member base property false false (← spanFrom start))
  if ← nextIs .optionalChain then
    if calleeOfNew then
      fail (.optionalChain .newCallee) (← startPosition)
    skip
    return .again (← optionalLink base start)
  if ← accept .lBracket then
    let property ← computedProperty
    return .again (.member base property true false (← spanFrom start))
  if !calleeOfNew then
    if ← nextIs .lParen then
      return ← callOrAsyncArrow base start
  taggedTemplate start base

def subscripts (base : Expression) (start : Position) (calleeOfNew : Bool) : Script Expression :=
  loop (subscriptsRound start calleeOfNew) base

def newCallee : Script Expression := do
  if ← nextIsWord .new then newExpression else primary

def newArguments : Script (List Expression) := do
  if ← nextIs .lParen then arguments else pure []

def newExpressionRule : Script Expression := do
  let start ← startPosition
  expectWord .new
  let calleeStart ← startPosition
  let callee ← newCallee
  let callee ← subscripts callee calleeStart true
  let arguments ← newArguments
  return .new callee arguments (← spanFrom start)

def leftHandSideBase : Script Expression := do
  if ← nextIsWord .new then newExpressionRule else primary

def leftHandSideRule : Script Expression := do
  let start ← startPosition
  let base ← leftHandSideBase
  if base.isArrow then
    return base
  subscripts base start false

@[simp] theorem denote_memberProperty : memberProperty.denote g = g.memberProperty := by
  simp only [memberProperty, Grammar.memberProperty, denote_bind, denote_nextIsPrivateName,
    denote_ite, denote_privateName, denote_referenceName, denote_pure, denote_startPosition,
    denote_next]
  refine bind_congr fun isPrivate => ?_
  cases isPrivate with
  | true =>
    simp only [Procedure.askName, bind_assoc, if_true]
    refine bind_congr fun name => bind_congr fun accepted => ?_
    cases accepted <;> rfl
  | false =>
    simp only [Bool.false_eq_true, if_false]
    refine bind_congr fun start => bind_congr fun token => ?_
    cases token <;> simp

@[simp] theorem denote_computedProperty : computedProperty.denote g = g.computedProperty := by
  simp [computedProperty, Grammar.computedProperty]

@[simp] theorem denote_optionalLink (base : Expression) (start : Position) :
    (optionalLink base start).denote g = g.optionalLink base start := by
  simp [optionalLink, Grammar.optionalLink]

@[simp] theorem denote_callOrAsyncArrow (base : Expression) (start : Position) :
    (callOrAsyncArrow base start).denote g = g.callOrAsyncArrow base start := by
  simp [callOrAsyncArrow, Grammar.callOrAsyncArrow]

@[simp] theorem denote_subscriptsRound (start : Position) (calleeOfNew : Bool)
    (base : Expression) : (subscriptsRound start calleeOfNew base).denote g =
      g.subscriptsRound start calleeOfNew base := by
  simp [subscriptsRound, taggedTemplate, Grammar.subscriptsRound]

@[simp] theorem denote_subscripts (base : Expression) (start : Position) (calleeOfNew : Bool) :
    (subscripts base start calleeOfNew).denote g = g.subscripts base start calleeOfNew := by
  simp [subscripts, Grammar.subscripts]

@[simp] theorem denote_newExpressionRule :
    newExpressionRule.denote g = g.newExpressionRule := by
  simp [newExpressionRule, newCallee, newArguments, Grammar.newExpressionRule]

@[simp] theorem denote_leftHandSideRule : leftHandSideRule.denote g = g.leftHandSideRule := by
  simp [leftHandSideRule, leftHandSideBase, Grammar.leftHandSideRule]

/-! ## Operators -/

def checkDelete (operator : UnaryOperator) (argument : Expression) (start : Position) :
    Script Unit := do
  if operator == .delete && (← context).strict then
    if let .identifier _ _ := argument then
      fail .strictDelete start

def updateBehind (start : Position) : Script Expression := do
  let argument ← leftHandSideRule
  match UpdateOperator.ofToken? (← peek) with
  | none => return argument
  | some operator =>
    if (← newlineBefore) || argument.isArrow then
      return argument
    ensure ((← nameRules).checkSimpleTarget argument)
    skip
    return .update operator false argument (← spanFrom start)

def unaryBody : Script Expression := do
  let start ← startPosition
  let token ← peek
  if let some operator := UnaryOperator.ofToken? token then
    skip
    let argument ← unary
    checkDelete operator argument start
    return .unary operator argument (← spanFrom start)
  if let some operator := UpdateOperator.ofToken? token then
    skip
    let argument ← unary
    ensure ((← nameRules).checkSimpleTarget argument)
    return .update operator true argument (← spanFrom start)
  if (← context).inAsync && token == .keyword .await then
    skip
    let argument ← unary
    return .await argument (← spanFrom start)
  updateBehind start

def unaryRule : Script Expression := do
  let value ← unaryBody
  afterUnary value
  return value

def binaryRound (start : Position) (least : Nat) (left : Expression) :
    Script (Round Expression Expression) := do
  let allowIn := !(← context).inForInit
  match InfixOperator.ofToken? allowIn (← peek) with
  | none => return .stop left
  | some operator =>
    if operator.precedence < least then
      return .stop left
    skip
    let right ← binary operator.rightPrecedence
    return .again (operator.join left right (← spanFrom start))

def binaryRule (least : Nat) : Script Expression := do
  let start ← startPosition
  let first ← unaryRule
  if first.isArrow then
    return first
  loop (binaryRound start least) first

def conditional : Script Expression := do
  let start ← startPosition
  let test ← binaryRule 0
  if test.isArrow then
    return test
  unless ← accept .question do return test
  let consequent ← allowingIn assignment
  expect .colon
  let alternate ← assignment
  return .conditional test consequent alternate (← spanFrom start)

def yieldExpression : Script Expression := do
  let start ← startPosition
  skip
  let newline ← newlineBefore
  if newline || (← peek).endsYield then
    return .yield none false (← spanFrom start)
  let delegate ← accept .star
  let argument ← assignment
  return .yield (some argument) delegate (← spanFrom start)

def assignmentBody : Script Expression := do
  let start ← startPosition
  let left ← conditional
  match AssignmentOperator.ofToken? (← peek) with
  | none => return left
  | some operator =>
    let target ← ensure (left.toTarget (← nameRules) operator)
    skip
    let value ← assignment
    return .assignment operator target value (← spanFrom start)

def assignmentRule : Script Expression := do
  if (← context).inGenerator then
    if ← nextIsWord .yield then
      return ← yieldExpression
  assignmentBody

@[simp] theorem denote_checkDelete (operator : UnaryOperator) (argument : Expression)
    (start : Position) : (checkDelete operator argument start).denote g =
      Grammar.checkDelete operator argument start := by
  cases argument <;> simp [checkDelete, Grammar.checkDelete]

@[simp] theorem denote_updateBehind (start : Position) :
    (updateBehind start).denote g = g.updateBehind start := by
  simp only [updateBehind, Grammar.updateBehind, denote_bind, denote_leftHandSideRule, denote_peek]
  refine bind_congr fun argument => bind_congr fun token => ?_
  cases UpdateOperator.ofToken? token <;> simp

@[simp] theorem denote_unaryBody : unaryBody.denote g = g.unaryBody := by
  simp only [unaryBody, Grammar.unaryBody, denote_bind, denote_startPosition, denote_peek]
  refine bind_congr fun start => bind_congr fun token => ?_
  cases UnaryOperator.ofToken? token <;> cases UpdateOperator.ofToken? token <;> simp

@[simp] theorem denote_unaryRule : unaryRule.denote g = g.unaryRule := by
  simp [unaryRule, Grammar.unaryRule]

@[simp] theorem denote_binaryRound (start : Position) (least : Nat) (left : Expression) :
    (binaryRound start least left).denote g = g.binaryRound start least left := by
  simp only [binaryRound, Grammar.binaryRound, denote_bind, denote_context, denote_peek]
  refine bind_congr fun context => bind_congr fun token => ?_
  cases InfixOperator.ofToken? (!context.inForInit) token <;> simp

@[simp] theorem denote_binaryRule (least : Nat) :
    (binaryRule least).denote g = g.binaryRule least := by
  simp [binaryRule, Grammar.binaryRule]

@[simp] theorem denote_conditional : conditional.denote g = g.conditional := by
  simp [conditional, Grammar.conditional]

@[simp] theorem denote_yieldExpression : yieldExpression.denote g = g.yieldExpression := by
  simp [yieldExpression, Grammar.yieldExpression]

@[simp] theorem denote_assignmentBody : assignmentBody.denote g = g.assignmentBody := by
  simp only [assignmentBody, Grammar.assignmentBody, denote_bind, denote_startPosition,
    denote_conditional, denote_peek]
  refine bind_congr fun start => bind_congr fun left => bind_congr fun token => ?_
  cases AssignmentOperator.ofToken? token <;> simp

@[simp] theorem denote_assignmentRule : assignmentRule.denote g = g.assignmentRule := by
  simp only [assignmentRule, denote_bind, denote_context, denote_ite, denote_nextIsWord,
    denote_yieldExpression, denote_assignmentBody]
  rfl

end EcmaScript.Script
