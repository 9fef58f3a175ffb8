import EcmaScript.Grammar.Class

/-!
Expressions in sequence, arguments, and array, object and template literals.
-/

namespace EcmaScript.Grammar

open Parse

variable {σ : Type}

/-- The next expression of a sequence, or its end. -/
def expressionRound (g : Grammar σ) (expressions : List Expression) :
    Parse σ (Round (List Expression) (List Expression)) := do
  if ← accept .comma then
    return .again ((← g.assignment) :: expressions)
  return .stop expressions

/-- Assignment expressions joined by commas. -/
def expression (g : Grammar σ) : Parse σ Expression := do
  let start ← startPosition
  let first ← g.assignment
  unless ← nextIs .comma do return first
  let expressions ← g.loop g.expressionRound [first]
  return .sequence expressions.reverse (← spanFrom start)

/-- An expression in parentheses that belong to a statement. -/
def headExpression (g : Grammar σ) : Parse σ Expression := do
  expect .lParen
  let value ← allowingIn g.expression
  expect .rParen
  return value

def spreadOrAssignment (g : Grammar σ) : Parse σ Expression := do
  unless ← nextIs .spread do return ← g.assignment
  let start ← startPosition
  skip
  let argument ← g.assignment
  return .spread argument (← spanFrom start)

def argumentsRound (g : Grammar σ) (arguments : List Expression) :
    Parse σ (Round (List Expression) (List Expression)) := do
  if ← accept .rParen then
    return .stop arguments
  let argument ← g.spreadOrAssignment
  if ← accept .comma then
    return .again (argument :: arguments)
  expect .rParen
  return .stop (argument :: arguments)

/-- Arguments in parentheses. -/
def arguments (g : Grammar σ) : Parse σ (List Expression) := do
  expect .lParen
  let arguments ← allowingIn <| g.loop g.argumentsRound []
  return arguments.reverse

/-- The next element of an array literal, or its end; a comma without an element in front of it
makes a hole. -/
def arrayLiteralRound (g : Grammar σ) (elements : List (Option Expression)) :
    Parse σ (Round (List (Option Expression)) (List (Option Expression))) := do
  if ← accept .rBracket then
    return .stop elements
  if ← accept .comma then
    return .again (none :: elements)
  let element ← g.spreadOrAssignment
  if ← accept .comma then
    return .again (some element :: elements)
  expect .rBracket
  return .stop (some element :: elements)

def arrayLiteral (g : Grammar σ) (start : Position) : Parse σ Expression := do
  expect .lBracket
  let elements ← allowingIn <| g.loop g.arrayLiteralRound []
  return .array elements.reverse (← spanFrom start)

def propertyKind : Option MethodKind → PropertyKind
  | some .get => .get
  | some .set => .set
  | _ => .init

/-- A property that is a name alone. A default value behind it is kept as an assignment, for the
case that the literal is re-read as a pattern. -/
def shorthandProperty (g : Grammar σ) (start : Position) (key : PropertyKey) :
    Parse σ ObjectProperty := do
  match key with
  | .identifier name span =>
    ensure ((← g.nameRules).checkWord name span.start)
    let value ←
      if ← accept .assign then
        let default ← g.assignment
        pure (.assignment .assign (.simple (.identifier name span)) default
          (← spanFrom span.start))
      else
        pure (.identifier name span)
    return .property key value .init false true false (← spanFrom start)
  | _ => unexpected

/-- A property of an object literal. -/
def objectProperty (g : Grammar σ) : Parse σ ObjectProperty := do
  let start ← startPosition
  if ← accept .spread then
    let argument ← g.assignment
    return .spread argument (← spanFrom start)
  let m ← modifiers
  let (key, computed) ← g.propertyKey
  if ← nextIs .lParen then
    let function ← g.methodFunction m.isAsync m.isGenerator
    return .property key (.function none function) (propertyKind m.accessor) m.accessor.isNone
      false computed (← spanFrom start)
  if m.needMethod then
    unexpected
  if ← accept .colon then
    let value ← g.assignment
    return .property key value .init false false computed (← spanFrom start)
  g.shorthandProperty start key

def objectLiteralRound (g : Grammar σ) (properties : List ObjectProperty) :
    Parse σ (Round (List ObjectProperty) (List ObjectProperty)) := do
  if ← accept .rBrace then
    return .stop properties
  let property ← g.objectProperty
  if ← accept .comma then
    return .again (property :: properties)
  expect .rBrace
  return .stop (property :: properties)

def objectLiteral (g : Grammar σ) (start : Position) : Parse σ Expression := do
  expect .lBrace
  let properties ← allowingIn <| g.loop g.objectLiteralRound []
  return .object properties.reverse (← spanFrom start)

/-- What has been read of a template, last part first. -/
structure TemplateRead where
  quasis : List TemplateElement
  expressions : List Expression := []

/-- A substitution of a template and the text behind it. -/
def templateRound (g : Grammar σ) (start : Position) (template : TemplateRead) :
    Parse σ (Round TemplateRead TemplateRead) := do
  let value ← allowingIn g.expression
  unless ← nextIs .rBrace do unexpected
  skip
  let expressions := value :: template.expressions
  match ← lexing Lexing.readTemplateContinuation with
  | .templateMiddle cooked => return .again ⟨⟨cooked, false⟩ :: template.quasis, expressions⟩
  | .templateTail cooked => return .stop ⟨⟨cooked, true⟩ :: template.quasis, expressions⟩
  | _ => unexpectedAt start

/-- The substitutions of a template and the text between and behind them. -/
def templateRest (g : Grammar σ) (start : Position) (head : String) : Parse σ TemplateRead :=
  g.loop (g.templateRound start) { quasis := [⟨head, false⟩] }

def templateLiteral (g : Grammar σ) : Parse σ Expression := do
  let start ← startPosition
  let template : TemplateRead ←
    match ← next with
    | .templateLiteral cooked => pure { quasis := [⟨cooked, true⟩] }
    | .templateHead cooked => g.templateRest start cooked
    | _ => unexpectedAt start
  return .template template.quasis.reverse template.expressions.reverse (← spanFrom start)

def nextIsTemplate : Parse σ Bool := do
  match ← peek with
  | .templateLiteral _ | .templateHead _ => return true
  | _ => return false

end EcmaScript.Grammar
