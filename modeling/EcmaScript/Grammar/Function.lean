import EcmaScript.Grammar.Pattern

/-!
Statement lists, function bodies and functions.

A statement list begins with its directives: string literals that are statements of their own.
The directive `use strict` makes the rest of the list strict code.
-/

namespace EcmaScript

def Statement.directive? : Statement → Option String
  | .expression (.literal (.string directive) _) _ => some directive
  | _ => none

namespace Grammar

open Parse

variable {σ : Type}

/-- What has been read of a statement list, last statement first, and whether only directives
have been read. -/
structure ListRead where
  statements : List Statement := []
  inPrologue : Bool := true

/-- The next statement of a list, which may be a directive, or the end of the list. -/
def statementListRound (g : Grammar σ) (done : Parse σ Bool) (list : ListRead) :
    Parse σ (Round ListRead (List Statement)) := do
  if ← done then
    return .stop list.statements.reverse
  let statement ← g.statement
  let directive := if list.inPrologue then statement.directive? else none
  if directive == some "use strict" then
    setContext ({ · with strict := true })
  return .again ⟨statement :: list.statements, directive.isSome⟩

/-- Statements up to `done`, with the directives in front of them. -/
def statementList (g : Grammar σ) (done : Parse σ Bool) : Parse σ (List Statement) :=
  g.loop (g.statementListRound done) {}

def blockRound (g : Grammar σ) (statements : List Statement) :
    Parse σ (Round (List Statement) (List Statement)) := do
  if ← nextIs .rBrace then
    return .stop statements
  return .again ((← g.statement) :: statements)

def block (g : Grammar σ) : Parse σ (List Statement) := do
  expect .lBrace
  let body ← g.loop g.blockRound []
  expect .rBrace
  return body.reverse

def functionBody (g : Grammar σ) : Parse σ (List Statement) := do
  expect .lBrace
  let body ← g.statementList (nextIs .rBrace)
  expect .rBrace
  return body

def formalParametersRound (g : Grammar σ) (params : List Pattern) :
    Parse σ (Round (List Pattern) (List Pattern)) := do
  if ← accept .rParen then
    return .stop params
  if ← nextIs .spread then
    let rest ← g.restElement
    expect .rParen
    return .stop (rest :: params)
  let param ← g.bindingElement
  if ← accept .comma then
    return .again (param :: params)
  expect .rParen
  return .stop (param :: params)

/-- Parameters in parentheses. -/
def formalParameters (g : Grammar σ) : Parse σ (List Pattern) := do
  expect .lParen
  let params ← g.loop g.formalParametersRound []
  return params.reverse

def enterFunction (isAsync isGenerator isMethod : Bool) (context : Context) : Context :=
  { context with
    inAsync := isAsync
    inGenerator := isGenerator
    inMethod := isMethod
    loopDepth := 0
    switchDepth := 0
    inForInit := false
    functionDepth := context.functionDepth + 1 }

def leaveFunction (before now : Context) : Option Context := do
  return { before with functionDepth := ← Context.lessOne now.functionDepth }

/-- Parameters and body of a function whose span begins at `start`. -/
def functionRest (g : Grammar σ) (start : Position) (isAsync isGenerator isMethod : Bool) :
    Parse σ Function := do
  let (params, body) ← within (enterFunction isAsync isGenerator isMethod) leaveFunction do
    let params ← g.formalParameters
    let body ← g.functionBody
    return (params, body)
  return ⟨params, body, isAsync, isGenerator, ← spanFrom start⟩

/-- The function of a method, which begins at the parameter list. -/
def methodFunction (g : Grammar σ) (isAsync isGenerator : Bool) : Parse σ Function := do
  let start ← startPosition
  g.functionRest start isAsync isGenerator true

def functionExpression (g : Grammar σ) (start : Position) (isAsync : Bool) :
    Parse σ Expression := do
  expectWord .function
  let isGenerator ← accept .star
  let name ← if ← nextIsIdentifier then some <$> (·.1) <$> g.bindingIdentifier else pure none
  return .function name (← g.functionRest start isAsync isGenerator false)

/-- The context inside an arrow function, which keeps `super` and `in` as they are around it. -/
def enterArrow (isAsync : Bool) (context : Context) : Context :=
  { context with
    inAsync := isAsync
    inGenerator := false
    loopDepth := 0
    switchDepth := 0
    functionDepth := context.functionDepth + 1 }

def leaveArrow (before now : Context) : Option Context := do
  return { now with
    inAsync := before.inAsync
    inGenerator := before.inGenerator
    loopDepth := before.loopDepth
    switchDepth := before.switchDepth
    strict := before.strict
    functionDepth := ← Context.lessOne now.functionDepth }

/-- An arrow function from its arrow on. The first token of the body is looked at inside the arrow
function's context, which stays if that token cannot be scanned. -/
def arrowFunction (g : Grammar σ) (start : Position) (params : List Pattern) (isAsync : Bool) :
    Parse σ Expression := do
  expect .arrow
  let before ← context
  setContext (enterArrow isAsync)
  let isBlock ← nextIs .lBrace
  let body ← closing (leaving (leaveArrow before)) <|
    if isBlock then .block <$> g.functionBody else .expression <$> g.assignment
  return .arrow params body isAsync (← spanFrom start)

end Grammar

end EcmaScript
