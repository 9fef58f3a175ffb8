import EcmaScript.Grammar.Expression

/-!
Statements.
-/

namespace EcmaScript.Grammar

open Parse

variable {σ : Type}

/-- The next variable with its initial value; `needInit` says whether a constant or a destructuring
pattern must have one. -/
def declaratorsRound (g : Grammar σ) (kind : VariableKind) (needInit : Bool)
    (declarators : List Declarator) : Parse σ (Round (List Declarator) (List Declarator)) := do
  let id ← g.bindingTarget
  let init ← if ← accept .assign then some <$> g.assignment else pure none
  if needInit && init.isNone && (kind == .const || !id.isIdentifier) then
    unexpected
  let declarators := (⟨id, init⟩ : Declarator) :: declarators
  if ← accept .comma then
    return .again declarators
  return .stop declarators

/-- Variables with their initial values. -/
def declarators (g : Grammar σ) (kind : VariableKind) (needInit : Bool) :
    Parse σ (List Declarator) := do
  let declarators ← g.loop (g.declaratorsRound kind needInit) []
  return declarators.reverse

def variableStatement (g : Grammar σ) (start : Position) (kind : VariableKind) :
    Parse σ Statement := do
  skip
  let declarators ← g.declarators kind true
  endStatement
  return .variables kind declarators (← spanFrom start)

/-- Whether `let`, the next token, begins a declaration: a binding follows it. -/
def letBeginsDeclaration : Parse σ Bool := do
  let (second, _) ← peekSecond
  return second.isIdentifierLike || second == .punctuator .lBracket ||
    second == .punctuator .lBrace

/-- Whether `async`, the next token, begins a function declaration. -/
def asyncBeginsFunction : Parse σ Bool := do
  let (second, newline) ← peekSecond
  return !newline && second == .keyword .function

def functionDeclaration (g : Grammar σ) (start : Position) (isAsync : Bool) :
    Parse σ Statement := do
  expectWord .function
  let isGenerator ← accept .star
  let (name, _) ← g.bindingIdentifier
  return .function name (← g.functionRest start isAsync isGenerator false)

def classDeclaration (g : Grammar σ) (start : Position) : Parse σ Statement := do
  match ← g.classDefinition start true with
  | (some name, definition) => return .class_ name definition
  | (none, _) => unexpectedAt start

def returnStatement (g : Grammar σ) (start : Position) : Parse σ Statement := do
  unless (← context).allowsReturn do fail .returnOutsideFunction start
  skip
  let argument ← if ← atStatementEnd then pure none else some <$> g.expression
  endStatement
  return .return_ argument (← spanFrom start)

def ifStatement (g : Grammar σ) (start : Position) : Parse σ Statement := do
  skip
  let test ← g.headExpression
  let consequent ← g.statement
  let alternate ← if ← acceptWord .else_ then some <$> g.statement else pure none
  return .if_ test consequent alternate (← spanFrom start)

def leaveLoop (now : Context) : Option Context := do
  return { now with loopDepth := ← Context.lessOne now.loopDepth }

def loopBody (g : Grammar σ) : Parse σ Statement :=
  within (fun context => { context with loopDepth := context.loopDepth + 1 })
    (fun _ now => leaveLoop now) g.statement

def whileStatement (g : Grammar σ) (start : Position) : Parse σ Statement := do
  skip
  let test ← g.headExpression
  let body ← g.loopBody
  return .while test body (← spanFrom start)

def doWhileStatement (g : Grammar σ) (start : Position) : Parse σ Statement := do
  skip
  let body ← g.loopBody
  expectWord .while
  let test ← g.headExpression
  let _ ← accept .semicolon
  return .doWhile body test (← spanFrom start)

/-- Whether the head of a loop goes on with `in` or `of`. -/
def nextIsInOrOf : Parse σ Bool := do
  if ← nextIsWord .in_ then return true
  nextIsName "of"

def forInOrOf (g : Grammar σ) (start : Position) (target : ForTarget) : Parse σ Statement := do
  let isOf ← nextIsName "of"
  skip
  let right ← if isOf then g.assignment else g.expression
  expect .rParen
  let body ← g.loopBody
  let span ← spanFrom start
  return if isOf then .forOf target right body span else .forIn target right body span

/-- A three-part for statement behind its first part. -/
def forRest (g : Grammar σ) (start : Position) (init : Option ForInit) : Parse σ Statement := do
  expect .semicolon
  let test ← if ← nextIs .semicolon then pure none else some <$> g.expression
  expect .semicolon
  let update ← if ← nextIs .rParen then pure none else some <$> g.expression
  expect .rParen
  let body ← g.loopBody
  return .for_ init test update body (← spanFrom start)

def forDeclarationKind : Parse σ (Option VariableKind) := do
  match ← peek with
  | .keyword .var => return some .var
  | .keyword .const => return some .const
  | .keyword .let_ => return if ← letBeginsDeclaration then some .let_ else none
  | _ => return none

/-- A for statement whose head begins with a declaration, at the keyword. -/
def forDeclaration (g : Grammar σ) (start : Position) (kind : VariableKind) :
    Parse σ Statement := do
  skip
  let declarators ← withoutIn (g.declarators kind false)
  match declarators with
  | [⟨id, none⟩] =>
    if ← nextIsInOrOf then
      g.forInOrOf start (.variable kind id)
    else
      g.forRest start (some (.variables kind declarators))
  | _ => g.forRest start (some (.variables kind declarators))

def forExpression (g : Grammar σ) (start : Position) : Parse σ Statement := do
  let value ← withoutIn g.expression
  if ← nextIsInOrOf then
    let target ← ensure (value.toForTarget (← g.nameRules))
    g.forInOrOf start target
  else
    g.forRest start (some (.expression value))

def forStatement (g : Grammar σ) (start : Position) : Parse σ Statement := do
  skip
  expect .lParen
  let kind ← forDeclarationKind
  if ← nextIs .semicolon then
    g.forRest start none
  else
    match kind with
    | some kind => g.forDeclaration start kind
    | none => g.forExpression start

/-- The label behind `break` or `continue`, on the same line. -/
def jumpLabel (g : Grammar σ) : Parse σ (Option String) := do
  if ← newlineBefore then return none
  unless ← nextIsIdentifier do return none
  let (label, _) ← g.identifierReference
  return some label

def breakStatement (g : Grammar σ) (start : Position) : Parse σ Statement := do
  skip
  let label ← g.jumpLabel
  if label.isNone && !(← context).allowsBreak then
    fail .breakOutsideLoop start
  endStatement
  return .break_ label (← spanFrom start)

def continueStatement (g : Grammar σ) (start : Position) : Parse σ Statement := do
  skip
  let label ← g.jumpLabel
  if label.isNone && !(← context).allowsContinue then
    fail .continueOutsideLoop start
  endStatement
  return .continue_ label (← spanFrom start)

def throwStatement (g : Grammar σ) (start : Position) : Parse σ Statement := do
  skip
  if ← newlineBefore then
    fail .newlineAfterThrow (← lastEnd)
  let argument ← g.expression
  endStatement
  return .throw argument (← spanFrom start)

/-- The handler of a try statement, if there is one. -/
def catchClause (g : Grammar σ) : Parse σ (Option CatchClause) := do
  unless ← acceptWord .catch_ do return none
  let param ←
    if ← accept .lParen then
      let param ← g.bindingTarget
      expect .rParen
      pure (some param)
    else
      pure none
  let body ← g.block
  return some ⟨param, body⟩

/-- A try statement, which has a handler, a finalizer or both. -/
def tryStatement (g : Grammar σ) (start : Position) : Parse σ Statement := do
  skip
  let body ← g.block
  let handler ← g.catchClause
  let finalizer ← if ← acceptWord .finally_ then some <$> g.block else pure none
  if handler.isNone && finalizer.isNone then
    fail .tryWithoutHandler start
  return .try_ body handler finalizer (← spanFrom start)

/-- The test of a switch case, or none for the default case, of which there is at most one. -/
def caseTest (g : Grammar σ) (hasDefault : Bool) : Parse σ (Option Expression) := do
  let start ← startPosition
  if ← acceptWord .case then
    some <$> g.expression
  else if ← acceptWord .default then
    if hasDefault then
      fail .multipleDefaults start
    return none
  else
    unexpected

def caseBodyRound (g : Grammar σ) (statements : List Statement) :
    Parse σ (Round (List Statement) (List Statement)) := do
  let token ← peek
  if token == .punctuator .rBrace || token == .keyword .case || token == .keyword .default then
    return .stop statements
  return .again ((← g.statement) :: statements)

def caseBody (g : Grammar σ) : Parse σ (List Statement) := do
  let statements ← g.loop g.caseBodyRound []
  return statements.reverse

def switchCasesRound (g : Grammar σ) (cases : List SwitchCase) :
    Parse σ (Round (List SwitchCase) (List SwitchCase)) := do
  if ← accept .rBrace then
    return .stop cases
  let test ← g.caseTest (cases.any (·.test.isNone))
  expect .colon
  let consequent ← g.caseBody
  return .again (⟨test, consequent⟩ :: cases)

def switchCases (g : Grammar σ) : Parse σ (List SwitchCase) := do
  let cases ← g.loop g.switchCasesRound []
  return cases.reverse

def leaveSwitch (now : Context) : Option Context := do
  return { now with switchDepth := ← Context.lessOne now.switchDepth }

def switchStatement (g : Grammar σ) (start : Position) : Parse σ Statement := do
  skip
  let discriminant ← g.headExpression
  expect .lBrace
  let cases ← within
    (fun context => { context with switchDepth := context.switchDepth + 1 })
    (fun _ now => leaveSwitch now) g.switchCases
  return .switch discriminant cases (← spanFrom start)

def debuggerStatement (start : Position) : Parse σ Statement := do
  skip
  endStatement
  return .debugger (← spanFrom start)

def emptyStatement (start : Position) : Parse σ Statement := do
  skip
  return .empty (← spanFrom start)

def blockStatement (g : Grammar σ) (start : Position) : Parse σ Statement := do
  let body ← g.block
  return .block body (← spanFrom start)

def labelOf? : Expression → Option String
  | .identifier name _ => some name
  | _ => none

def expressionStatement (g : Grammar σ) (start : Position) : Parse σ Statement := do
  let value ← g.expression
  if let some label := labelOf? value then
    if ← accept .colon then
      let body ← g.statement
      return .labeled label body (← spanFrom start)
  endStatement
  return .expression value (← spanFrom start)

def keywordStatement (g : Grammar σ) (start : Position) : Keyword → Parse σ Statement
  | .var => g.variableStatement start .var
  | .const => g.variableStatement start .const
  | .let_ => do
    if ← letBeginsDeclaration then
      g.variableStatement start .let_
    else
      g.expressionStatement start
  | .function => g.functionDeclaration start false
  | .async => do
    if ← asyncBeginsFunction then
      skip
      g.functionDeclaration start true
    else
      g.expressionStatement start
  | .class_ => g.classDeclaration start
  | .return_ => g.returnStatement start
  | .if_ => g.ifStatement start
  | .while => g.whileStatement start
  | .do_ => g.doWhileStatement start
  | .for_ => g.forStatement start
  | .break_ => g.breakStatement start
  | .continue_ => g.continueStatement start
  | .throw => g.throwStatement start
  | .try_ => g.tryStatement start
  | .switch => g.switchStatement start
  | .debugger => debuggerStatement start
  | .import_ | .export_ | .with_ => unexpected
  | _ => g.expressionStatement start

def statementRule (g : Grammar σ) : Parse σ Statement := do
  let start ← startPosition
  match ← peek with
  | .punctuator .lBrace => g.blockStatement start
  | .punctuator .semicolon => emptyStatement start
  | .keyword word => g.keywordStatement start word
  | _ => g.expressionStatement start

/-- The statements up to the end of the source. -/
def statements (g : Grammar σ) : Parse σ (List Statement) :=
  g.statementList do return (← peek) == .endOfInput

/-- A program. -/
def program (g : Grammar σ) : Parse σ Program := do
  update fun s => ((), g.hooks.reset s)
  let body ← g.statements
  let stop ← startPosition
  return ⟨body, ⟨.start, stop⟩⟩

end EcmaScript.Grammar
