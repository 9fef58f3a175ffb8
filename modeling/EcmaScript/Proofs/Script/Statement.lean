import EcmaScript.Proofs.Script.Expression

/-!
Scripts of the rules for statements and programs.

With them the knot is tied: every rule that recurs has a script, and from the scripts the procedures
for all depths are made. A program is described by one procedure for all hooks.
-/

namespace EcmaScript

variable {σ α : Type}

namespace Script

variable (g : Grammar σ)

/-! ## Declarations -/

/-- The initial value of a variable, if there is one. -/
def initializer : Script (Option Expression) := do
  if ← accept .assign then some <$> assignment else pure none

def declaratorsRound (kind : VariableKind) (needInit : Bool) (declarators : List Declarator) :
    Script (Round (List Declarator) (List Declarator)) := do
  let id ← bindingTarget
  let init ← initializer
  if needInit && init.isNone && (kind == .const || !id.isIdentifier) then
    unexpected
  let declarators := (⟨id, init⟩ : Declarator) :: declarators
  if ← accept .comma then
    return .again declarators
  return .stop declarators

def declarators (kind : VariableKind) (needInit : Bool) : Script (List Declarator) := do
  let declarators ← loop (declaratorsRound kind needInit) []
  return declarators.reverse

def variableStatement (start : Position) (kind : VariableKind) : Script Statement := do
  skip
  let declarators ← declarators kind true
  endStatement
  return .variables kind declarators (← spanFrom start)

def letBeginsDeclaration : Script Bool := do
  let (second, _) ← peekSecond
  return second.isIdentifierLike || second == .punctuator .lBracket ||
    second == .punctuator .lBrace

def asyncBeginsFunction : Script Bool := do
  let (second, newline) ← peekSecond
  return !newline && second == .keyword .function

def functionDeclaration (start : Position) (isAsync : Bool) : Script Statement := do
  expectWord .function
  let isGenerator ← accept .star
  let (name, _) ← bindingIdentifier
  return .function name (← functionRest start isAsync isGenerator false)

def classDeclaration (start : Position) : Script Statement := do
  match ← classDefinition start true with
  | (some name, definition) => return .class_ name definition
  | (none, _) => unexpectedAt start

@[simp] theorem denote_declaratorsRound (kind : VariableKind) (needInit : Bool)
    (declarators : List Declarator) : (declaratorsRound kind needInit declarators).denote g =
      g.declaratorsRound kind needInit declarators := by
  simp [declaratorsRound, initializer, Grammar.declaratorsRound]

@[simp] theorem denote_declarators (kind : VariableKind) (needInit : Bool) :
    (declarators kind needInit).denote g = g.declarators kind needInit := by
  simp [declarators, Grammar.declarators]

@[simp] theorem denote_variableStatement (start : Position) (kind : VariableKind) :
    (variableStatement start kind).denote g = g.variableStatement start kind := by
  simp [variableStatement, Grammar.variableStatement]

@[simp] theorem denote_letBeginsDeclaration :
    letBeginsDeclaration.denote g = Grammar.letBeginsDeclaration := by
  simp [letBeginsDeclaration, Grammar.letBeginsDeclaration]

@[simp] theorem denote_asyncBeginsFunction :
    asyncBeginsFunction.denote g = Grammar.asyncBeginsFunction := by
  simp [asyncBeginsFunction, Grammar.asyncBeginsFunction]

@[simp] theorem denote_functionDeclaration (start : Position) (isAsync : Bool) :
    (functionDeclaration start isAsync).denote g = g.functionDeclaration start isAsync := by
  simp [functionDeclaration, Grammar.functionDeclaration]

@[simp] theorem denote_classDeclaration (start : Position) :
    (classDeclaration start).denote g = g.classDeclaration start := by
  simp only [classDeclaration, Grammar.classDeclaration, denote_bind, denote_classDefinition]
  refine bind_congr fun read => ?_
  obtain ⟨name, definition⟩ := read
  cases name <;> simp

/-! ## Control flow -/

def returnArgument : Script (Option Expression) := do
  if ← atStatementEnd then pure none else some <$> expression

def returnStatement (start : Position) : Script Statement := do
  unless (← context).allowsReturn do fail .returnOutsideFunction start
  skip
  let argument ← returnArgument
  endStatement
  return .return_ argument (← spanFrom start)

def ifAlternate : Script (Option Statement) := do
  if ← acceptWord .else_ then some <$> statement else pure none

def ifStatement (start : Position) : Script Statement := do
  skip
  let test ← headExpression
  let consequent ← statement
  let alternate ← ifAlternate
  return .if_ test consequent alternate (← spanFrom start)

def loopBody : Script Statement := within .loopBody statement

def whileStatement (start : Position) : Script Statement := do
  skip
  let test ← headExpression
  let body ← loopBody
  return .while test body (← spanFrom start)

def doWhileStatement (start : Position) : Script Statement := do
  skip
  let body ← loopBody
  expectWord .while
  let test ← headExpression
  let _ ← accept .semicolon
  return .doWhile body test (← spanFrom start)

/-- A choice by whether the head of a loop goes on with `in` or `of`. -/
def ifInOrOf (yes no : Script α) : Script α := do
  if ← nextIsWord .in_ then yes
  else if ← nextIsName "of" then yes
  else no

/-- What is gone through by a for-in or for-of statement. -/
def forRight (isOf : Bool) : Script Expression :=
  if isOf then assignment else expression

def forInOrOf (start : Position) (target : ForTarget) : Script Statement := do
  let isOf ← nextIsName "of"
  skip
  let right ← forRight isOf
  expect .rParen
  let body ← loopBody
  let span ← spanFrom start
  return if isOf then .forOf target right body span else .forIn target right body span

def expressionUnless (symbol : Punctuator) : Script (Option Expression) := do
  if ← nextIs symbol then pure none else some <$> expression

def forRest (start : Position) (init : Option ForInit) : Script Statement := do
  expect .semicolon
  let test ← expressionUnless .semicolon
  expect .semicolon
  let update ← expressionUnless .rParen
  expect .rParen
  let body ← loopBody
  return .for_ init test update body (← spanFrom start)

def forDeclarationKind : Script (Option VariableKind) := do
  match ← peek with
  | .keyword .var => return some .var
  | .keyword .const => return some .const
  | .keyword .let_ => return if ← letBeginsDeclaration then some .let_ else none
  | _ => return none

/-- A for statement behind its declarators; one without a value may be the target. -/
def forDeclared (start : Position) (kind : VariableKind) : List Declarator → Script Statement
  | [⟨id, none⟩] =>
    ifInOrOf (forInOrOf start (.variable kind id))
      (forRest start (some (.variables kind [⟨id, none⟩])))
  | declarators => forRest start (some (.variables kind declarators))

def forDeclaration (start : Position) (kind : VariableKind) : Script Statement := do
  skip
  let declarators ← withoutIn (declarators kind false)
  forDeclared start kind declarators

def forAssigning (start : Position) (value : Expression) : Script Statement := do
  let target ← ensure (value.toForTarget (← nameRules))
  forInOrOf start target

def forExpression (start : Position) : Script Statement := do
  let value ← withoutIn expression
  ifInOrOf (forAssigning start value) (forRest start (some (.expression value)))

def forStatement (start : Position) : Script Statement := do
  skip
  expect .lParen
  let kind ← forDeclarationKind
  if ← nextIs .semicolon then
    forRest start none
  else
    match kind with
    | some kind => forDeclaration start kind
    | none => forExpression start

def jumpLabel : Script (Option String) := do
  if ← newlineBefore then return none
  unless ← nextIsIdentifier do return none
  let (label, _) ← identifierReference
  return some label

def breakStatement (start : Position) : Script Statement := do
  skip
  let label ← jumpLabel
  if label.isNone && !(← context).allowsBreak then
    fail .breakOutsideLoop start
  endStatement
  return .break_ label (← spanFrom start)

def continueStatement (start : Position) : Script Statement := do
  skip
  let label ← jumpLabel
  if label.isNone && !(← context).allowsContinue then
    fail .continueOutsideLoop start
  endStatement
  return .continue_ label (← spanFrom start)

@[simp] theorem denote_returnStatement (start : Position) :
    (returnStatement start).denote g = g.returnStatement start := by
  simp [returnStatement, returnArgument, Grammar.returnStatement]

@[simp] theorem denote_ifStatement (start : Position) :
    (ifStatement start).denote g = g.ifStatement start := by
  simp [ifStatement, ifAlternate, Grammar.ifStatement]

@[simp] theorem denote_loopBody : loopBody.denote g = g.loopBody := rfl

@[simp] theorem denote_whileStatement (start : Position) :
    (whileStatement start).denote g = g.whileStatement start := by
  simp [whileStatement, Grammar.whileStatement]

@[simp] theorem denote_doWhileStatement (start : Position) :
    (doWhileStatement start).denote g = g.doWhileStatement start := by
  simp [doWhileStatement, Grammar.doWhileStatement]

@[simp] theorem denote_ifInOrOf (yes no : Script α) :
    (ifInOrOf yes no).denote g = (do
      if ← Grammar.nextIsInOrOf then yes.denote g else no.denote g) := by
  simp only [ifInOrOf, Grammar.nextIsInOrOf, denote_bind, denote_nextIsWord, denote_ite,
    denote_nextIsName, bind_assoc, ite_bind, pure_bind, if_true]

@[simp] theorem denote_forInOrOf (start : Position) (target : ForTarget) :
    (forInOrOf start target).denote g = g.forInOrOf start target := by
  simp [forInOrOf, forRight, Grammar.forInOrOf]

@[simp] theorem denote_forRest (start : Position) (init : Option ForInit) :
    (forRest start init).denote g = g.forRest start init := by
  simp [forRest, expressionUnless, Grammar.forRest]

@[simp] theorem denote_forDeclarationKind :
    forDeclarationKind.denote g = Grammar.forDeclarationKind := by
  simp only [forDeclarationKind, Grammar.forDeclarationKind, denote_bind, denote_peek]
  refine bind_congr fun token => ?_
  cases token with
  | keyword word => cases word <;> simp
  | _ => simp

@[simp] theorem denote_forDeclaration (start : Position) (kind : VariableKind) :
    (forDeclaration start kind).denote g = g.forDeclaration start kind := by
  simp only [forDeclaration, Grammar.forDeclaration, denote_bind, denote_skip, denote_withoutIn,
    denote_declarators]
  refine bind_congr fun _ => bind_congr fun declarators => ?_
  obtain _ | ⟨⟨id, _ | init⟩, _ | ⟨other, declarators⟩⟩ := declarators <;> simp [forDeclared]

@[simp] theorem denote_forExpression (start : Position) :
    (forExpression start).denote g = g.forExpression start := by
  simp [forExpression, forAssigning, Grammar.forExpression]

@[simp] theorem denote_forStatement (start : Position) :
    (forStatement start).denote g = g.forStatement start := by
  simp only [forStatement, Grammar.forStatement, denote_bind, denote_skip, denote_expect,
    denote_forDeclarationKind, denote_nextIs]
  refine bind_congr fun _ => bind_congr fun _ => bind_congr fun kind => ?_
  cases kind <;> simp

@[simp] theorem denote_jumpLabel : jumpLabel.denote g = g.jumpLabel := by
  simp [jumpLabel, Grammar.jumpLabel]

@[simp] theorem denote_breakStatement (start : Position) :
    (breakStatement start).denote g = g.breakStatement start := by
  simp [breakStatement, Grammar.breakStatement]

@[simp] theorem denote_continueStatement (start : Position) :
    (continueStatement start).denote g = g.continueStatement start := by
  simp [continueStatement, Grammar.continueStatement]

/-! ## Exceptions and choices -/

def throwStatement (start : Position) : Script Statement := do
  skip
  if ← newlineBefore then
    fail .newlineAfterThrow (← lastEnd)
  let argument ← expression
  endStatement
  return .throw argument (← spanFrom start)

def catchParameter : Script (Option Pattern) := do
  if ← accept .lParen then
    let param ← bindingTarget
    expect .rParen
    return some param
  return none

def catchClause : Script (Option CatchClause) := do
  unless ← acceptWord .catch_ do return none
  let param ← catchParameter
  let body ← block
  return some ⟨param, body⟩

/-- The block behind `finally`, if there is one. -/
def finalizer : Script (Option (List Statement)) := do
  if ← acceptWord .finally_ then some <$> block else pure none

def tryStatement (start : Position) : Script Statement := do
  skip
  let body ← block
  let handler ← catchClause
  let finalizer ← finalizer
  if handler.isNone && finalizer.isNone then
    fail .tryWithoutHandler start
  return .try_ body handler finalizer (← spanFrom start)

def caseTest (hasDefault : Bool) : Script (Option Expression) := do
  let start ← startPosition
  if ← acceptWord .case then
    some <$> expression
  else if ← acceptWord .default then
    if hasDefault then
      fail .multipleDefaults start
    return none
  else
    unexpected

def caseBodyRound (statements : List Statement) :
    Script (Round (List Statement) (List Statement)) := do
  let token ← peek
  if token == .punctuator .rBrace || token == .keyword .case || token == .keyword .default then
    return .stop statements
  return .again ((← statement) :: statements)

def caseBody : Script (List Statement) := do
  let statements ← loop caseBodyRound []
  return statements.reverse

def switchCasesRound (cases : List SwitchCase) :
    Script (Round (List SwitchCase) (List SwitchCase)) := do
  if ← accept .rBrace then
    return .stop cases
  let test ← caseTest (cases.any (·.test.isNone))
  expect .colon
  let consequent ← caseBody
  return .again (⟨test, consequent⟩ :: cases)

def switchCases : Script (List SwitchCase) := do
  let cases ← loop switchCasesRound []
  return cases.reverse

def switchStatement (start : Position) : Script Statement := do
  skip
  let discriminant ← headExpression
  expect .lBrace
  let cases ← within .switchBody switchCases
  return .switch discriminant cases (← spanFrom start)

@[simp] theorem denote_throwStatement (start : Position) :
    (throwStatement start).denote g = g.throwStatement start := by
  simp [throwStatement, Grammar.throwStatement]

@[simp] theorem denote_catchClause : catchClause.denote g = g.catchClause := by
  simp [catchClause, catchParameter, Grammar.catchClause]

@[simp] theorem denote_tryStatement (start : Position) :
    (tryStatement start).denote g = g.tryStatement start := by
  simp [tryStatement, finalizer, Grammar.tryStatement]

@[simp] theorem denote_caseTest (hasDefault : Bool) :
    (caseTest hasDefault).denote g = g.caseTest hasDefault := by
  simp [caseTest, Grammar.caseTest]

@[simp] theorem denote_caseBodyRound (statements : List Statement) :
    (caseBodyRound statements).denote g = g.caseBodyRound statements := by
  simp [caseBodyRound, Grammar.caseBodyRound]

@[simp] theorem denote_caseBody : caseBody.denote g = g.caseBody := by
  simp [caseBody, Grammar.caseBody]

@[simp] theorem denote_switchCasesRound (cases : List SwitchCase) :
    (switchCasesRound cases).denote g = g.switchCasesRound cases := by
  simp [switchCasesRound, Grammar.switchCasesRound]

@[simp] theorem denote_switchCases : switchCases.denote g = g.switchCases := by
  simp [switchCases, Grammar.switchCases]

@[simp] theorem denote_switchStatement (start : Position) :
    (switchStatement start).denote g = g.switchStatement start := by
  simp only [switchStatement, Grammar.switchStatement, denote_bind, denote_skip,
    denote_headExpression, denote_expect, denote_within, denote_switchCases, denote_spanFrom,
    denote_pure]
  rfl

/-! ## Statements -/

def debuggerStatement (start : Position) : Script Statement := do
  skip
  endStatement
  return .debugger (← spanFrom start)

def emptyStatement (start : Position) : Script Statement := do
  skip
  return .empty (← spanFrom start)

def blockStatement (start : Position) : Script Statement := do
  let body ← block
  return .block body (← spanFrom start)

def expressionEnd (start : Position) (value : Expression) : Script Statement := do
  endStatement
  return .expression value (← spanFrom start)

def expressionStatement (start : Position) : Script Statement := do
  let value ← expression
  if let some label := Grammar.labelOf? value then
    if ← accept .colon then
      let body ← statement
      return .labeled label body (← spanFrom start)
  expressionEnd start value

def keywordStatement (start : Position) : Keyword → Script Statement
  | .var => variableStatement start .var
  | .const => variableStatement start .const
  | .let_ => do
    if ← letBeginsDeclaration then
      variableStatement start .let_
    else
      expressionStatement start
  | .function => functionDeclaration start false
  | .async => do
    if ← asyncBeginsFunction then
      skip
      functionDeclaration start true
    else
      expressionStatement start
  | .class_ => classDeclaration start
  | .return_ => returnStatement start
  | .if_ => ifStatement start
  | .while => whileStatement start
  | .do_ => doWhileStatement start
  | .for_ => forStatement start
  | .break_ => breakStatement start
  | .continue_ => continueStatement start
  | .throw => throwStatement start
  | .try_ => tryStatement start
  | .switch => switchStatement start
  | .debugger => debuggerStatement start
  | .import_ | .export_ | .with_ => unexpected
  | _ => expressionStatement start

def statementRule : Script Statement := do
  let start ← startPosition
  match ← peek with
  | .punctuator .lBrace => blockStatement start
  | .punctuator .semicolon => emptyStatement start
  | .keyword word => keywordStatement start word
  | _ => expressionStatement start

def statements : Script (List Statement) :=
  statementList do return (← peek) == .endOfInput

/-- A program behind the reset of the hooks. -/
def program : Script Program := do
  let body ← statements
  let stop ← startPosition
  return ⟨body, ⟨.start, stop⟩⟩

@[simp] theorem denote_debuggerStatement (start : Position) :
    (debuggerStatement start).denote g = Grammar.debuggerStatement start := by
  simp [debuggerStatement, Grammar.debuggerStatement]

@[simp] theorem denote_emptyStatement (start : Position) :
    (emptyStatement start).denote g = Grammar.emptyStatement start := by
  simp [emptyStatement, Grammar.emptyStatement]

@[simp] theorem denote_blockStatement (start : Position) :
    (blockStatement start).denote g = g.blockStatement start := by
  simp [blockStatement, Grammar.blockStatement]

@[simp] theorem denote_expressionStatement (start : Position) :
    (expressionStatement start).denote g = g.expressionStatement start := by
  simp only [expressionStatement, expressionEnd, Grammar.expressionStatement, denote_bind,
    denote_expression]
  refine bind_congr fun value => ?_
  cases Grammar.labelOf? value <;> simp

@[simp] theorem denote_keywordStatement (start : Position) (word : Keyword) :
    (keywordStatement start word).denote g = g.keywordStatement start word := by
  cases word <;> simp [keywordStatement, Grammar.keywordStatement]

@[simp] theorem denote_statementRule : statementRule.denote g = g.statementRule := by
  simp only [statementRule, Grammar.statementRule, denote_bind, denote_startPosition, denote_peek]
  refine bind_congr fun start => bind_congr fun token => ?_
  cases token with
  | punctuator symbol => cases symbol <;> simp
  | _ => simp

@[simp] theorem denote_statements : statements.denote g = g.statements := by
  simp [statements, Grammar.statements]

/-- A program begins with the reset of the hooks. -/
theorem program_eq_denote : g.program = (do
    Parse.update fun s => ((), g.hooks.reset s)
    program.denote g) := by
  simp [program, Grammar.program]

end Script

/-! ## Tying the knot -/

/-- The script of a rule that recurs. -/
def Recurring.script : {α : Type} → Recurring α → Script α
  | _, .statement => Script.statementRule
  | _, .assignment => Script.assignmentRule
  | _, .binary least => Script.binaryRule least
  | _, .unary => Script.unaryRule
  | _, .leftHandSide => Script.leftHandSideRule
  | _, .newExpression => Script.newExpressionRule
  | _, .bindingTarget => Script.bindingTargetRule

theorem Recurring.denote_script (g : Grammar σ) (callee : Recurring α) :
    callee.script.denote g = callee.unfold g := by
  cases callee <;> simp [script, unfold]

namespace Grammar

/-- The procedures for the rules that recur in the grammars of the given depth. -/
def routines (options : Options) (bound : Nat) : (depth : Nat) → Routines
  | 0 => ⟨options, bound, fun _ => .exhaust⟩
  | depth + 1 =>
    ⟨options, bound, fun callee => callee.script.plug (routines options bound depth)⟩

@[simp] theorem options_routines (options : Options) (bound depth : Nat) :
    (routines options bound depth).options = options := by
  cases depth <;> rfl

@[simp] theorem bound_routines (options : Options) (bound depth : Nat) :
    (routines options bound depth).bound = bound := by
  cases depth <;> rfl

@[simp] theorem hooks_ofDepth (options : Options) (hooks : Hooks σ) (bound depth : Nat) :
    (ofDepth options hooks bound depth).hooks = hooks := by
  cases depth <;> rfl

/-- The procedures describe every grammar of their depth. -/
theorem describe_routines (options : Options) (hooks : Hooks σ) (bound depth : Nat) :
    (routines options bound depth).Describe (.ofDepth options hooks bound depth) := by
  induction depth with
  | zero => exact ⟨rfl, rfl, fun callee s => by rw [callee.rule_zero]; rfl⟩
  | succ depth ih =>
    refine ⟨rfl, rfl, fun callee s => ?_⟩
    have hcall := Script.describes_plug ih callee.script s
    rwa [callee.denote_script, hooks_ofDepth, options_routines, ← callee.rule_succ] at hcall

/-- The rule that a script denotes is described in every grammar by one procedure for all hooks. -/
theorem observe_plug (script : Script α) (options : Options) (hooks : Hooks σ) (bound depth : Nat)
    (s : ParserState σ) : script.denote (.ofDepth options hooks bound depth) s =
      ((script.plug (routines options bound depth)).observe hooks options s).1 := by
  have hrule := Script.describes_plug (describe_routines options hooks bound depth) script s
  rwa [hooks_ofDepth, options_routines] at hrule

def programProcedure (options : Options) (length : Nat) : Procedure Program :=
  Script.program.plug (routines options (length + 2) (4 * (length + 2)))

/-- A program is described by its procedure, which runs behind the reset of the hooks. -/
theorem program_eq_observe (options : Options) (hooks : Hooks σ) (length : Nat)
    (s : ParserState σ) : (ofLength options hooks length).program s =
      ((programProcedure options length).observe hooks options
        { s with hooks := hooks.reset s.hooks }).1 := by
  rw [programProcedure, ← observe_plug, ofLength, Script.program_eq_denote]
  simp only [hooks_ofDepth]
  rfl

end Grammar

end EcmaScript
