import EcmaScript.Proofs.Script.Pattern

/-!
Scripts of the rules for statement lists, functions and classes.
-/

namespace EcmaScript.Script

open Grammar (ListRead StaticRole Modifiers)

variable {σ α : Type} (g : Grammar σ)

/-! ## Statement lists and functions -/

def statementListRound (done : Script Bool) (list : ListRead) :
    Script (Round ListRead (List Statement)) := do
  if ← done then
    return .stop list.statements.reverse
  let statement ← statement
  let directive := if list.inPrologue then statement.directive? else none
  if directive == some "use strict" then
    beStrict
  return .again ⟨statement :: list.statements, directive.isSome⟩

def statementList (done : Script Bool) : Script (List Statement) :=
  loop (statementListRound done) {}

def blockRound (statements : List Statement) :
    Script (Round (List Statement) (List Statement)) := do
  if ← nextIs .rBrace then
    return .stop statements
  return .again ((← statement) :: statements)

def block : Script (List Statement) := do
  expect .lBrace
  let body ← loop blockRound []
  expect .rBrace
  return body.reverse

def functionBody : Script (List Statement) := do
  expect .lBrace
  let body ← statementList (nextIs .rBrace)
  expect .rBrace
  return body

def formalParametersRound (params : List Pattern) :
    Script (Round (List Pattern) (List Pattern)) := do
  if ← accept .rParen then
    return .stop params
  if ← nextIs .spread then
    let rest ← restElement
    expect .rParen
    return .stop (rest :: params)
  let param ← bindingElement
  if ← accept .comma then
    return .again (param :: params)
  expect .rParen
  return .stop (param :: params)

def formalParameters : Script (List Pattern) := do
  expect .lParen
  let params ← loop formalParametersRound []
  return params.reverse

def functionRest (start : Position) (isAsync isGenerator isMethod : Bool) : Script Function := do
  let (params, body) ← within (.function isAsync isGenerator isMethod) do
    let params ← formalParameters
    let body ← functionBody
    return (params, body)
  return ⟨params, body, isAsync, isGenerator, ← spanFrom start⟩

def methodFunction (isAsync isGenerator : Bool) : Script Function := do
  let start ← startPosition
  functionRest start isAsync isGenerator true

def optionalName : Script (Option String) := do
  if ← nextIsIdentifier then some <$> (·.1) <$> bindingIdentifier else pure none

def functionExpression (start : Position) (isAsync : Bool) : Script Expression := do
  expectWord .function
  let isGenerator ← accept .star
  let name ← optionalName
  return .function name (← functionRest start isAsync isGenerator false)

def arrowFunction (start : Position) (params : List Pattern) (isAsync : Bool) :
    Script Expression := do
  expect .arrow
  let body ← arrow isAsync fun isBlock =>
    if isBlock then .block <$> functionBody else .expression <$> assignment
  return .arrow params body isAsync (← spanFrom start)

@[simp] theorem denote_statementListRound (done : Script Bool) (list : ListRead) :
    (statementListRound done list).denote g = g.statementListRound (done.denote g) list := by
  simp [statementListRound, Grammar.statementListRound]

@[simp] theorem denote_statementList (done : Script Bool) :
    (statementList done).denote g = g.statementList (done.denote g) := by
  simp [statementList, Grammar.statementList]

@[simp] theorem denote_blockRound (statements : List Statement) :
    (blockRound statements).denote g = g.blockRound statements := by
  simp [blockRound, Grammar.blockRound]

@[simp] theorem denote_block : block.denote g = g.block := by
  simp [block, Grammar.block]

@[simp] theorem denote_functionBody : functionBody.denote g = g.functionBody := by
  simp [functionBody, Grammar.functionBody]

@[simp] theorem denote_formalParametersRound (params : List Pattern) :
    (formalParametersRound params).denote g = g.formalParametersRound params := by
  simp [formalParametersRound, Grammar.formalParametersRound]

@[simp] theorem denote_formalParameters : formalParameters.denote g = g.formalParameters := by
  simp [formalParameters, Grammar.formalParameters]

@[simp] theorem denote_functionRest (start : Position) (isAsync isGenerator isMethod : Bool) :
    (functionRest start isAsync isGenerator isMethod).denote g =
      g.functionRest start isAsync isGenerator isMethod := by
  simp only [functionRest, denote_bind, denote_within, denote_formalParameters,
    denote_functionBody, denote_pure, denote_spanFrom]
  rfl

@[simp] theorem denote_methodFunction (isAsync isGenerator : Bool) :
    (methodFunction isAsync isGenerator).denote g = g.methodFunction isAsync isGenerator := by
  simp [methodFunction, Grammar.methodFunction]

@[simp] theorem denote_functionExpression (start : Position) (isAsync : Bool) :
    (functionExpression start isAsync).denote g = g.functionExpression start isAsync := by
  simp [functionExpression, optionalName, Grammar.functionExpression]

@[simp] theorem denote_arrow (isAsync : Bool) (body : Bool → Script α) :
    (arrow isAsync body).denote g = (do
      let before ← Parse.context
      Parse.setContext (Grammar.enterArrow isAsync)
      let isBlock ← Parse.nextIs .lBrace
      Parse.closing (Parse.leaving (Grammar.leaveArrow before)) ((body isBlock).denote g)) := rfl

@[simp] theorem denote_arrowFunction (start : Position) (params : List Pattern) (isAsync : Bool) :
    (arrowFunction start params isAsync).denote g = g.arrowFunction start params isAsync := by
  simp [arrowFunction, Grammar.arrowFunction]

/-! ## Class elements -/

def staticRole : Script StaticRole := do
  unless ← nextIsWord .static do return .absent
  let (second, _) ← peekSecond
  if second == .punctuator .lBrace then
    skip
    return .block
  if second.endsPropertyName then
    return .absent
  skip
  return .modifier

def asyncModifier : Script Bool := do
  unless ← nextIsWord .async do return false
  let (second, newline) ← peekSecond
  if newline || second.endsPropertyName then
    return false
  skip
  return true

def accessorKind? : Token → Option MethodKind
  | .identifier "get" false => some .get
  | .identifier "set" false => some .set
  | _ => none

def accessorModifier : Script (Option MethodKind) := do
  match accessorKind? (← peek) with
  | none => return none
  | some kind =>
    let (second, _) ← peekSecond
    if second.endsPropertyName then
      return none
    skip
    return some kind

def modifiers : Script Modifiers := do
  let isAsync ← asyncModifier
  let isGenerator ← accept .star
  let accessor ← if isAsync || isGenerator then pure none else accessorModifier
  return ⟨isAsync, isGenerator, accessor⟩

def classKey : Script (PropertyKey × Bool) := do
  if ← nextIsPrivateName then
    return (.privateName (← privateName), false)
  propertyKey

def classMethod (start : Position) (key : PropertyKey) (computed isStatic : Bool)
    (m : Modifiers) : Script ClassElement := do
  let kind ← ensure (Grammar.methodKind key computed isStatic m)
  let function ← inMethod key (methodFunction m.isAsync m.isGenerator)
  ensure (Grammar.checkAccessor kind function)
  return .method key kind function isStatic computed (← spanFrom start)

def inFieldInitializer (body : Script α) : Script α :=
  within .fieldInitializer (allowingIn body)

def fieldValue : Script (Option Expression) := do
  if ← accept .assign then some <$> inFieldInitializer assignment else pure none

def classField (start : Position) (key : PropertyKey) (computed isStatic : Bool) :
    Script ClassElement := do
  if !computed && key.staticName? == some "constructor" then
    fail (.classElement .constructorField) key.start
  let value ← fieldValue
  endStatement
  return .field key value isStatic computed (← spanFrom start)

def staticBlock (start : Position) : Script ClassElement := do
  let body ← within .staticBlock block
  return .staticBlock body (← spanFrom start)

def classElement : Script ClassElement := do
  let start ← startPosition
  let role ← staticRole
  if role == .block then
    return ← staticBlock start
  let isStatic := role == .modifier
  let m ← modifiers
  let (key, computed) ← classKey
  let isMethod ← nextIs .lParen
  if !isMethod && m.needMethod then
    unexpected
  if let .privateName name := key then
    declarePrivate name (Grammar.memberKind isMethod m.accessor) start
  if isMethod then
    classMethod start key computed isStatic m
  else
    classField start key computed isStatic

@[simp] theorem denote_staticRole : staticRole.denote g = Grammar.staticRole := by
  simp [staticRole, Grammar.staticRole]

@[simp] theorem denote_asyncModifier : asyncModifier.denote g = Grammar.asyncModifier := by
  simp [asyncModifier, Grammar.asyncModifier]

/-- Which accessor it is depends on the next token alone. -/
theorem accessorModifier_eq : (Grammar.accessorModifier : Parse σ _) = (do
    match accessorKind? (← Parse.peek) with
    | none => return none
    | some kind =>
      let (second, _) ← Parse.peekSecond
      if second.endsPropertyName then
        return none
      Parse.skip
      return some kind) := by
  unfold Grammar.accessorModifier
  refine bind_congr fun token => ?_
  split
  · rfl
  · rfl
  · next hget hset => simp only [accessorKind?]

@[simp] theorem denote_accessorModifier : accessorModifier.denote g = Grammar.accessorModifier := by
  simp only [accessorModifier, accessorModifier_eq, denote_bind, denote_peek]
  refine bind_congr fun token => ?_
  cases accessorKind? token <;> simp

@[simp] theorem denote_modifiers : modifiers.denote g = Grammar.modifiers := by
  simp [modifiers, Grammar.modifiers]

@[simp] theorem denote_classKey : classKey.denote g = g.classKey := by
  simp [classKey, Grammar.classKey]

@[simp] theorem denote_inMethod (key : PropertyKey) (body : Script α) :
    (inMethod key body).denote g = (do
      let saved ← Parse.update (g.hooks.enterMethod key)
      Parse.closing (Parse.update fun s => ((), g.hooks.exitMethod saved s)) (body.denote g)) := rfl

@[simp] theorem denote_classMethod (start : Position) (key : PropertyKey)
    (computed isStatic : Bool) (m : Modifiers) :
    (classMethod start key computed isStatic m).denote g =
      g.classMethod start key computed isStatic m := by
  simp [classMethod, Grammar.classMethod]

@[simp] theorem denote_inFieldInitializer (body : Script α) :
    (inFieldInitializer body).denote g = Grammar.inFieldInitializer (body.denote g) := rfl

@[simp] theorem denote_classField (start : Position) (key : PropertyKey)
    (computed isStatic : Bool) :
    (classField start key computed isStatic).denote g =
      g.classField start key computed isStatic := by
  simp [classField, fieldValue, Grammar.classField]

@[simp] theorem denote_staticBlock (start : Position) :
    (staticBlock start).denote g = g.staticBlock start := by
  simp only [staticBlock, denote_bind, denote_within, denote_block, denote_spanFrom, denote_pure]
  rfl

@[simp] theorem denote_classElement : classElement.denote g = g.classElement := by
  simp only [classElement, Grammar.classElement, denote_bind, denote_startPosition,
    denote_staticRole, denote_ite, denote_staticBlock, denote_modifiers, denote_classKey]
  refine bind_congr fun start => bind_congr fun role => ?_
  congr
  funext m
  refine bind_congr fun read => ?_
  obtain ⟨key, computed⟩ := read
  cases key <;> simp

/-! ## Classes -/

def classElementsRound (elements : List ClassElement) :
    Script (Round (List ClassElement) (List ClassElement)) := do
  if ← accept .semicolon then
    return .again elements
  if ← accept .rBrace then
    return .stop elements
  let element ← classElement
  if Grammar.isConstructor element && elements.any Grammar.isConstructor then
    fail (.classElement .duplicateConstructor) (Grammar.elementSpan element).start
  return .again (element :: elements)

def classElements : Script (List ClassElement) := do
  let elements ← loop classElementsRound []
  return elements.reverse

def classBody : Script ClassBody := do
  let start ← startPosition
  expect .lBrace
  let elements ← inClass classElements
  return ⟨elements, ← spanFrom start⟩

def className (isDeclaration : Bool) : Script (Option String) := do
  if ← nextIsIdentifier then some <$> (·.1) <$> bindingIdentifier
  else if isDeclaration then unexpected
  else pure none

/-- What a class extends, if anything. -/
def classHeritage : Script (Option Expression) := do
  if ← acceptWord .extends_ then some <$> leftHandSide else pure none

def classDefinition (start : Position) (isDeclaration : Bool) :
    Script (Option String × Class) := do
  expectWord .class_
  within .classCode do
    let name ← className isDeclaration
    let superClass ← classHeritage
    let body ← classBody
    return (name, ⟨superClass, body, ← spanFrom start⟩)

@[simp] theorem denote_classElementsRound (elements : List ClassElement) :
    (classElementsRound elements).denote g = g.classElementsRound elements := by
  simp [classElementsRound, Grammar.classElementsRound]

@[simp] theorem denote_classElements : classElements.denote g = g.classElements := by
  simp [classElements, Grammar.classElements]

@[simp] theorem denote_inClass (body : Script α) :
    (inClass body).denote g = (do
      Parse.update fun s => ((), g.hooks.enterClass s)
      Parse.closing (Parse.hook g.hooks.exitClass) (body.denote g)) := rfl

@[simp] theorem denote_classBody : classBody.denote g = g.classBody := by
  simp [classBody, Grammar.classBody]

@[simp] theorem denote_classDefinition (start : Position) (isDeclaration : Bool) :
    (classDefinition start isDeclaration).denote g = g.classDefinition start isDeclaration := by
  simp only [classDefinition, className, classHeritage, Grammar.classDefinition, denote_bind,
    denote_expectWord, denote_within, denote_ite, denote_map, denote_pure, denote_nextIsIdentifier,
    denote_bindingIdentifier, denote_unexpected, denote_acceptWord, denote_leftHandSide,
    denote_classBody, denote_spanFrom, bind_assoc, ite_bind]
  rfl

end EcmaScript.Script
