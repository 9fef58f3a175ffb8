import EcmaScript.Grammar.Function

/-!
Classes.

Class code is strict from the name of the class to its closing brace. The hooks see the elements
of a class between `enterClass` and `exitClass`, and the function of a method between
`enterMethod` and `exitMethod`, also when they cannot be read.
-/

namespace EcmaScript.Grammar

open Parse

variable {σ : Type}

/-- What the word `static` is at the start of a class element. -/
inductive StaticRole where
  /-- Not there, or the name of the element. -/
  | absent
  | modifier
  /-- The start of a static block. -/
  | block
deriving DecidableEq

/-- Reads `static` unless it is the name of the element. -/
def staticRole : Parse σ StaticRole := do
  unless ← nextIsWord .static do return .absent
  let (second, _) ← peekSecond
  if second == .punctuator .lBrace then
    skip
    return .block
  if second.endsPropertyName then
    return .absent
  skip
  return .modifier

/-- Reads `async` if it modifies the element, and says whether it does. -/
def asyncModifier : Parse σ Bool := do
  unless ← nextIsWord .async do return false
  let (second, newline) ← peekSecond
  if newline || second.endsPropertyName then
    return false
  skip
  return true

/-- Reads `get` or `set` if it modifies the element. -/
def accessorModifier : Parse σ (Option MethodKind) := do
  let kind ←
    match ← peek with
    | .identifier "get" false => pure MethodKind.get
    | .identifier "set" false => pure MethodKind.set
    | _ => return none
  let (second, _) ← peekSecond
  if second.endsPropertyName then
    return none
  skip
  return some kind

/-- What stands in front of the key of an element, `static` apart. -/
structure Modifiers where
  isAsync : Bool
  isGenerator : Bool
  accessor : Option MethodKind

/-- Reads the modifiers in front of a key. -/
def modifiers : Parse σ Modifiers := do
  let isAsync ← asyncModifier
  let isGenerator ← accept .star
  let accessor ← if isAsync || isGenerator then pure none else accessorModifier
  return ⟨isAsync, isGenerator, accessor⟩

def Modifiers.needMethod (m : Modifiers) : Bool :=
  m.isAsync || m.isGenerator || m.accessor.isSome

/-- The key of a class element, and whether it is computed. -/
def classKey (g : Grammar σ) : Parse σ (PropertyKey × Bool) := do
  if ← nextIsPrivateName then
    return (.privateName (← privateName), false)
  g.propertyKey

/-- What a class element with a private name declares. -/
def memberKind (isMethod : Bool) (accessor : Option MethodKind) : MemberKind :=
  match isMethod, accessor with
  | false, _ => .field
  | true, some .get => .get
  | true, some .set => .set
  | true, _ => .method

/-- Reports a private name to the hooks, which may refuse it. -/
def declarePrivate (g : Grammar σ) (name : PrivateName) (kind : MemberKind) (start : Position) :
    Parse σ Unit := do
  unless ← hook (g.hooks.declareMember name kind start g.options) do
    unexpectedAt name.span.start

/-- The kind of a method, by its modifiers and its key: a method named `constructor` that is not
static takes no modifiers, and no static method is named `prototype`. -/
def methodKind (key : PropertyKey) (computed isStatic : Bool) (m : Modifiers) :
    Except Diagnostic MethodKind := do
  let isNamed (name : String) : Bool := !computed && key.staticName? == some name
  if !isStatic && isNamed "constructor" then
    if m.accessor.isSome then
      throw (.located (.classElement .accessorConstructor) key.start)
    if m.isGenerator then
      throw (.located (.classElement .generatorConstructor) key.start)
    if m.isAsync then
      throw (.located (.classElement .asyncConstructor) key.start)
    return .constructor
  if isStatic && isNamed "prototype" then
    throw (.located (.classElement .staticPrototype) key.start)
  return m.accessor.getD .method

/-- Refuses a getter with parameters and a setter without exactly one. -/
def checkAccessor (kind : MethodKind) (function : Function) : Except Diagnostic Unit :=
  match kind, function.params with
  | .get, [] => .ok ()
  | .get, _ => .error (.located (.classElement .getterParameters) function.span.start)
  | .set, [param] =>
    if param.isRest then
      .error (.located (.classElement .setterParameters) function.span.start)
    else
      .ok ()
  | .set, _ => .error (.located (.classElement .setterParameters) function.span.start)
  | _, _ => .ok ()

def classMethod (g : Grammar σ) (start : Position) (key : PropertyKey) (computed isStatic : Bool)
    (m : Modifiers) : Parse σ ClassElement := do
  let kind ← ensure (methodKind key computed isStatic m)
  let saved ← update (g.hooks.enterMethod key)
  let function ← closing (update fun s => ((), g.hooks.exitMethod saved s))
    (g.methodFunction m.isAsync m.isGenerator)
  ensure (checkAccessor kind function)
  return .method key kind function isStatic computed (← spanFrom start)

def inFieldInitializer {α : Type} (rule : Parse σ α) : Parse σ α :=
  within ({ · with inMethod := true, inAsync := false, inGenerator := false })
    (fun before now => some { now with
      inMethod := before.inMethod
      inAsync := before.inAsync
      inGenerator := before.inGenerator }) (allowingIn rule)

def classField (g : Grammar σ) (start : Position) (key : PropertyKey) (computed isStatic : Bool) :
    Parse σ ClassElement := do
  if !computed && key.staticName? == some "constructor" then
    fail (.classElement .constructorField) key.start
  let value ←
    if ← accept .assign then some <$> inFieldInitializer g.assignment else pure none
  endStatement
  return .field key value isStatic computed (← spanFrom start)

def enterStaticBlock (context : Context) : Context :=
  { context with
    inMethod := true
    functionDepth := 0
    loopDepth := 0
    switchDepth := 0
    inAsync := false
    inGenerator := false }

def leaveStaticBlock (before now : Context) : Option Context :=
  some { before with strict := now.strict, inForInit := now.inForInit }

def staticBlock (g : Grammar σ) (start : Position) : Parse σ ClassElement := do
  let body ← within enterStaticBlock leaveStaticBlock g.block
  return .staticBlock body (← spanFrom start)

def classElement (g : Grammar σ) : Parse σ ClassElement := do
  let start ← startPosition
  let role ← staticRole
  if role == .block then
    return ← g.staticBlock start
  let isStatic := role == .modifier
  let m ← modifiers
  let (key, computed) ← g.classKey
  let isMethod ← nextIs .lParen
  if !isMethod && m.needMethod then
    unexpected
  if let .privateName name := key then
    g.declarePrivate name (memberKind isMethod m.accessor) start
  if isMethod then
    g.classMethod start key computed isStatic m
  else
    g.classField start key computed isStatic

def isConstructor : ClassElement → Bool
  | .method _ .constructor _ _ _ _ => true
  | _ => false

def elementSpan : ClassElement → Span
  | .method _ _ _ _ _ span | .field _ _ _ _ span | .staticBlock _ span => span

/-- The next class element, or the closing brace; there is at most one constructor. -/
def classElementsRound (g : Grammar σ) (elements : List ClassElement) :
    Parse σ (Round (List ClassElement) (List ClassElement)) := do
  if ← accept .semicolon then
    return .again elements
  if ← accept .rBrace then
    return .stop elements
  let element ← g.classElement
  if isConstructor element && elements.any isConstructor then
    fail (.classElement .duplicateConstructor) (elementSpan element).start
  return .again (element :: elements)

def classElements (g : Grammar σ) : Parse σ (List ClassElement) := do
  let elements ← g.loop g.classElementsRound []
  return elements.reverse

/-- The braces of a class and the elements between them. -/
def classBody (g : Grammar σ) : Parse σ ClassBody := do
  let start ← startPosition
  expect .lBrace
  update fun s => ((), g.hooks.enterClass s)
  let elements ← closing (hook g.hooks.exitClass) g.classElements
  return ⟨elements, ← spanFrom start⟩

/-- A class whose span begins at `start`, and its name, which a declaration must have. -/
def classDefinition (g : Grammar σ) (start : Position) (isDeclaration : Bool) :
    Parse σ (Option String × Class) := do
  expectWord .class_
  within ({ · with strict := true })
    (fun before now => some { now with strict := before.strict }) do
    let name ←
      if ← nextIsIdentifier then some <$> (·.1) <$> g.bindingIdentifier
      else if isDeclaration then unexpected
      else pure none
    let superClass ←
      if ← acceptWord .extends_ then some <$> g.leftHandSide else pure none
    let body ← g.classBody
    return (name, ⟨superClass, body, ← spanFrom start⟩)

end EcmaScript.Grammar
