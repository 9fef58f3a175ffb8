import EcmaScript.Hooks

/-!
Private names of classes.

These hooks read `#name` tokens, keep the scopes of the open classes and settle every use against
them. They refuse `delete` of a private member and `super(...)` in a private method. With the
policy that allows no reserved words, private names may not be spelled like one; class code is
strict.
-/

namespace EcmaScript

/-- State of the private-name hooks. -/
structure PrivateNames where
  scopes : ClassScopes := {}
  /-- Whether the method being read has a private name. -/
  inPrivateMethod : Bool := false
deriving DecidableEq

namespace PrivateNames

/-- Number of open class bodies. -/
def depth (s : PrivateNames) : Nat := s.scopes.depth

def checkUnreserved (name : PrivateName) (options : Options) : Hook PrivateNames Unit := do
  if options.allowReserved == .never then
    if let some rejection := rejectWord? name.name true options.goal then
      throw (.located (.word rejection) name.span.start)

/-- Closes the innermost class. -/
def exitClass : Hook PrivateNames Unit := fun s =>
  match ClassScopes.pop s.scopes with
  | .ok _ scopes => .ok () { s with scopes }
  | .error d scopes => .error d { s with scopes }

/-- Declares a name in the innermost class; errors on the declaration itself are reported at the
start of the element. -/
def declareIn (name : String) (kind : MemberKind) (elementStart : Position) :
    Hook PrivateNames Unit := fun s =>
  match ClassScopes.declare name kind s.scopes with
  | .ok _ scopes => .ok () { s with scopes }
  | .error violation scopes =>
    .error (.located (.privateName violation) elementStart) { s with scopes }

def declareMember (name : PrivateName) (kind : MemberKind) (elementStart : Position)
    (options : Options) : Hook PrivateNames Bool := do
  if !options.supportsPrivateNames then
    return false
  checkUnreserved name options
  if name.name == "constructor" then
    throw (.located (.privateName .namedConstructor) elementStart)
  declareIn name.name kind elementStart
  return true

/-- Records a use; declined by editions without private names and outside of classes. -/
def referenceName (name : PrivateName) (options : Options) : Hook PrivateNames Bool := do
  if !options.supportsPrivateNames || (← get).scopes.isEmpty then
    return false
  checkUnreserved name options
  modifyGet fun s =>
    let (open_, scopes) := s.scopes.reference name.name name.span.start
    (open_, { s with scopes })

/-- Refuses `delete` of a private member. -/
def afterUnary : Expression → Hook PrivateNames Unit
  | .unary .delete argument span => do
    if argument.isPrivateMember then
      throw (.located (.privateName .deleted) span.start)
  | _ => pure ()

/-- Refuses `super(...)` in a private method. -/
def afterAtom (atom : Expression) (next : Token) : Hook PrivateNames Unit := do
  if let .super span := atom then
    if (← get).inPrivateMethod && next == .punctuator .lParen then
      throw (.located (.privateName .directSuper) span.start)

end PrivateNames

/-- Hooks that read private names and enforce the rules about them. -/
def Hooks.privateNames : Hooks PrivateNames where
  tokenRules := [TokenRule.privateName]
  reset := fun s => { scopes := s.scopes.clear, inPrivateMethod := false }
  enterClass := fun s => { s with scopes := s.scopes.push }
  exitClass := PrivateNames.exitClass
  declareMember := PrivateNames.declareMember
  enterMethod := fun key s => (s.inPrivateMethod, { s with inPrivateMethod := key.isPrivate })
  exitMethod := fun saved s => { s with inPrivateMethod := saved }
  referenceName := PrivateNames.referenceName
  afterUnary := PrivateNames.afterUnary
  afterAtom := PrivateNames.afterAtom

end EcmaScript
