import EcmaScript.Hooks

/-!
Hooks that record their calls.

The record shows in which order a parser calls its hooks. Answers are fixed in advance, and one
call may be made to fail, so that the calls after a failure can be seen as well.
-/

namespace EcmaScript

/-- A recorded call with its arguments. -/
inductive HookCall where
  | reset
  | enterClass
  | exitClass
  | declareMember (name : PrivateName) (kind : MemberKind) (elementStart : Position)
      (options : Options)
  | enterMethod (key : PropertyKey)
  | exitMethod (saved : Bool)
  | referenceName (name : PrivateName) (options : Options)
  | afterUnary (expression : Expression)
  | afterAtom (atom : Expression) (next : Token)

inductive FallibleHook where
  | exitClass
  | declareMember
  | referenceName
  | afterUnary
  | afterAtom
deriving DecidableEq

namespace FallibleHook

/-- Name of the hook in reports. -/
def name : FallibleHook → String
  | .exitClass => "exit_class"
  | .declareMember => "declare"
  | .referenceName => "reference"
  | .afterUnary => "after_unary"
  | .afterAtom => "after_atom"

def ofName? (name : String) : Option FallibleHook :=
  [exitClass, declareMember, referenceName, afterUnary, afterAtom].find? (·.name == name)

end FallibleHook

namespace HookCall

def isOf (hook : FallibleHook) : HookCall → Bool
  | .exitClass => hook == .exitClass
  | .declareMember _ _ _ _ => hook == .declareMember
  | .referenceName _ _ => hook == .referenceName
  | .afterUnary _ => hook == .afterUnary
  | .afterAtom _ _ => hook == .afterAtom
  | _ => false

def isEnterMethod : HookCall → Bool
  | .enterMethod _ => true
  | _ => false

end HookCall

/-- What recording hooks answer. -/
structure Recording where
  tokenRules : List TokenRule := []
  acceptDeclarations : Bool := true
  acceptReferences : Bool := true
  /-- A hook and which of its calls, from one, fails. -/
  failing : Option (FallibleHook × Nat) := none

/-- The calls made so far, last one first. -/
abbrev CallLog := List HookCall

namespace Recording

def record (recording : Recording) (hook : FallibleHook) (call : HookCall) : Hook CallLog Unit := do
  modify (call :: ·)
  if let some (failing, count) := recording.failing then
    if failing == hook && (← get).countP (·.isOf hook) == count then
      throw ⟨.custom .earlyError (hook.name ++ " failed"), none⟩

/-- The hooks that record their calls. Every other call of `enterMethod` returns true, beginning
with the first. -/
def hooks (recording : Recording) : Hooks CallLog where
  tokenRules := recording.tokenRules
  reset := (.reset :: ·)
  enterClass := (.enterClass :: ·)
  exitClass := recording.record .exitClass .exitClass
  declareMember := fun name kind elementStart options => do
    recording.record .declareMember (.declareMember name kind elementStart options)
    return recording.acceptDeclarations
  enterMethod := fun key log =>
    (log.countP (·.isEnterMethod) % 2 == 0, .enterMethod key :: log)
  exitMethod := fun saved log => .exitMethod saved :: log
  referenceName := fun name options => do
    recording.record .referenceName (.referenceName name options)
    return recording.acceptReferences
  afterUnary := fun e => recording.record .afterUnary (.afterUnary e)
  afterAtom := fun atom next => recording.record .afterAtom (.afterAtom atom next)

end Recording

end EcmaScript
