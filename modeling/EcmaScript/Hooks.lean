import EcmaScript.ClassScope
import EcmaScript.Scan.Token
import EcmaScript.Tree.Basic

/-!
Hooks: what a parser asks while it builds the tree.

A parser calls its hooks at fixed points of the grammar: around class bodies and class methods, for
private names, and after every unary and every primary expression. The hooks keep a state of
their own. `Hooks.silent` leaves the language as it is; `Hooks.permissive` adds private names
without any rule about them.
-/

namespace EcmaScript

/-- A hook that may refuse the source. -/
abbrev Hook (σ α : Type) := EStateM Diagnostic σ α

/-- The calls that a parser makes, over a state `σ`. -/
structure Hooks (σ : Type) where
  /-- Scanning rules tried before the language's own. -/
  tokenRules : List TokenRule := []
  /-- At the start of every parse. -/
  reset : σ → σ := id
  /-- In front of the elements of a class. -/
  enterClass : σ → σ := id
  /-- Behind the elements of a class, also if they could not be read. -/
  exitClass : Hook σ Unit := pure ()
  /-- A class element with a private name, which starts at the position; `false` refuses it. -/
  declareMember : PrivateName → MemberKind → Position → Options → Hook σ Bool :=
    fun _ _ _ _ => pure false
  /-- In front of the parameters of a class method. -/
  enterMethod : PropertyKey → σ → Bool × σ := fun _ s => (false, s)
  /-- Behind the body of a class method, also if it could not be read, with what `enterMethod`
  returned. -/
  exitMethod : Bool → σ → σ := fun _ s => s
  /-- A private name as the property of a member access; `false` refuses it. -/
  referenceName : PrivateName → Options → Hook σ Bool := fun _ _ => pure false
  /-- A complete unary expression. -/
  afterUnary : Expression → Hook σ Unit := fun _ => pure ()
  /-- A complete primary expression and the token behind it. -/
  afterAtom : Expression → Token → Hook σ Unit := fun _ _ => pure ()

namespace Hooks

/-- Hooks that add nothing but the given token rules. -/
def silent (rules : List TokenRule) : Hooks Unit where
  tokenRules := rules

/-- Hooks that read private names and accept every use of them. -/
def permissive : Hooks Unit where
  tokenRules := [TokenRule.privateName]
  declareMember := fun _ _ _ _ => pure true
  referenceName := fun _ _ => pure true

end Hooks

end EcmaScript
