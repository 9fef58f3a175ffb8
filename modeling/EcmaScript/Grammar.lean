import EcmaScript.Grammar.Statement

/-!
The grammar: its rules tied together.

`Grammar.ofDepth n` lets rules recur `n` deep and fails with `exhausted` beyond. Every recurrence
happens at most two rules after a token has been consumed, and a source has at most as many tokens
as characters, so a depth that grows with the source is never reached.
-/

namespace EcmaScript.Grammar

variable {σ : Type}

/-- The grammar whose rules may recur to the given depth. -/
def ofDepth (options : Options) (hooks : Hooks σ) (bound : Nat) : Nat → Grammar σ
  | 0 => {
      options, hooks, bound
      statement := throw .exhausted
      assignment := throw .exhausted
      binary := fun _ => throw .exhausted
      unary := throw .exhausted
      leftHandSide := throw .exhausted
      newExpression := throw .exhausted
      bindingTarget := throw .exhausted }
  | depth + 1 => {
      options, hooks, bound
      statement := fun s => (ofDepth options hooks bound depth).statementRule s
      assignment := fun s => (ofDepth options hooks bound depth).assignmentRule s
      binary := fun least s => (ofDepth options hooks bound depth).binaryRule least s
      unary := fun s => (ofDepth options hooks bound depth).unaryRule s
      leftHandSide := fun s => (ofDepth options hooks bound depth).leftHandSideRule s
      newExpression := fun s => (ofDepth options hooks bound depth).newExpressionRule s
      bindingTarget := fun s => (ofDepth options hooks bound depth).bindingTargetRule s }

def ofLength (options : Options) (hooks : Hooks σ) (length : Nat) : Grammar σ :=
  ofDepth options hooks (length + 2) (4 * (length + 2))

end EcmaScript.Grammar
