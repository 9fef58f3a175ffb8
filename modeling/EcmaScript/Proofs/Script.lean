import EcmaScript.Grammar
import EcmaScript.Proofs.Procedure

/-!
Scripts: procedures with calls of the rules that recur.

A script is a grammar rule as data before the recursion of the grammar is tied: where the rule calls
a recurring one, the script has a call, and where it repeats a round, a loop. In every grammar a
script denotes a rule. Plugging procedures into the calls makes a procedure of it, which describes
that rule in every grammar that the plugged procedures describe. What a rule does with its calls can
so be read off its script, at any depth of the recursion.
-/

namespace EcmaScript

variable {σ α β : Type}

/-- The rules of a grammar that recur. -/
inductive Recurring : Type → Type where
  | statement : Recurring Statement
  | assignment : Recurring Expression
  | binary (least : Nat) : Recurring Expression
  | unary : Recurring Expression
  | leftHandSide : Recurring Expression
  | newExpression : Recurring Expression
  | bindingTarget : Recurring Pattern

namespace Recurring

/-- The rule of the grammar that is called. -/
def rule (g : Grammar σ) : {α : Type} → Recurring α → Parse σ α
  | _, .statement => g.statement
  | _, .assignment => g.assignment
  | _, .binary least => g.binary least
  | _, .unary => g.unary
  | _, .leftHandSide => g.leftHandSide
  | _, .newExpression => g.newExpression
  | _, .bindingTarget => g.bindingTarget

/-- The rule that the called one is, one level deeper. -/
def unfold (g : Grammar σ) : {α : Type} → Recurring α → Parse σ α
  | _, .statement => g.statementRule
  | _, .assignment => g.assignmentRule
  | _, .binary least => g.binaryRule least
  | _, .unary => g.unaryRule
  | _, .leftHandSide => g.leftHandSideRule
  | _, .newExpression => g.newExpressionRule
  | _, .bindingTarget => g.bindingTargetRule

theorem rule_zero (options : Options) (hooks : Hooks σ) (bound : Nat) (call : Recurring α) :
    call.rule (.ofDepth options hooks bound 0) = throw .exhausted := by
  cases call <;> rfl

theorem rule_succ (options : Options) (hooks : Hooks σ) (bound depth : Nat) (call : Recurring α) :
    call.rule (.ofDepth options hooks bound (depth + 1)) =
      call.unfold (.ofDepth options hooks bound depth) := by
  cases call <;> rfl

end Recurring

/-- A grammar rule as data, with calls of the rules that recur. -/
inductive Script : Type → Type 1 where
  /-- A step without calls. -/
  | leaf {α : Type} (procedure : Procedure α) : Script α
  /-- Asks for the options of the parser. -/
  | options : Script Options
  | call {α : Type} (callee : Recurring α) : Script α
  | bind {α β : Type} (first : Script β) (next : β → Script α) : Script α
  /-- Repeats a round until it stops. -/
  | loop {α β : Type} (round : α → Script (Round α β)) (start : α) : Script β
  | within {α : Type} (region : Region) (body : Script α) : Script α
  | arrow {α : Type} (isAsync : Bool) (body : Bool → Script α) : Script α
  | inClass {α : Type} (body : Script α) : Script α
  | inMethod {α : Type} (key : PropertyKey) (body : Script α) : Script α

namespace Script

instance : Monad Script where
  pure a := .leaf (.pure a)
  bind := .bind

def denote (g : Grammar σ) : {α : Type} → Script α → Parse σ α
  | _, .leaf procedure => fun s => (procedure.observe g.hooks g.options s).1
  | _, .options => pure g.options
  | _, .call callee => callee.rule g
  | _, .bind first next => first.denote g >>= fun b => (next b).denote g
  | _, .loop round start => g.loop (fun a => (round a).denote g) start
  | _, .within region body => Parse.within region.enter region.leave (body.denote g)
  | _, .arrow isAsync body => do
    let before ← Parse.context
    Parse.setContext (Grammar.enterArrow isAsync)
    let isBlock ← Parse.nextIs .lBrace
    Parse.closing (Parse.leaving (Grammar.leaveArrow before)) ((body isBlock).denote g)
  | _, .inClass body => do
    Parse.update fun s => ((), g.hooks.enterClass s)
    Parse.closing (Parse.hook g.hooks.exitClass) (body.denote g)
  | _, .inMethod key body => do
    let saved ← Parse.update (g.hooks.enterMethod key)
    Parse.closing (Parse.update fun s => ((), g.hooks.exitMethod saved s)) (body.denote g)

end Script

/-! ## Procedures for scripts -/

/-- Procedures for the rules of a grammar that recur. -/
structure Routines where
  options : Options
  bound : Nat
  call : {α : Type} → Recurring α → Procedure α

/-- The procedure has the outcome of the rule, from every state. -/
def Procedure.Describes (procedure : Procedure α) (hooks : Hooks σ) (options : Options)
    (rule : Parse σ α) : Prop :=
  ∀ s, rule s = (procedure.observe hooks options s).1

structure Routines.Describe (r : Routines) (g : Grammar σ) : Prop where
  options : g.options = r.options
  bound : g.bound = r.bound
  call : ∀ {α : Type} (call : Recurring α), (r.call call).Describes g.hooks r.options (call.rule g)

/-- Repeats a round until it stops, at most as often as the bound says. -/
def Procedure.rounds (round : α → Procedure (Round α β)) : Nat → α → Procedure β
  | 0, _ => .exhaust
  | bound + 1, a => .bind (round a) fun
    | .again a' => rounds round bound a'
    | .stop b => .pure b

/-- The procedure for a loop runs its rounds. -/
theorem Procedure.describes_rounds {hooks : Hooks σ} {options : Options}
    {round : α → Parse σ (Round α β)} {procedure : α → Procedure (Round α β)}
    (h : ∀ a, (procedure a).Describes hooks options (round a)) (bound : Nat) (a : α) :
    (Procedure.rounds procedure bound a).Describes hooks options (repeatRounds round bound a) := by
  induction bound generalizing a with
  | zero => exact fun _ => rfl
  | succ bound ih =>
    intro s
    simp only [repeatRounds, Procedure.rounds, Procedure.observe, Bind.bind, EStateM.bind, h a s]
    rcases Procedure.observe hooks options (procedure a) s with ⟨result, events⟩
    rcases result with ⟨_ | _, s⟩ | ⟨e, s⟩
    · exact ih _ s
    · rfl
    · rfl

namespace Script

/-- The script with its calls replaced. -/
def plug (r : Routines) : {α : Type} → Script α → Procedure α
  | _, .leaf procedure => procedure
  | _, .options => .pure r.options
  | _, .call callee => r.call callee
  | _, .bind first next => .bind (first.plug r) fun b => (next b).plug r
  | _, .loop round start => .rounds (fun a => (round a).plug r) r.bound start
  | _, .within region body => .within region (body.plug r)
  | _, .arrow isAsync body => .arrow isAsync fun isBlock => (body isBlock).plug r
  | _, .inClass body => .inClass (body.plug r)
  | _, .inMethod key body => .inMethod key (body.plug r)

/-- With procedures for the rules that recur in its calls, the script is a procedure for the rule
that it denotes. -/
theorem describes_plug {r : Routines} {g : Grammar σ} (hr : r.Describe g) (script : Script α) :
    (script.plug r).Describes g.hooks r.options (script.denote g) := by
  induction script with
  | leaf procedure => exact fun s => by rw [denote, hr.options]; rfl
  | options => exact fun s => by rw [denote, hr.options]; rfl
  | call callee => exact hr.call callee
  | bind first next hfirst hnext =>
    intro s
    simp only [denote, plug, Procedure.observe, Bind.bind, EStateM.bind, hfirst s]
    rcases Procedure.observe g.hooks r.options (first.plug r) s with ⟨result, events⟩
    cases result with
    | ok b s => exact hnext b s
    | error e s => rfl
  | loop round start hround =>
    intro s
    rw [denote, Grammar.loop, hr.bound]
    exact Procedure.describes_rounds hround r.bound start s
  | within region body hbody =>
    exact fun s => Parse.closing_eq _ _ (hbody { s with context := region.enter s.context })
  | arrow isAsync body hbody =>
    intro s
    change (Parse.nextIs .lBrace >>= fun isBlock =>
      Parse.closing (Parse.leaving (Grammar.leaveArrow s.context)) ((body isBlock).denote g))
        { s with context := Grammar.enterArrow isAsync s.context } = _
    simp only [plug, Procedure.observe, Bind.bind, EStateM.bind]
    cases Parse.nextIs .lBrace { s with context := Grammar.enterArrow isAsync s.context } with
    | error e inside => rfl
    | ok isBlock inside => exact Parse.closing_eq _ _ (hbody isBlock inside)
  | inClass body hbody =>
    exact fun s => Parse.closing_eq _ _ (hbody { s with hooks := g.hooks.enterClass s.hooks })
  | inMethod key body hbody =>
    intro s
    let saved := (g.hooks.enterMethod key s.hooks).1
    exact Parse.closing_eq (Parse.update fun s' => ((), g.hooks.exitMethod saved s'))
      (fun _ => .exitMethod saved) (hbody { s with hooks := (g.hooks.enterMethod key s.hooks).2 })

end Script

end EcmaScript
