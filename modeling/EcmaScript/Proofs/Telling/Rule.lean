import EcmaScript.Proofs.Run
import EcmaScript.Proofs.Steps
import EcmaScript.Proofs.Tree.Account

/-!
Rules that tell their hooks the account of what they read.

While a rule reads its part of the source, the hooks are called about what it reads. For hooks
that record their calls and accept everything, the record of a rule that succeeds should be the
account of what it returns: `Tells` says so of one rule.

A rule is read from its start: `TellsFrom m` is about the rest of a rule whose part behind us has
the account `m`. Where a rule only looks at the source, it is `Silent`.
-/

namespace EcmaScript

/-- What a call of a hook says about classes and private names. -/
@[simp] def Event.tally : Event → Account
  | .enterClass => .ofCall .enterClass
  | .exitClass => .ofCall .exitClass
  | .enterMethod key _ => .ofCall (.enterMethod key)
  | .exitMethod _ => .ofCall .exitMethod
  | .declareMember name kind start => .ofCall (.declare name kind start)
  | .referenceName name => .ofCall (.reference name)
  | .afterUnary e => if e.isPrivateDelete then .deletion else 0
  | .afterAtom atom next =>
    if atom.isSuper && next == .punctuator .lParen then .ofCall .superCall else 0
  | .raised _ | .left _ _ | .stranded _ => 0

/-- A rule over hooks that record their calls. -/
abbrev TracedParse (α : Type) := Parse (Unit × List Event) α

/-- The account of the calls so far. -/
def ParserState.told (s : ParserState (Unit × List Event)) : Account :=
  (s.hooks.2.map Event.tally).sum

variable {α β : Type}

/-! ## Rules that call no hook -/

/-- Whenever the rule succeeds, it has called no hook. -/
class Silent (p : TracedParse α) : Prop where
  silent : ∀ {s a s'}, p s = .ok a s' → s'.hooks = s.hooks

namespace Silent

open Parse Grammar

instance pure (a : α) : Silent (Pure.pure a) where
  silent h := by cases h; rfl

instance throw (failure : Failure) : Silent (MonadExcept.throw failure : TracedParse α) where
  silent h := by cases h

instance bind {p : TracedParse α} {q : α → TracedParse β} [hp : Silent p]
    [hq : ∀ a, Silent (q a)] : Silent (p >>= q) where
  silent h := by
    obtain ⟨a, between, hfirst, hsecond⟩ := Parse.bind_eq_ok h
    rw [(hq a).silent hsecond, hp.silent hfirst]

/-- Sequencing, for a second rule that needs a choice. -/
theorem step {p : TracedParse α} {q : α → TracedParse β} [Silent p] (hq : ∀ a, Silent (q a)) :
    Silent (p >>= q) :=
  bind

instance map (f : α → β) {p : TracedParse α} [Silent p] : Silent (f <$> p) := by
  rw [map_eq_pure_bind]
  exact step fun _ => pure _

/-- A choice between rules that need choices themselves. -/
theorem either {c : Prop} [Decidable c] {p q : TracedParse α} (hp : Silent p) (hq : Silent q) :
    Silent (if c then p else q) := by
  by_cases h : c
  · rwa [if_pos h]
  · rwa [if_neg h]

instance ite (c : Prop) [Decidable c] {p q : TracedParse α} [hp : Silent p] [hq : Silent q] :
    Silent (if c then p else q) :=
  either hp hq

instance lexing (action : Lexing α) : Silent (Parse.lexing action : TracedParse α) where
  silent {s a s'} h := by
    unfold Parse.lexing at h
    cases haction : action s.lexer with
    | ok a lexer =>
      rw [haction] at h
      cases h
      rfl
    | error e lexer =>
      rw [haction] at h
      cases h

instance ensure (check : Except Diagnostic α) : Silent (Parse.ensure check : TracedParse α) := by
  cases check with
  | ok a => exact pure a
  | error d => exact throw _

instance context : Silent (Parse.context : TracedParse Context) where
  silent h := by cases h; rfl

instance setContext (f : Context → Context) : Silent (Parse.setContext f : TracedParse Unit) where
  silent h := by cases h; rfl

instance nameRules (g : Grammar (Unit × List Event)) : Silent g.nameRules := by
  unfold Grammar.nameRules
  exact step fun _ => pure _

instance peek : Silent (Parse.peek : TracedParse Token) := lexing _

instance next : Silent (Parse.next : TracedParse Token) := lexing _

instance skip : Silent (Parse.skip : TracedParse Unit) := by
  unfold Parse.skip
  exact step fun _ => pure _

instance peekSecond : Silent (Parse.peekSecond : TracedParse (Token × Bool)) := lexing _

instance startPosition : Silent (Parse.startPosition : TracedParse Position) := lexing _

instance newlineBefore : Silent (Parse.newlineBefore : TracedParse Bool) := lexing _

instance lastEnd : Silent (Parse.lastEnd : TracedParse Position) := lexing _

instance spanFrom (start : Position) : Silent (Parse.spanFrom start : TracedParse Span) := by
  unfold Parse.spanFrom
  exact step fun _ => pure _

instance fail (cause : Cause) (position : Position) :
    Silent (Parse.fail cause position : TracedParse α) := throw _

instance unexpectedAt (position : Position) :
    Silent (Parse.unexpectedAt position : TracedParse α) := throw _

instance unexpected : Silent (Parse.unexpected : TracedParse α) := by
  unfold Parse.unexpected
  exact step fun _ => throw _

instance nextIs (symbol : Punctuator) : Silent (Parse.nextIs symbol : TracedParse Bool) := by
  unfold Parse.nextIs
  exact step fun _ => pure _

instance nextIsWord (word : Keyword) : Silent (Parse.nextIsWord word : TracedParse Bool) := by
  unfold Parse.nextIsWord
  exact step fun _ => pure _

instance nextIsName (name : String) : Silent (Parse.nextIsName name : TracedParse Bool) := by
  unfold Parse.nextIsName
  exact step fun _ => pure _

instance nextIsIdentifier : Silent (Parse.nextIsIdentifier : TracedParse Bool) := by
  unfold Parse.nextIsIdentifier
  exact step fun _ => pure _

instance accept (symbol : Punctuator) : Silent (Parse.accept symbol : TracedParse Bool) := by
  unfold Parse.accept
  exact step fun _ => either (step fun _ => pure _) (pure _)

instance acceptWord (word : Keyword) : Silent (Parse.acceptWord word : TracedParse Bool) := by
  unfold Parse.acceptWord
  exact step fun _ => either (step fun _ => pure _) (pure _)

instance expect (symbol : Punctuator) : Silent (Parse.expect symbol : TracedParse Unit) := by
  unfold Parse.expect
  exact step fun _ => either (pure _) unexpected

instance expectWord (word : Keyword) : Silent (Parse.expectWord word : TracedParse Unit) := by
  unfold Parse.expectWord
  exact step fun _ => either (pure _) unexpected

instance atStatementEnd : Silent (Parse.atStatementEnd : TracedParse Bool) := by
  unfold Parse.atStatementEnd
  exact step fun _ => either (pure _) (step fun _ => pure _)

instance endStatement : Silent (Parse.endStatement : TracedParse Unit) := by
  unfold Parse.endStatement
  exact step fun _ => either (pure _) (step fun _ => either (pure _) unexpected)

variable (g : Grammar (Unit × List Event))

instance identifierReference : Silent g.identifierReference := by
  unfold Grammar.identifierReference
  refine step fun start => step fun token => ?_
  have hchecked (name : String) : Silent (do
      let rules ← g.nameRules
      Parse.ensure (rules.checkWord name start)
      let span ← Parse.spanFrom start
      Pure.pure (name, span) : TracedParse (String × Span)) :=
    step fun _ => step fun _ => step fun _ => pure _
  cases token with
  | identifier name _ => exact hchecked name
  | keyword word =>
    exact step fun _ => either (hchecked _) (step fun _ => hchecked _)
  | _ => exact step fun _ => hchecked _

instance bindingIdentifier : Silent g.bindingIdentifier := by
  unfold Grammar.bindingIdentifier
  exact step fun _ => step fun _ => step fun _ => pure _

instance privateName : Silent (Grammar.privateName : TracedParse PrivateName) := by
  unfold Grammar.privateName
  refine step fun start => step fun token => ?_
  cases token with
  | privateName name => exact either (step fun _ => step fun _ => pure _) (step fun _ => pure _)
  | _ => exact unexpectedAt start

instance nextIsPrivateName : Silent (Grammar.nextIsPrivateName : TracedParse Bool) := by
  unfold Grammar.nextIsPrivateName
  refine step fun token => ?_
  cases token <;> exact pure _

instance staticRole : Silent (Grammar.staticRole : TracedParse StaticRole) := by
  unfold Grammar.staticRole
  refine step fun isStatic => either (step fun _ => either (step fun _ => pure _) ?_) (pure _)
  exact either (pure _) (step fun _ => pure _)

instance asyncModifier : Silent (Grammar.asyncModifier : TracedParse Bool) := by
  unfold Grammar.asyncModifier
  exact step fun _ => either (step fun _ => either (pure _) (step fun _ => pure _)) (pure _)

instance accessorModifier :
    Silent (Grammar.accessorModifier : TracedParse (Option MethodKind)) := by
  simp only [Script.accessorModifier_eq]
  refine step fun token => ?_
  cases Script.accessorKind? token with
  | none => exact pure none
  | some kind => exact step fun _ => either (pure _) (step fun _ => pure _)

instance modifiers : Silent (Grammar.modifiers : TracedParse Modifiers) := by
  unfold Grammar.modifiers
  refine step fun isAsync => step fun isGenerator => either ?_ ?_
  · exact step fun _ => pure _
  · exact step fun _ => pure _

instance nextIsArrow : Silent (Grammar.nextIsArrow : TracedParse Bool) := by
  unfold Grammar.nextIsArrow
  exact step fun _ => either (step fun _ => pure _) (pure _)

instance nextIsTemplate : Silent (Grammar.nextIsTemplate : TracedParse Bool) := by
  unfold Grammar.nextIsTemplate
  refine step fun token => ?_
  cases token <;> exact pure _

instance checkDelete (operator : UnaryOperator) (argument : Expression) (start : Position) :
    Silent (Grammar.checkDelete operator argument start : TracedParse Unit) := by
  unfold Grammar.checkDelete
  refine step fun context => either ?_ (pure _)
  cases argument with
  | identifier _ _ => exact fail _ _
  | _ => exact pure _

instance letBeginsDeclaration : Silent (Grammar.letBeginsDeclaration : TracedParse Bool) := by
  unfold Grammar.letBeginsDeclaration
  exact step fun _ => pure _

instance asyncBeginsFunction : Silent (Grammar.asyncBeginsFunction : TracedParse Bool) := by
  unfold Grammar.asyncBeginsFunction
  exact step fun _ => pure _

instance nextIsInOrOf : Silent (Grammar.nextIsInOrOf : TracedParse Bool) := by
  unfold Grammar.nextIsInOrOf
  exact step fun _ => either (pure _) (nextIsName _)

instance forDeclarationKind :
    Silent (Grammar.forDeclarationKind : TracedParse (Option VariableKind)) := by
  unfold Grammar.forDeclarationKind
  refine step fun token => ?_
  split
  · exact pure _
  · exact pure _
  · exact step fun _ => pure _
  · exact pure _

instance jumpLabel : Silent g.jumpLabel := by
  unfold Grammar.jumpLabel
  refine step fun newline => @ite _ _ _ _ _ _ (step fun isName => @ite _ _ _ _ _ ?_ _)
  exact step fun (label, span) => inferInstance

end Silent

/-! ## Accounts of what rules return -/

/-- Whether the expression is only a part of one: `super`, or a private name. -/
def Expression.isFragment : Expression → Bool
  | .super _ | .privateName _ => true
  | _ => false

/-- Types of nodes. A whole value is no part of another one that has no account by itself. -/
class IsNode (α : Type) where
  node : α → Node
  whole : α → Prop := fun _ => True

/-- What rules return has an account. -/
class Accounted (α : Type) where
  account : α → Account
  whole : α → Prop := fun _ => True

export Accounted (account whole)

instance : IsNode Statement := { node := .statement }
instance : IsNode Declarator := { node := .declarator }
instance : IsNode ForTarget := { node := .forTarget }
instance : IsNode ForInit := { node := .forInit }
instance : IsNode CatchClause := { node := .catchClause }
instance : IsNode SwitchCase := { node := .switchCase }
instance : IsNode Expression := { node := .expression, whole := (·.isFragment = false) }
instance : IsNode ObjectProperty := { node := .objectProperty }
instance : IsNode PropertyKey := { node := .propertyKey }
instance : IsNode Pattern := { node := .pattern }
instance : IsNode PatternProperty := { node := .patternProperty }
instance : IsNode ArrowBody := { node := .arrowBody }
instance : IsNode Function := { node := .function }
instance : IsNode Class := { node := .class_ }
instance : IsNode ClassBody := { node := .classBody }
instance : IsNode ClassElement := { node := .classElement }
instance : IsNode Program := { node := .program }

instance [IsNode α] : Accounted α where
  account a := (IsNode.node a).account
  whole := IsNode.whole

instance [Accounted α] : Accounted (List α) := { account := fun l => (l.map account).sum }
instance [Accounted α] : Accounted (Option α) :=
  { account := fun o => (o.toList.map account).sum }

/-- A key, and whether it is computed. -/
instance : Accounted (PropertyKey × Bool) := { account := fun key => account key.1 }

/-- A class with its name. -/
instance : Accounted (Option String × Class) := { account := fun c => account c.2 }

attribute [simp] account IsNode.node

theorem account_node [IsNode α] (a : α) :
    account a = (IsNode.node a).opening + ((IsNode.node a).children.map Node.account).sum +
      (IsNode.node a).closing :=
  Node.account_eq _

/-- The account of a list that has been read so far, last item first. -/
def reversed [Accounted α] (l : List α) : Account := account l.reverse

@[simp] theorem reversed_nil [Accounted α] : reversed ([] : List α) = 0 := rfl

@[simp] theorem reversed_cons [Accounted α] (a : α) (l : List α) :
    reversed (a :: l) = reversed l + account a := by
  simp [reversed]

/-- The holes of a list have no account. -/
theorem account_holes [Accounted α] (l : List (Option α)) :
    account l = account (l.filterMap id) := by
  induction l with
  | nil => rfl
  | cons o l ih =>
    cases o with
    | none => simpa using ih
    | some a => simpa using congrArg (account a + ·) ih

/-- What has been read when a round of a loop ends. -/
@[simp] def Round.either {γ : Type} (again : α → γ) (stop : β → γ) : Round α β → γ
  | .again a => again a
  | .stop b => stop b

/-! ## Rules that tell the account of what they return -/

/-- In the state `s`, behind a part with the account `m`, the rule adds what is missing of the
account of its result. -/
def TellsAt (s : ParserState (Unit × List Event)) (m : Account) (p : TracedParse α)
    (total : α → Account) (P : α → Prop) : Prop :=
  ∀ a s', p s = .ok a s' → ∃ k, s'.told = s.told + k ∧ total a = m + k ∧ P a

/-- The same from every state. -/
def TellsFrom (m : Account) (p : TracedParse α) (total : α → Account) (P : α → Prop) : Prop :=
  ∀ s, TellsAt s m p total P

/-- The rule tells the account of its result, which is whole. -/
class Tells [Accounted α] (p : TracedParse α) : Prop where
  tells : TellsFrom 0 p account whole

section

variable {m : Account} {total : α → Account} {P : α → Prop}

theorem TellsAt.seq {s : ParserState (Unit × List Event)} {p : TracedParse β}
    {q : β → TracedParse α} {inner : β → Account} {Q : β → Prop} (hp : TellsAt s m p inner Q)
    (hq : ∀ b, Q b → TellsFrom (inner b) (q b) total P) : TellsAt s m (p >>= q) total P := by
  intro a s' h
  obtain ⟨b, between, hfirst, hsecond⟩ := Parse.bind_eq_ok h
  obtain ⟨k, hk, hinner, hQ⟩ := hp b between hfirst
  obtain ⟨k', hk', htotal, hP⟩ := hq b hQ between a s' hsecond
  exact ⟨k + k', by rw [hk', hk, add_assoc], by rw [htotal, hinner, add_assoc], hP⟩

end

namespace TellsFrom

variable {m : Account} {total : α → Account} {P : α → Prop}

theorem done {a : α} (htotal : total a = m) (hP : P a) : TellsFrom m (pure a) total P := by
  intro s b s' h
  cases h
  exact ⟨0, (add_zero _).symm, by rw [htotal, add_zero], hP⟩

/-- A node is made of children that have been told. -/
theorem made [IsNode α] {a : α}
    (htotal : (IsNode.node a).opening + ((IsNode.node a).children.map Node.account).sum +
      (IsNode.node a).closing = m) (ha : whole a) : TellsFrom m (pure a) account whole :=
  done ((account_node a).trans htotal) ha

theorem raise (failure : Failure) : TellsFrom m (throw failure) total P := by
  intro s b s' h
  cases h

theorem raiseThen (failure : Failure) {q : β → TracedParse α} :
    TellsFrom m (throw failure >>= q) total P := by
  intro s b s' h
  cases h

/-- A part that is told, and then the rest. -/
theorem seq {p : TracedParse β} {q : β → TracedParse α} {inner : β → Account} {Q : β → Prop}
    (hp : TellsFrom m p inner Q) (hq : ∀ b, Q b → TellsFrom (inner b) (q b) total P) :
    TellsFrom m (p >>= q) total P :=
  fun s => (hp s).seq hq

/-- A rule of its own, behind another part. -/
theorem behind [Accounted α] {p : TracedParse α} [hp : Tells p] :
    TellsFrom m p (fun a => m + account a) whole := by
  intro s a s' h
  obtain ⟨k, hk, haccount, hwhole⟩ := hp.tells s a s' h
  exact ⟨k, hk, by simp only [haccount, zero_add], hwhole⟩

theorem step [Accounted β] {p : TracedParse β} {q : β → TracedParse α} [Tells p]
    (hq : ∀ b, whole b → TellsFrom (m + account b) (q b) total P) :
    TellsFrom m (p >>= q) total P :=
  seq behind hq

theorem quiet {p : TracedParse β} {q : β → TracedParse α} [hp : Silent p]
    (hq : ∀ b, TellsFrom m (q b) total P) : TellsFrom m (p >>= q) total P := by
  intro s a s' h
  obtain ⟨b, between, hfirst, hsecond⟩ := Parse.bind_eq_ok h
  obtain ⟨k, hk, htotal, hP⟩ := hq b between a s' hsecond
  refine ⟨k, ?_, htotal, hP⟩
  rw [hk, ParserState.told, ParserState.told, hp.silent hfirst]

/-- A span begins where it is meant to. -/
theorem spanned {start : Position} {q : Span → TracedParse α}
    (hq : ∀ stop, TellsFrom m (q ⟨start, stop⟩) total P) :
    TellsFrom m (Parse.spanFrom start >>= q) total P := by
  unfold Parse.spanFrom
  rw [bind_assoc]
  exact quiet hq

/-- A check with its result, and then the rest. -/
theorem ensure {check : Except Diagnostic β} {q : β → TracedParse α}
    (hq : ∀ b, check = .ok b → TellsFrom m (q b) total P) :
    TellsFrom m (Parse.ensure check >>= q) total P := by
  cases check with
  | ok b => exact hq b rfl
  | error d => exact fun s a s' h => by cases h

theorem unexpected : TellsFrom m Parse.unexpected total P := quiet fun _ => raise _

theorem ite {c : Prop} [Decidable c] {p q : TracedParse α} (hp : c → TellsFrom m p total P)
    (hq : ¬c → TellsFrom m q total P) : TellsFrom m (if c then p else q) total P := by
  by_cases h : c
  · rw [if_pos h]
    exact hp h
  · rw [if_neg h]
    exact hq h

/-- Where one of two rules is chosen for a part, the rest is the same behind both. -/
theorem choice [Accounted β] {c : Prop} [Decidable c] {p p' : TracedParse β}
    {q : β → TracedParse α} [Tells p] [Tells p']
    (hq : ∀ b, whole b → TellsFrom (m + account b) (q b) total P) :
    TellsFrom m (if c then p >>= q else p' >>= q) total P :=
  ite (fun _ => step hq) fun _ => step hq

/-- A silent rule in front of the rest, where a condition asks for it. -/
theorem guarded {c : Prop} [Decidable c] {p : TracedParse Unit} {q : Unit → TracedParse α}
    [Silent p] (hq : ∀ u, TellsFrom m (q u) total P) :
    TellsFrom m (if c then p >>= q else q ()) total P :=
  ite (fun _ => quiet hq) fun _ => hq ()

/-- A silent rule in front of the rest, unless a condition holds. -/
theorem required {c : Prop} [Decidable c] {p : TracedParse Unit} {q : Unit → TracedParse α}
    [Silent p] (hq : ∀ u, TellsFrom m (q u) total P) :
    TellsFrom m (if c then q () else p >>= q) total P :=
  ite (fun _ => hq ()) fun _ => quiet hq

theorem quietChoice {c : Prop} [Decidable c] {p p' : TracedParse β} {q : β → TracedParse α}
    [Silent p] [Silent p'] (hq : ∀ b, TellsFrom m (q b) total P) :
    TellsFrom m (if c then p >>= q else p' >>= q) total P :=
  ite (fun _ => quiet hq) fun _ => quiet hq

/-- Rounds, if what has been read so far stays told. -/
theorem rounds {round : β → TracedParse (Round β α)} {read : β → Account} {Q : β → Prop}
    (hround : ∀ b, Q b →
      TellsFrom (read b) (round b) (Round.either read total) (Round.either Q P))
    (bound : Nat) {b : β} (hb : Q b) :
    TellsFrom (read b) (repeatRounds round bound b) total P := by
  induction bound generalizing b with
  | zero => exact raise _
  | succ bound ih =>
    refine seq (hround b hb) ?_
    rintro (b' | a) h
    · exact ih h
    · exact done rfl h

/-- A loop, if what has been read so far stays told. -/
theorem loop (g : Grammar (Unit × List Event)) {round : β → TracedParse (Round β α)}
    (read : β → Account) (Q : β → Prop)
    (hround : ∀ b, Q b →
      TellsFrom (read b) (round b) (Round.either read total) (Round.either Q P))
    {b : β} (hb : Q b) (hm : read b = m) : TellsFrom m (g.loop round b) total P :=
  hm ▸ rounds hround g.bound hb

/-- A loop that returns what it has read. -/
theorem gather (g : Grammar (Unit × List Event)) {round : β → TracedParse (Round β β)}
    (read : β → Account) (Q : β → Prop)
    (hround : ∀ b, Q b → TellsFrom (read b) (round b) (Round.either read read) (Round.either Q Q))
    {b : β} (hb : Q b) (hm : read b = m) : TellsFrom m (g.loop round b) read Q :=
  loop g read Q hround hb hm

/-- A loop that makes something else of what it has read. -/
theorem collect (g : Grammar (Unit × List Event)) {round : β → TracedParse (Round β α)}
    (read : β → Account) (total : α → Account)
    (hround : ∀ b, TellsFrom (read b) (round b) (Round.either read total) (fun _ => True))
    {b : β} (hm : read b = m) : TellsFrom m (g.loop round b) total (fun _ => True) := by
  refine loop g read (fun _ => True) (fun b _ => ?_) trivial hm
  intro s r s' h
  obtain ⟨k, hk, htotal, -⟩ := hround b s r s' h
  exact ⟨k, hk, htotal, by cases r <;> trivial⟩

/-- The last part of a round: an item, and behind it a comma or the end of the list. -/
theorem separated [Accounted β] {item : TracedParse β} {comma : TracedParse Bool}
    {close : TracedParse Unit} [Tells item] [Silent comma] [Silent close] {again stop : β → α}
    (hagain : ∀ b, total (again b) = m + account b)
    (hstop : ∀ b, total (stop b) = m + account b) :
    TellsFrom m (do
      let b ← item
      if ← comma then
        return again b
      close
      return stop b) total (fun _ => True) := by
  refine step fun b _ => quiet fun c => .ite (fun _ => ?_) fun _ => quiet fun _ => ?_
  · exact done (hagain b) trivial
  · exact done (hstop b) trivial

/-- A call that is recorded. -/
theorem hook (event : Event) (action : Hook Unit α) :
    TellsFrom m (Parse.hook (Hooks.tracing event action)) (fun _ => m + event.tally)
      (fun _ => True) := by
  intro s a s' h
  unfold Parse.hook Hooks.tracing at h
  cases haction : action s.hooks.1 with
  | ok b inner =>
    rw [haction] at h
    cases h
    exact ⟨event.tally, by simp [ParserState.told], rfl, trivial⟩
  | error d inner =>
    rw [haction] at h
    cases h

/-- A call that cannot fail, and is recorded. -/
theorem update (event : Event) {f : Unit × List Event → α × (Unit × List Event)}
    (hf : ∀ s, (f s).2.2 = s.2 ++ [event]) :
    TellsFrom m (Parse.update f) (fun _ => m + event.tally) (fun _ => True) := by
  intro s a s' h
  cases h
  exact ⟨event.tally, by simp [ParserState.told, hf], rfl, trivial⟩

/-- A step behind a rule that returns. -/
theorem closing {p : TracedParse α} {close : TracedParse Unit} {Q : Unit → Prop}
    {total' : α → Account} (h : TellsFrom m p total P)
    (hclose : ∀ a, TellsFrom (total a) close (fun _ => total' a) Q) :
    TellsFrom m (Parse.closing close p) total' P := by
  have hseq : TellsFrom m (p >>= fun a => close >>= fun _ => pure a) total' P :=
    seq h fun a ha => seq (hclose a) fun _ _ => done rfl ha
  intro s a s' hs
  obtain ⟨between, hp, hbehind⟩ := Parse.closing_eq_ok hs
  refine hseq s a s' ?_
  rw [Parse.bind_of_ok hp, Parse.bind_of_ok hbehind]
  rfl

/-- The way out of a region is not told. -/
theorem leaving {leave : Context → Option Context} {p : TracedParse α}
    (h : TellsFrom m p total P) : TellsFrom m (Parse.closing (Parse.leaving leave) p) total P := by
  refine h.closing (Q := fun _ => True) fun a s u s' hs => ?_
  obtain ⟨context, -, rfl⟩ := Parse.leaving_eq_ok hs
  exact ⟨0, by simp [ParserState.told], by simp, trivial⟩

theorem within {enter : Context → Context} {leave : Context → Context → Option Context}
    {p : TracedParse α} (h : TellsFrom m p total P) :
    TellsFrom m (Parse.within enter leave p) total P :=
  quiet fun _ => quiet fun _ => leaving h

end TellsFrom

/-! ## Tokens that have been looked at -/

section

variable {σ : Type} {s : ParserState σ} {next : Lookahead}

/-- The token that has been looked at stays in the lexer. -/
theorem Parse.lookahead_of_peek {s' : ParserState σ} {token : Token}
    (h : Parse.peek s = .ok token s') :
    ∃ next, s'.lexer.lookahead = some next ∧ next.token = token := by
  unfold Parse.peek Parse.lexing Lexing.peek Lexing.lookahead at h
  simp only [Bind.bind, EStateM.bind] at h
  cases htake : Lexing.takeLookahead s.lexer with
  | ok next lexer =>
    rw [htake] at h
    cases h
    exact ⟨next, rfl, rfl⟩
  | error e lexer =>
    rw [htake] at h
    cases h

theorem Parse.nextIs_of_lookahead (h : s.lexer.lookahead = some next) (symbol : Punctuator)
    (q : Bool → Parse σ α) :
    (Parse.nextIs symbol >>= q) s = q (next.token == .punctuator symbol) s := by
  unfold Parse.nextIs
  simp only [Bind.bind, EStateM.bind, Parse.peek_of_lookahead h]
  rfl

theorem Parse.accept_of_lookahead (h : s.lexer.lookahead = some next) (symbol : Punctuator)
    (q : Bool → Parse σ α) :
    (Parse.accept symbol >>= q) s =
      if next.token == .punctuator symbol then (Parse.skip >>= fun _ => q true) s
      else q false s := by
  unfold Parse.accept
  rw [bind_assoc, Parse.nextIs_of_lookahead h]
  split
  · simp only [bind_assoc, pure_bind]
  · rfl

end

section

variable {s : ParserState (Unit × List Event)} {next : Lookahead} {m : Account}
  {p q : TracedParse α} {total : α → Account} {P : α → Prop} {symbol : Punctuator}

theorem TellsAt.nextIsIf (h : s.lexer.lookahead = some next)
    (hp : next.token = .punctuator symbol → TellsAt s m p total P)
    (hq : next.token ≠ .punctuator symbol → TellsAt s m q total P) :
    TellsAt s m (Parse.nextIs symbol >>= fun c => if c then p else q) total P := by
  unfold TellsAt
  rw [Parse.nextIs_of_lookahead h]
  by_cases htoken : next.token = .punctuator symbol
  · rw [if_pos (beq_iff_eq.mpr htoken)]
    exact hp htoken
  · rw [if_neg (by simpa using htoken)]
    exact hq htoken

theorem TellsAt.acceptIf (h : s.lexer.lookahead = some next)
    (hp : next.token = .punctuator symbol → TellsAt s m (Parse.skip >>= fun _ => p) total P)
    (hq : next.token ≠ .punctuator symbol → TellsAt s m q total P) :
    TellsAt s m (Parse.accept symbol >>= fun c => if c then p else q) total P := by
  unfold TellsAt
  rw [Parse.accept_of_lookahead h]
  by_cases htoken : next.token = .punctuator symbol
  · rw [if_pos (beq_iff_eq.mpr htoken)]
    exact hp htoken
  · rw [if_neg (by simpa using htoken)]
    exact hq htoken

end

/-- The hooks of the grammar record their calls and accept everything, and the rules that recur
tell the account of what they return. -/
class Telling (g : Grammar (Unit × List Event)) : Prop where
  hooks : g.hooks = Hooks.permissive.traced
  statement : Tells g.statement
  assignment : Tells g.assignment
  binary : ∀ least, Tells (g.binary least)
  unary : Tells g.unary
  leftHandSide : Tells g.leftHandSide
  newExpression : Tells g.newExpression
  bindingTarget : Tells g.bindingTarget

namespace Tells

open Parse TellsFrom

attribute [instance] Telling.statement Telling.assignment Telling.binary Telling.unary
  Telling.leftHandSide Telling.newExpression Telling.bindingTarget

variable {g : Grammar (Unit × List Event)}

section

variable [Accounted α]

instance throw (failure : Failure) : Tells (MonadExcept.throw failure : TracedParse α) where
  tells := raise failure

instance unexpectedAt (position : Position) :
    Tells (Parse.unexpectedAt position : TracedParse α) := throw _

instance silentBind {p : TracedParse β} {q : β → TracedParse α} [Silent p]
    [hq : ∀ b, Tells (q b)] : Tells (p >>= q) where
  tells := quiet fun b => (hq b).tells

instance unexpected : Tells (Parse.unexpected : TracedParse α) :=
  silentBind

instance ite (c : Prop) [Decidable c] {p q : TracedParse α} [hp : Tells p] [hq : Tells q] :
    Tells (if c then p else q) where
  tells := .ite (fun _ => hp.tells) (fun _ => hq.tells)

instance absent : Tells (pure (none : Option α)) where
  tells := done rfl trivial

instance present {p : TracedParse α} [hp : Tells p] : Tells (Option.some <$> p) := by
  rw [map_eq_pure_bind]
  exact ⟨step fun a _ => done (by simp [account]) trivial⟩

instance within {enter : Context → Context} {leave : Context → Context → Option Context}
    {p : TracedParse α} [hp : Tells p] : Tells (Parse.within enter leave p) where
  tells := hp.tells.within

instance allowingIn {p : TracedParse α} [Tells p] : Tells (Parse.allowingIn p) := within

instance withoutIn {p : TracedParse α} [Tells p] : Tells (Parse.withoutIn p) := within

end

end Tells

end EcmaScript
