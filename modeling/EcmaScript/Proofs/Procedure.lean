import EcmaScript.Grammar
import EcmaScript.Proofs.Progress.Scan

/-!
Procedures: what a grammar rule does, step by step.

A grammar rule is a function on parser states, so a run of it shows only its outcome. A procedure is
the same rule as data: lexer steps, questions to the hooks, excursions into an inner context, and
failures. Observing a procedure gives the outcome of the rule together with the events of the run
in their order, failures included. Which hooks are asked is a parameter of the observation: one
procedure describes the rule for all hooks.

`EcmaScript.Proofs.Script` shows that every rule of the grammar is described by a procedure.
-/

namespace EcmaScript

inductive LexStep : Type → Type where
  | peek : LexStep Token
  | next : LexStep Token
  | peekSecond : LexStep (Token × Bool)
  | peekStart : LexStep Position
  | newlineBefore : LexStep Bool
  | lastEnd : LexStep Position
  | rescanRegExp : LexStep Token
  | readTemplateContinuation : LexStep Token
  /-- Consumes a slash as the regular expression that it begins. -/
  | regExp : LexStep Token
  /-- Consumes a closing brace with the text of the template behind it. -/
  | templateContinuation : LexStep Token

def LexStep.run : {α : Type} → LexStep α → Lexing α
  | _, .peek => Lexing.peek
  | _, .next => Lexing.next
  | _, .peekSecond => Lexing.peekSecond
  | _, .peekStart => Lexing.peekStart
  | _, .newlineBefore => Lexing.newlineBefore
  | _, .lastEnd => Lexing.lastEnd
  | _, .rescanRegExp => Lexing.rescanRegExp
  | _, .readTemplateContinuation => Lexing.readTemplateContinuation
  | _, .regExp => do
    let _ ← Lexing.next
    Lexing.rescanRegExp
  | _, .templateContinuation => do
    let _ ← Lexing.next
    Lexing.readTemplateContinuation

/-- The places of a source that have a context of their own. -/
inductive Region where
  | loopBody
  | switchBody
  | function (isAsync isGenerator isMethod : Bool)
  | arrow (isAsync : Bool)
  | fieldInitializer
  | staticBlock
  | classCode
  /-- Inside brackets, where `in` is an operator. -/
  | brackets
  /-- The head of a loop, where `in` is not an operator. -/
  | loopHead

namespace Region

def enter : Region → Context → Context
  | .loopBody, context => { context with loopDepth := context.loopDepth + 1 }
  | .switchBody, context => { context with switchDepth := context.switchDepth + 1 }
  | .function isAsync isGenerator isMethod, context =>
    Grammar.enterFunction isAsync isGenerator isMethod context
  | .arrow isAsync, context => Grammar.enterArrow isAsync context
  | .fieldInitializer, context =>
    { context with inMethod := true, inAsync := false, inGenerator := false }
  | .staticBlock, context => Grammar.enterStaticBlock context
  | .classCode, context => { context with strict := true }
  | .brackets, context => { context with inForInit := false }
  | .loopHead, context => { context with inForInit := true }

/-- The context behind the region, from the one in front of it and the one at its end. There is
none where a counter would have to be taken below zero. -/
def leave : Region → Context → Context → Option Context
  | .loopBody, _, now => Grammar.leaveLoop now
  | .switchBody, _, now => Grammar.leaveSwitch now
  | .function _ _ _, before, now => Grammar.leaveFunction before now
  | .arrow _, before, now => Grammar.leaveArrow before now
  | .fieldInitializer, before, now => some { now with
      inMethod := before.inMethod
      inAsync := before.inAsync
      inGenerator := before.inGenerator }
  | .staticBlock, before, now => Grammar.leaveStaticBlock before now
  | .classCode, before, now => some { now with strict := before.strict }
  | .brackets, before, now => some { now with inForInit := before.inForInit }
  | .loopHead, before, now => some { now with inForInit := before.inForInit }

end Region

/-- A grammar rule as data. -/
inductive Procedure : Type → Type 1 where
  | pure {α : Type} (a : α) : Procedure α
  | bind {α β : Type} (first : Procedure β) (next : β → Procedure α) : Procedure α
  /-- An error of the grammar. -/
  | raise {α : Type} (d : Diagnostic) : Procedure α
  /-- A loop or a recursion has no steps left. -/
  | exhaust {α : Type} : Procedure α
  | lex {α : Type} (step : LexStep α) : Procedure α
  /-- Asks for the context. -/
  | context : Procedure Context
  /-- Makes the code strict from here on. -/
  | beStrict : Procedure Unit
  /-- Runs the body in the context of a region, which is left unless the run is broken off. -/
  | within {α : Type} (region : Region) (body : Procedure α) : Procedure α
  /-- Runs the body in the context of an arrow function; the body begins when its first token,
  a brace or not, has been scanned, and only then is the context left as that of a region. -/
  | arrow {α : Type} (isAsync : Bool) (body : Bool → Procedure α) : Procedure α
  /-- Reports a class element with a private name; it is an error if the hooks decline it. -/
  | declareMember (name : PrivateName) (kind : MemberKind) (start : Position) : Procedure Unit
  /-- Reports a use of a private name; it is an error if the hooks decline it. -/
  | referenceName (name : PrivateName) : Procedure Unit
  | afterUnary (e : Expression) : Procedure Unit
  | afterAtom (atom : Expression) (next : Token) : Procedure Unit
  /-- Runs the body between `enterClass` and `exitClass`. -/
  | inClass {α : Type} (body : Procedure α) : Procedure α
  /-- Runs the body between `enterMethod` and `exitMethod`. -/
  | inMethod {α : Type} (key : PropertyKey) (body : Procedure α) : Procedure α

/-- What can be seen of a run: calls of hooks, contexts that are left, failures. -/
inductive Event where
  | enterClass
  | exitClass
  | enterMethod (key : PropertyKey) (answer : Bool)
  | exitMethod (given : Bool)
  | declareMember (name : PrivateName) (kind : MemberKind) (start : Position)
  | referenceName (name : PrivateName)
  | afterUnary (e : Expression)
  | afterAtom (atom : Expression) (next : Token)
  /-- The lexer, the grammar or a hook fails, or the run is broken off. -/
  | raised (failure : Failure)
  /-- A region is to be left, at whose end the context is `now`. -/
  | left (region : Region) (now : Context)
  /-- The first token in the body of an arrow function cannot be scanned; the context in front of
  the arrow function, which is not put back, is `before`. -/
  | stranded (before : Context)

/-- The outcome of a run and its events. -/
abbrev Observed (σ α : Type) := EStateM.Result Failure (ParserState σ) α × List Event

/-- What a step returns, without the state that it ends in. -/
@[simp]
def outcomeOf {S α : Type} : EStateM.Result Failure S α → Except Failure α
  | .ok a _ => .ok a
  | .error e _ => .error e

/-- The outcome is a value or an error of the source: the run has not been broken off. -/
def Completed {α : Type} (outcome : Except Failure α) : Prop :=
  ∀ e, outcome = .error e → ∃ d, e = .error d

theorem Completed.ok {α : Type} (a : α) : Completed (.ok a) := nofun

theorem Completed.error {α : Type} (d : Diagnostic) :
    Completed (.error (.error d) : Except Failure α) := by
  rintro _ ⟨⟩
  exact ⟨d, rfl⟩

theorem not_completed_overrun {α : Type} : ¬Completed (.error .overrun : Except Failure α) := by
  intro h
  obtain ⟨d, hd⟩ := h _ rfl
  cases hd

theorem not_completed_exhausted {α : Type} :
    ¬Completed (.error .exhausted : Except Failure α) := by
  intro h
  obtain ⟨d, hd⟩ := h _ rfl
  cases hd

instance {α : Type} : DecidablePred (Completed (α := α))
  | .ok a => isTrue (.ok a)
  | .error (.error d) => isTrue (.error d)
  | .error .overrun => isFalse not_completed_overrun
  | .error .exhausted => isFalse not_completed_exhausted

namespace Observed

variable {σ α β : Type}

/-- What a run returns. -/
def outcome (o : Observed σ α) : Except Failure α := outcomeOf o.1

/-- A step that shows nothing but its failure. -/
def ofResult : EStateM.Result Failure (ParserState σ) α → Observed σ α
  | .ok a s => (.ok a s, [])
  | .error e s => (.error e s, [.raised e])

/-- The run with an event in front. -/
def behind (event : Event) (o : Observed σ α) : Observed σ α := (o.1, event :: o.2)

/-- The run and, if it succeeds, the next one. -/
def andThen (o : Observed σ β) (next : β → ParserState σ → Observed σ α) : Observed σ α :=
  match o with
  | (.ok b s, events) => ((next b s).1, events ++ (next b s).2)
  | (.error e s, events) => (.error e s, events)

/-- The run and then, unless it is broken off, the step `close`, seen as an event in the state in
front of it; the first error of the source counts. -/
def closedBy (close : Parse σ Unit) (event : ParserState σ → Event) :
    Observed σ α → Observed σ α
  | (.ok a s, events) =>
    match close s with
    | .ok _ s' => (.ok a s', events ++ [event s])
    | .error e s' => (.error e s', events ++ [event s, .raised e])
  | (.error (.error d) s, events) =>
    match close s with
    | .ok _ s' => (.error (.error d) s', events ++ [event s])
    | .error (.error late) s' =>
      (.error (.error d) s', events ++ [event s, .raised (.error late)])
    | .error e s' => (.error e s', events ++ [event s, .raised e])
  | (.error e s, events) => (.error e s, events)

/-- The run and then, unless it is broken off, the way out of the region. -/
def leaving (region : Region) (before : Context) (o : Observed σ α) : Observed σ α :=
  o.closedBy (Parse.leaving (region.leave before)) (.left region ·.context)

end Observed

namespace Procedure

variable {σ : Type}

def askName (question : Hook σ Bool) (name : PrivateName) : Parse σ Unit := do
  unless ← Parse.hook question do
    Parse.unexpectedAt name.span.start

/-- Runs a procedure with the given hooks and says what can be seen of it. -/
def observe (hooks : Hooks σ) (options : Options) :
    {α : Type} → Procedure α → ParserState σ → Observed σ α
  | _, .pure a, s => (.ok a s, [])
  | _, .bind first next, s =>
    (first.observe hooks options s).andThen fun b => (next b).observe hooks options
  | _, .raise d, s => (.error (.error d) s, [.raised (.error d)])
  | _, .exhaust, s => (.error .exhausted s, [.raised .exhausted])
  | _, .lex step, s => .ofResult (Parse.lexing step.run s)
  | _, .context, s => (.ok s.context s, [])
  | _, .beStrict, s => (.ok () { s with context := { s.context with strict := true } }, [])
  | _, .within region body, s =>
    (body.observe hooks options { s with context := region.enter s.context }).leaving
      region s.context
  | _, .arrow isAsync body, s =>
    match Parse.nextIs .lBrace { s with context := Grammar.enterArrow isAsync s.context } with
    | .ok isBlock inside =>
      ((body isBlock).observe hooks options inside).leaving (.arrow isAsync) s.context
    | .error e inside => (.error e inside, [.stranded s.context, .raised e])
  | _, .declareMember name kind start, s =>
    (Observed.ofResult (askName (hooks.declareMember name kind start options) name s)).behind
      (.declareMember name kind start)
  | _, .referenceName name, s =>
    (Observed.ofResult (askName (hooks.referenceName name options) name s)).behind
      (.referenceName name)
  | _, .afterUnary e, s =>
    (Observed.ofResult (Parse.hook (hooks.afterUnary e) s)).behind (.afterUnary e)
  | _, .afterAtom atom next, s =>
    (Observed.ofResult (Parse.hook (hooks.afterAtom atom next) s)).behind (.afterAtom atom next)
  | _, .inClass body, s =>
    ((body.observe hooks options { s with hooks := hooks.enterClass s.hooks }).closedBy
      (Parse.hook hooks.exitClass) fun _ => .exitClass).behind .enterClass
  | _, .inMethod key body, s =>
    let (saved, inside) := hooks.enterMethod key s.hooks
    ((body.observe hooks options { s with hooks := inside }).closedBy
      (Parse.update fun s => ((), hooks.exitMethod saved s)) fun _ => .exitMethod saved).behind
      (.enterMethod key saved)

end Procedure

/-- A rule and a step behind it end as a run of the rule does, with that step behind it. -/
theorem Parse.closing_eq {σ α : Type} (close : Parse σ Unit) (event : ParserState σ → Event)
    {rule : Parse σ α} {o : Observed σ α} {s : ParserState σ} (h : rule s = o.1) :
    Parse.closing close rule s = (o.closedBy close event).1 := by
  obtain ⟨result, events⟩ := o
  replace h : rule s = result := h
  rw [Parse.closing, h]
  rcases result with ⟨a, t⟩ | ⟨d | _ | _, t⟩
  · dsimp only [Observed.closedBy]
    cases close t <;> rfl
  · dsimp only [Observed.closedBy]
    rcases close t with ⟨_, _⟩ | ⟨_ | _ | _, _⟩ <;> rfl
  · rfl
  · rfl

/-- The failure that counts behind the error `d`: another error of the source does not. -/
def Failure.behind (d : Diagnostic) : Failure → Failure
  | .error _ => .error d
  | .overrun => .overrun
  | .exhausted => .exhausted

/-- A rule with a step behind it, which is taken behind a result and behind an error of the
source. -/
theorem Ends.closing {σ α : Type} {E : Failure → ParserState σ → Prop} {p : Parse σ α}
    {close : Parse σ Unit} {s : ParserState σ} {Q R : α → ParserState σ → Prop} (h : Ends E p s Q)
    (hok : ∀ a s', Q a s' → Ends E close s' fun _ s'' => R a s'')
    (herror : ∀ d s', E (.error d) s' →
      Ends (fun e s'' => E (e.behind d) s'') close s' fun _ s'' => E (.error d) s'') :
    Ends E (Parse.closing close p) s R := by
  unfold Ends Parse.closing
  cases hp : p s with
  | ok a s' =>
    have hclose := hok a s' (h.of_ok hp)
    unfold Ends at hclose
    dsimp only
    cases hend : close s' <;> rwa [hend] at hclose
  | error e s' =>
    have hfailed := h.of_error hp
    cases e with
    | error d =>
      have hclose := herror d s' hfailed
      unfold Ends at hclose
      dsimp only
      rcases hend : close s' with ⟨_, _⟩ | ⟨_ | _ | _, _⟩ <;> rwa [hend] at hclose
    | overrun => exact hfailed
    | exhausted => exact hfailed

/-- A rule in a context of its own. -/
theorem Ends.within {σ α : Type} {E : Failure → ParserState σ → Prop} {p : Parse σ α}
    {enter : Context → Context} {leave : Context → Context → Option Context} {s : ParserState σ}
    {Q R : α → ParserState σ → Prop} (h : Ends E p { s with context := enter s.context } Q)
    (hok : ∀ a s', Q a s' → Ends E (Parse.leaving (leave s.context)) s' fun _ s'' => R a s'')
    (herror : ∀ d s', E (.error d) s' →
      Ends (fun e s'' => E (e.behind d) s'') (Parse.leaving (leave s.context)) s'
        fun _ s'' => E (.error d) s'') :
    Ends E (Parse.within enter leave p) s R :=
  h.closing hok herror

/-- Looking at the next token is a step of the lexer alone. -/
theorem Parse.nextIs_eq {σ : Type} (symbol : Punctuator) (s : ParserState σ) :
    Parse.nextIs symbol s =
      match Lexing.peek s.lexer with
      | .ok token lexer => .ok (token == .punctuator symbol) { s with lexer }
      | .error e lexer => .error e { s with lexer } := by
  simp only [Parse.nextIs, Parse.peek, Bind.bind, EStateM.bind, Parse.lexing]
  cases Lexing.peek s.lexer <;> rfl

/-! ## The state at the end of a step -/

section

variable {σ α : Type}

/-- The state that a step ends in, also if it fails. -/
def finalState {ε S : Type} : EStateM.Result ε S α → S
  | .ok _ s => s
  | .error _ s => s

@[simp] theorem finalState_hook (action : Hook σ α) (s : ParserState σ) :
    (finalState (Parse.hook action s)).hooks = finalState (action s.hooks) := by
  unfold Parse.hook
  cases action s.hooks <;> rfl

theorem context_hook (action : Hook σ α) (s : ParserState σ) :
    (finalState (Parse.hook action s)).context = s.context := by
  unfold Parse.hook
  cases action s.hooks <;> rfl

@[simp] theorem finalState_askName (question : Hook σ Bool) (name : PrivateName)
    (s : ParserState σ) :
    (finalState (Procedure.askName question name s)).hooks = finalState (question s.hooks) := by
  rw [← finalState_hook]
  simp only [Procedure.askName, Bind.bind, EStateM.bind]
  cases Parse.hook question s with
  | ok accepted s' => cases accepted <;> rfl
  | error e s' => rfl

theorem Parse.lexer_hook (action : Hook σ α) (s : ParserState σ) :
    (finalState (Parse.hook action s)).lexer = s.lexer := by
  unfold Parse.hook
  cases action s.hooks <;> rfl

theorem Procedure.lexer_askName (question : Hook σ Bool) (name : PrivateName) (s : ParserState σ) :
    (finalState (askName question name s)).lexer = s.lexer := by
  rw [← Parse.lexer_hook question s]
  simp only [askName, Bind.bind, EStateM.bind]
  cases Parse.hook question s with
  | ok accepted s' => cases accepted <;> rfl
  | error e s' => rfl

theorem context_askName (question : Hook σ Bool) (name : PrivateName) (s : ParserState σ) :
    (finalState (Procedure.askName question name s)).context = s.context := by
  rw [← context_hook question s]
  simp only [Procedure.askName, Bind.bind, EStateM.bind]
  cases Parse.hook question s with
  | ok accepted s' => cases accepted <;> rfl
  | error e s' => rfl

namespace Observed

@[simp] theorem finalState_ofResult (r : EStateM.Result Failure (ParserState σ) α) :
    finalState (ofResult r).1 = finalState r := by
  cases r <;> rfl

/-- A run that is broken off is not closed, and every other one ends where the closing step does. -/
theorem finalState_closedBy (close : Parse σ Unit) (event : ParserState σ → Event)
    (o : Observed σ α) :
    (o.closedBy close event = o ∧ ¬Completed o.outcome) ∨
      finalState (o.closedBy close event).1 = finalState (close (finalState o.1)) := by
  obtain ⟨result, events⟩ := o
  rcases result with ⟨a, t⟩ | ⟨d | _ | _, t⟩
  · refine .inr ?_
    simp only [closedBy, finalState]
    cases close t <;> rfl
  · refine .inr ?_
    simp only [closedBy, finalState]
    rcases close t with ⟨_, _⟩ | ⟨_ | _ | _, _⟩ <;> rfl
  · exact .inl ⟨rfl, not_completed_overrun⟩
  · exact .inl ⟨rfl, not_completed_exhausted⟩

theorem completed_of_closedBy {close : Parse σ Unit} {event : ParserState σ → Event}
    {o : Observed σ α} (h : Completed (o.closedBy close event).outcome) : Completed o.outcome := by
  obtain ⟨result, events⟩ := o
  rcases result with ⟨a, t⟩ | ⟨d | _ | _, t⟩
  · exact .ok a
  · exact .error d
  · exact h
  · exact h

/-- A run that is closed and not broken off ends where the closing step does. -/
theorem finalState_of_completed {close : Parse σ Unit} {event : ParserState σ → Event}
    {o : Observed σ α} (h : Completed (o.closedBy close event).outcome) :
    finalState (o.closedBy close event).1 = finalState (close (finalState o.1)) :=
  (o.finalState_closedBy close event).resolve_left fun ⟨_, hbroken⟩ =>
    hbroken (completed_of_closedBy h)

/-- A closing step does not make up for a failure. -/
theorem failed_closedBy {close : Parse σ Unit} {event : ParserState σ → Event} {o : Observed σ α}
    (h : ∃ e s, o.1 = .error e s) : ∃ e s, (o.closedBy close event).1 = .error e s := by
  obtain ⟨result, events⟩ := o
  obtain ⟨e, s, rfl⟩ := h
  rcases e with d | _ | _
  · simp only [closedBy]
    rcases close s with ⟨_, _⟩ | ⟨_ | _ | _, _⟩ <;> exact ⟨_, _, rfl⟩
  · exact ⟨_, _, rfl⟩
  · exact ⟨_, _, rfl⟩

/-- What the closing step leaves alone is the same behind it. -/
theorem apply_closedBy {γ : Type} (f : ParserState σ → γ) {close : Parse σ Unit}
    {event : ParserState σ → Event} (hclose : ∀ s, f (finalState (close s)) = f s)
    (o : Observed σ α) : f (finalState (o.closedBy close event).1) = f (finalState o.1) := by
  rcases o.finalState_closedBy close event with ⟨h, -⟩ | h
  · rw [h]
  · rw [h, hclose]

theorem apply_leaving {γ : Type} (f : ParserState σ → γ)
    (hcontext : ∀ s context, f { s with context } = f s) (region : Region) (before : Context)
    (o : Observed σ α) : f (finalState (o.leaving region before).1) = f (finalState o.1) := by
  refine apply_closedBy f (fun s => ?_) o
  unfold Parse.leaving
  cases region.leave before s.context with
  | some context => exact hcontext s context
  | none => rfl

@[simp] theorem hooks_leaving (region : Region) (before : Context) (o : Observed σ α) :
    (finalState (o.leaving region before).1).hooks = (finalState o.1).hooks :=
  apply_leaving ParserState.hooks (fun _ _ => rfl) region before o

theorem lexer_leaving (region : Region) (before : Context) (o : Observed σ α) :
    (finalState (o.leaving region before).1).lexer = (finalState o.1).lexer :=
  apply_leaving ParserState.lexer (fun _ _ => rfl) region before o

end Observed

end

end EcmaScript
