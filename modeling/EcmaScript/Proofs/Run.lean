import EcmaScript.Parser
import EcmaScript.Proofs.Script.Statement

/-!
Runs: a parse together with everything that can be seen of it.

A run has the outcome of the parse and lists the calls of hooks and the failures in their order.
Since one procedure describes the parser for all hooks, runs with different hooks can be compared:
hooks that answer alike give the same outcome. In particular the hooks can be made to record their
calls, and the record holds exactly the calls that the run lists.
-/

namespace EcmaScript

variable {σ τ α : Type}

namespace Parser

/-- The state in which a parse begins to read, behind the reset of the hooks. -/
def begun (parser : Parser σ) : ParserState σ :=
  { parser.state with hooks := parser.hooks.reset parser.state.hooks }

def procedure (parser : Parser σ) : Procedure Program :=
  Grammar.programProcedure parser.options parser.state.lexer.source.length

theorem program_eq (parser : Parser σ) : parser.grammar.program parser.state =
    (parser.procedure.observe parser.hooks parser.options parser.begun).1 :=
  Grammar.program_eq_observe parser.options parser.hooks parser.state.lexer.source.length
    parser.state

/-- The outcome of a parse, and its events behind the reset of the hooks. -/
def run (parser : Parser σ) : Observed σ Program :=
  parser.procedure.observe parser.hooks parser.options parser.begun

/-- A parse returns the outcome of its run. -/
theorem parse_eq_run (parser : Parser σ) : parser.parse =
    match parser.run.1 with
    | .ok program state => (.ok program, { parser with state })
    | .error failure state => (.error failure, { parser with state }) := by
  rw [parse, program_eq]
  rfl

theorem outcome_parse (parser : Parser σ) : parser.parse.1 = parser.run.outcome := by
  rw [parse_eq_run, Observed.outcome]
  cases parser.run.1 <;> rfl

theorem finalState_run (parser : Parser σ) : finalState parser.run.1 = parser.parse.2.state := by
  rw [parse_eq_run]
  cases parser.run.1 <;> rfl

def after (parser : Parser σ) : Nat → Parser σ
  | 0 => parser
  | calls + 1 => (parser.after calls).parse.2

end Parser

namespace Event

def isCall : Event → Bool
  | .raised _ | .left _ _ | .stranded _ => false
  | _ => true

@[simp] theorem isCall_raised (failure : Failure) : (raised failure).isCall = false := rfl

@[simp] theorem isCall_left (region : Region) (now : Context) :
    (left region now).isCall = false := rfl

@[simp] theorem isCall_stranded (before : Context) : (stranded before).isCall = false := rfl

end Event

/-! ## Hooks that answer alike -/

/-- Both runs return the same value or fail alike, in related states. -/
inductive Alike {ε S T : Type} (R : S → T → Prop) :
    EStateM.Result ε S α → EStateM.Result ε T α → Prop where
  | ok (a : α) {s : S} {t : T} (related : R s t) : Alike R (.ok a s) (.ok a t)
  | error (e : ε) {s : S} {t : T} (related : R s t) : Alike R (.error e s) (.error e t)

/-- The states differ only in the state of the hooks, which are related. -/
structure SameBut (R : σ → τ → Prop) (s : ParserState σ) (t : ParserState τ) : Prop where
  lexer : t.lexer = s.lexer
  context : t.context = s.context
  hooks : R s.hooks t.hooks

/-- The hooks answer alike, and their states stay related; the relation may depend on the calls
so far. Answers of `enterMethod` may differ: nobody but `exitMethod` sees them. -/
structure Lockstep (hooks : Hooks σ) (others : Hooks τ) (R : List Event → σ → τ → Prop) :
    Prop where
  enterClass : ∀ {calls s t}, R calls s t →
    R (calls ++ [.enterClass]) (hooks.enterClass s) (others.enterClass t)
  exitClass : ∀ {calls s t}, R calls s t →
    Alike (R (calls ++ [.exitClass])) (hooks.exitClass s) (others.exitClass t)
  declareMember : ∀ {calls s t} name kind start options, R calls s t →
    Alike (R (calls ++ [.declareMember name kind start]))
      (hooks.declareMember name kind start options s)
      (others.declareMember name kind start options t)
  enterMethod : ∀ {calls s t} key, R calls s t →
    R (calls ++ [.enterMethod key (hooks.enterMethod key s).1])
      (hooks.enterMethod key s).2 (others.enterMethod key t).2
  exitMethod : ∀ {calls s t calls' s' t'} key, R calls s t → R calls' s' t' →
    R (calls' ++ [.exitMethod (hooks.enterMethod key s).1])
      (hooks.exitMethod (hooks.enterMethod key s).1 s')
      (others.exitMethod (others.enterMethod key t).1 t')
  referenceName : ∀ {calls s t} name options, R calls s t →
    Alike (R (calls ++ [.referenceName name]))
      (hooks.referenceName name options s) (others.referenceName name options t)
  afterUnary : ∀ {calls s t} e, R calls s t →
    Alike (R (calls ++ [.afterUnary e])) (hooks.afterUnary e s) (others.afterUnary e t)
  afterAtom : ∀ {calls s t} atom next, R calls s t →
    Alike (R (calls ++ [.afterAtom atom next]))
      (hooks.afterAtom atom next s) (others.afterAtom atom next t)

namespace Observed

/-- The runs end alike, in states that are related by the calls of the first run. -/
def Together (R : List Event → σ → τ → Prop) (calls : List Event) (o : Observed σ α)
    (o' : Observed τ α) : Prop :=
  Alike (SameBut (R (calls ++ o.2.filter Event.isCall))) o.1 o'.1

variable {R : List Event → σ → τ → Prop} {calls : List Event}

theorem Together.ofHook {r : EStateM.Result Failure (ParserState σ) α}
    {r' : EStateM.Result Failure (ParserState τ) α} {event : Event} (hcall : event.isCall = true)
    (h : Alike (SameBut (R (calls ++ [event]))) r r') :
    Together R calls ((ofResult r).behind event) ((ofResult r').behind event) := by
  cases h with
  | ok a related => exact .ok a (by simpa [ofResult, behind, hcall] using related)
  | error e related => exact .error e (by simpa [ofResult, behind, hcall] using related)

/-- Closing runs that end alike by steps that do so; the first one is seen as the calls `shown`. -/
theorem Together.closedBy {o : Observed σ α} {o' : Observed τ α} {close : Parse σ Unit}
    {close' : Parse τ Unit} {event : ParserState σ → Event} {event' : ParserState τ → Event}
    {shown : List Event} (hshown : ∀ s, [event s].filter Event.isCall = shown)
    (h : Together R calls o o')
    (hclose : ∀ {calls s t}, SameBut (R calls) s t →
      Alike (SameBut (R (calls ++ shown))) (close s) (close' t)) :
    Together R calls (o.closedBy close event) (o'.closedBy close' event') := by
  obtain ⟨r, events⟩ := o
  obtain ⟨r', events'⟩ := o'
  have hfilter (s : ParserState σ) : (events ++ [event s]).filter Event.isCall =
      events.filter Event.isCall ++ shown := by
    rw [List.filter_append, hshown]
  have hraised (s : ParserState σ) (e : Failure) :
      (events ++ [event s, .raised e]).filter Event.isCall =
        events.filter Event.isCall ++ shown := by
    rw [← hfilter s, List.append_cons, List.filter_append]
    simp
  cases h with
  | @ok a s t related =>
    have hend := hclose related
    simp only [Together, Observed.closedBy]
    generalize close s = c at hend ⊢
    generalize close' t = c' at hend ⊢
    cases hend with
    | ok _ related => exact .ok a (by rwa [hfilter, ← List.append_assoc])
    | error e related => exact .error e (by rwa [hraised, ← List.append_assoc])
  | @error e s t related =>
    have hend := hclose related
    cases e with
    | error d =>
      simp only [Together, Observed.closedBy]
      generalize close s = c at hend ⊢
      generalize close' t = c' at hend ⊢
      cases hend with
      | ok _ related => exact .error _ (by rwa [hfilter, ← List.append_assoc])
      | error late related =>
        cases late <;> exact .error _ (by rwa [hraised, ← List.append_assoc])
    | overrun => exact .error _ related
    | exhausted => exact .error _ related

theorem Together.behind {o : Observed σ α} {o' : Observed τ α} {event : Event} (event' : Event)
    (hcall : event.isCall = true) (h : Together R (calls ++ [event]) o o') :
    Together R calls (o.behind event) (o'.behind event') := by
  unfold Together Observed.behind at *
  rw [List.filter_cons_of_pos hcall, List.append_cons]
  exact h

theorem Together.leaving (region : Region) {before : Context} {o : Observed σ α}
    {o' : Observed τ α} (h : Together R calls o o') :
    Together R calls (o.leaving region before) (o'.leaving region before) := by
  refine h.closedBy (fun _ => rfl) fun {calls s t} hst => ?_
  rw [List.append_nil]
  simp only [Parse.leaving, hst.context]
  cases region.leave before s.context with
  | none => exact .error _ hst
  | some context => exact .ok () ⟨hst.lexer, rfl, hst.hooks⟩

end Observed

namespace Lockstep

variable {hooks : Hooks σ} {others : Hooks τ} {R : List Event → σ → τ → Prop}

/-- Hooks that agree do so as steps of the parser. -/
theorem hook {R R' : σ → τ → Prop} {action : Hook σ α} {action' : Hook τ α} {s : ParserState σ}
    {t : ParserState τ} (hst : SameBut R s t) (h : Alike R' (action s.hooks) (action' t.hooks)) :
    Alike (SameBut R') (Parse.hook action s) (Parse.hook action' t) := by
  simp only [Parse.hook]
  generalize action s.hooks = r at h ⊢
  generalize action' t.hooks = r' at h ⊢
  cases h with
  | ok a related => exact .ok a ⟨hst.lexer, hst.context, related⟩
  | error e related => exact .error (Failure.error e) ⟨hst.lexer, hst.context, related⟩

theorem askName {R R' : σ → τ → Prop} {question : Hook σ Bool} {question' : Hook τ Bool}
    (name : PrivateName) {s : ParserState σ} {t : ParserState τ} (hst : SameBut R s t)
    (h : Alike R' (question s.hooks) (question' t.hooks)) :
    Alike (SameBut R') (Procedure.askName question name s)
      (Procedure.askName question' name t) := by
  have hresult := hook hst h
  simp only [Procedure.askName, Bind.bind, EStateM.bind]
  generalize Parse.hook question s = r at hresult ⊢
  generalize Parse.hook question' t = r' at hresult ⊢
  cases hresult with
  | ok accepted related =>
    cases accepted with
    | false => exact .error _ related
    | true => exact .ok () related
  | error e related => exact .error e related

/-- Hooks that answer alike give the same outcome. -/
theorem together (h : Lockstep hooks others R) (options : Options) (procedure : Procedure α)
    {calls : List Event} {s : ParserState σ} {t : ParserState τ} (hst : SameBut (R calls) s t) :
    Observed.Together R calls (procedure.observe hooks options s)
      (procedure.observe others options t) := by
  induction procedure generalizing calls s t with
  | pure a => exact .ok a (by simpa [Procedure.observe] using hst)
  | bind first next ihfirst ihnext =>
    have hfirst := ihfirst hst
    simp only [Procedure.observe]
    generalize first.observe hooks options s = o at hfirst ⊢
    generalize first.observe others options t = o' at hfirst ⊢
    obtain ⟨result, events⟩ := o
    obtain ⟨result', events'⟩ := o'
    cases hfirst with
    | ok b related =>
      have hnext := ihnext b related
      simpa [Observed.andThen, Observed.Together] using hnext
    | error e related => exact .error e related
  | raise d => exact .error (Failure.error d) (by simpa [Procedure.observe] using hst)
  | exhaust => exact .error Failure.exhausted (by simpa [Procedure.observe] using hst)
  | lex step =>
    simp only [Procedure.observe, Parse.lexing, hst.lexer]
    cases step.run s.lexer with
    | ok a lexer =>
      exact .ok a ⟨rfl, hst.context, by simpa [Observed.ofResult] using hst.hooks⟩
    | error e lexer =>
      exact .error e
        ⟨rfl, hst.context, by simpa [Observed.ofResult] using hst.hooks⟩
  | context =>
    simp only [Procedure.observe, hst.context]
    exact .ok _ (by simpa using hst)
  | beStrict =>
    exact .ok () ⟨hst.lexer, by simp [hst.context], by simpa [Procedure.observe] using hst.hooks⟩
  | within region body ih =>
    simp only [Procedure.observe, hst.context]
    refine Observed.Together.leaving region (ih ⟨hst.lexer, ?_, hst.hooks⟩)
    rfl
  | arrow isAsync body ih =>
    have hlex : Alike (SameBut (R calls))
        (Parse.nextIs .lBrace { s with context := Grammar.enterArrow isAsync s.context })
        (Parse.nextIs .lBrace { t with context := Grammar.enterArrow isAsync t.context }) := by
      simp only [Parse.nextIs_eq, hst.lexer, hst.context]
      cases Lexing.peek s.lexer with
      | ok a lexer => exact .ok _ ⟨rfl, rfl, hst.hooks⟩
      | error e lexer => exact .error e ⟨rfl, rfl, hst.hooks⟩
    simp only [Procedure.observe]
    generalize Parse.nextIs .lBrace
      { s with context := Grammar.enterArrow isAsync s.context } = r at hlex ⊢
    generalize Parse.nextIs .lBrace
      { t with context := Grammar.enterArrow isAsync t.context } = r' at hlex ⊢
    cases hlex with
    | ok isBlock related =>
      rw [hst.context]
      exact (ih isBlock related).leaving (.arrow isAsync)
    | error e related => exact .error e (by simpa using related)
  | declareMember name kind start =>
    exact .ofHook rfl (askName name hst (h.declareMember name kind start options hst.hooks))
  | referenceName name =>
    exact .ofHook rfl (askName name hst (h.referenceName name options hst.hooks))
  | afterUnary e => exact .ofHook rfl (hook hst (h.afterUnary e hst.hooks))
  | afterAtom atom next => exact .ofHook rfl (hook hst (h.afterAtom atom next hst.hooks))
  | inClass body ih =>
    have hbody := @ih _ { s with hooks := hooks.enterClass s.hooks }
      { t with hooks := others.enterClass t.hooks }
      ⟨hst.lexer, hst.context, h.enterClass hst.hooks⟩
    refine .behind _ rfl (hbody.closedBy (fun _ => rfl) ?_)
    intro calls s' t' hst'
    exact hook hst' (h.exitClass hst'.hooks)
  | inMethod key body ih =>
    have hbody := @ih _ { s with hooks := (hooks.enterMethod key s.hooks).2 }
      { t with hooks := (others.enterMethod key t.hooks).2 }
      ⟨hst.lexer, hst.context, h.enterMethod key hst.hooks⟩
    refine .behind _ rfl (hbody.closedBy (fun _ => rfl) ?_)
    intro calls s' t' hst'
    exact .ok () ⟨hst'.lexer, hst'.context, h.exitMethod key hst.hooks hst'.hooks⟩

end Lockstep

/-! ## Hooks that record their calls -/

namespace Hooks

/-- The hook, which also records the call. -/
def tracing (event : Event) (action : Hook σ α) : Hook (σ × List Event) α := fun s =>
  match action s.1 with
  | .ok a inner => .ok a (inner, s.2 ++ [event])
  | .error d inner => .error d (inner, s.2 ++ [event])

/-- The hooks, which also record the calls they get behind a reset. -/
def traced (hooks : Hooks σ) : Hooks (σ × List Event) where
  tokenRules := hooks.tokenRules
  reset := fun s => (hooks.reset s.1, [])
  enterClass := fun s => (hooks.enterClass s.1, s.2 ++ [.enterClass])
  exitClass := tracing .exitClass hooks.exitClass
  declareMember := fun name kind start options =>
    tracing (.declareMember name kind start) (hooks.declareMember name kind start options)
  enterMethod := fun key s =>
    ((hooks.enterMethod key s.1).1,
      (hooks.enterMethod key s.1).2, s.2 ++ [.enterMethod key (hooks.enterMethod key s.1).1])
  exitMethod := fun saved s => (hooks.exitMethod saved s.1, s.2 ++ [.exitMethod saved])
  referenceName := fun name options =>
    tracing (.referenceName name) (hooks.referenceName name options)
  afterUnary := fun e => tracing (.afterUnary e) (hooks.afterUnary e)
  afterAtom := fun atom next => tracing (.afterAtom atom next) (hooks.afterAtom atom next)

theorem alike_tracing (event : Event) (action : Hook σ α) {calls : List Event} {s : σ}
    {t : σ × List Event} (h : t = (s, calls)) :
    Alike (fun s t => t = (s, calls ++ [event])) (action s) (tracing event action t) := by
  subst h
  simp only [tracing]
  cases action s with
  | ok a s => exact .ok a rfl
  | error d s => exact .error d rfl

/-- Recording changes nothing, and the record holds the calls. -/
theorem lockstep_traced (hooks : Hooks σ) :
    Lockstep hooks hooks.traced (fun calls s t => t = (s, calls)) where
  enterClass h := by rw [h]; rfl
  exitClass := alike_tracing _ _
  declareMember _ _ _ _ := alike_tracing _ _
  enterMethod _ h := by rw [h]; rfl
  exitMethod _ h h' := by rw [h, h']; rfl
  referenceName _ _ := alike_tracing _ _
  afterUnary _ := alike_tracing _ _
  afterAtom _ _ := alike_tracing _ _

end Hooks

namespace Parser

/-- The parser, with hooks that record their calls. -/
def traced (parser : Parser σ) : Parser (σ × List Event) where
  options := parser.options
  hooks := parser.hooks.traced
  state := ⟨parser.state.lexer, parser.state.context, (parser.state.hooks, [])⟩

/-- Recording changes neither the outcome of a parse nor the state it ends in, and what the hooks
record is what the run lists. -/
theorem traced_parse (parser : Parser σ) :
    parser.traced.parse.1 = parser.parse.1 ∧
      parser.traced.parse.2.state =
        ⟨parser.parse.2.state.lexer, parser.parse.2.state.context,
          (parser.parse.2.state.hooks, parser.run.2.filter Event.isCall)⟩ := by
  have htogether : Observed.Together (fun calls s t => t = (s, calls)) [] parser.run
      parser.traced.run :=
    parser.hooks.lockstep_traced.together _ _ ⟨rfl, rfl, rfl⟩
  rw [parse_eq_run, parse_eq_run]
  generalize parser.run = o at htogether ⊢
  generalize parser.traced.run = o' at htogether ⊢
  obtain ⟨result, events⟩ := o
  obtain ⟨result', events'⟩ := o'
  cases htogether with
  | ok program related =>
    obtain ⟨hlexer, hcontext, hhooks⟩ := related
    refine ⟨rfl, ?_⟩
    simp only [← hlexer, ← hcontext]
    rw [List.nil_append] at hhooks
    rw [← hhooks]
  | error failure related =>
    obtain ⟨hlexer, hcontext, hhooks⟩ := related
    refine ⟨rfl, ?_⟩
    simp only [← hlexer, ← hcontext]
    rw [List.nil_append] at hhooks
    rw [← hhooks]

end Parser

end EcmaScript
