import EcmaScript.Proofs.Consumed
import EcmaScript.Proofs.Scan
import EcmaScript.Proofs.Telling.Statement

/-!
Runs that read no private name.

Without token rules the lexer never gives a private name, so the rules that need one never get as
far as their hooks: no private name is declared or used, no method has a private key, and no
private member is deleted. Since hooks are asked about private names behind private names only, this
is so along every orderly script. That nothing private is deleted takes an argument of its own, since
the deleted expression may have been read far below the operator: whatever a rule returns has been
reported, and no use of a private name has been.
-/

namespace EcmaScript

variable {σ α β : Type}

/-- Whether the event has nothing to do with private names. -/
def Event.isHarmless : Event → Bool
  | .declareMember _ _ _ | .referenceName _ => false
  | .enterMethod key _ => !key.isPrivate
  | .afterUnary e => !e.isPrivateDelete
  | _ => true

/-! ## Tokens -/

namespace Scan

/-- Without rules of their own no private name is scanned. -/
theorem yields_plain_token : Yields (·.isPrivateName = false) (token []) := by
  unfold token
  refine .step fun next => ?_
  cases next with
  | none => exact .done rfl
  | some first =>
    refine .step fun start => ?_
    change Yields _ (nextChar >>= fun next => languageToken next start)
    refine .step fun next => (yields_languageToken next start).mono fun token htoken => ?_
    cases token with
    | privateName name => cases htoken
    | _ => rfl

end Scan

/-! ## The lexer -/

namespace Lexer

/-- The lexer has no token rules, and has not looked at a private name. -/
structure IsPlain (lexer : Lexer) : Prop where
  rules : lexer.rules = []
  lookahead : ∀ next, lexer.lookahead = some next → next.token.isPrivateName = false

end Lexer

namespace Lexing

/-- Wherever the step ends, the lexer is plain if it was; a result has the property. -/
def Plainly (P : α → Prop) (p : Lexing α) : Prop :=
  ∀ lexer : Lexer, lexer.IsPlain →
    (finalState (p lexer)).IsPlain ∧ ∀ a lexer', p lexer = .ok a lexer' → P a

theorem Plainly.bind {P : α → Prop} {Q : β → Prop} {p : Lexing α} {q : α → Lexing β}
    (hp : Plainly P p) (hq : ∀ a, P a → Plainly Q (q a)) : Plainly Q (p >>= q) := by
  intro lexer hlexer
  obtain ⟨hfirst, hresult⟩ := hp lexer hlexer
  simp only [Bind.bind, EStateM.bind]
  cases hp : p lexer with
  | ok a between =>
    rw [hp] at hfirst
    exact hq a (hresult a between hp) between hfirst
  | error e between =>
    rw [hp] at hfirst
    exact ⟨hfirst, by rintro _ _ ⟨⟩⟩

theorem Plainly.pure {P : α → Prop} {a : α} (h : P a) : Plainly P (Pure.pure a) := by
  intro lexer hlexer
  refine ⟨hlexer, ?_⟩
  rintro b lexer' ⟨⟩
  exact h

theorem plainly_scan {P : α → Prop} {action : Scan α} (h : Scan.Yields P action) :
    Plainly P (scan action) := by
  intro lexer hlexer
  unfold scan
  cases hresult : action lexer.cursor with
  | ok a cursor =>
    refine ⟨⟨hlexer.rules, hlexer.lookahead⟩, ?_⟩
    rintro b lexer' ⟨⟩
    exact h _ _ _ hresult
  | error e cursor => exact ⟨⟨hlexer.rules, hlexer.lookahead⟩, by rintro _ _ ⟨⟩⟩

abbrev PlainNext (next : Lookahead) : Prop := next.token.isPrivateName = false

theorem plainly_scanToken : Plainly PlainNext scanToken := by
  intro lexer hlexer
  rw [scanToken_eq, hlexer.rules]
  refine plainly_scan (fun c next c' h => ?_) lexer hlexer
  rw [Scan.lookahead_eq] at h
  cases hstart : Scan.skipTrivia c with
  | error e stopped =>
    rw [hstart] at h
    cases h
  | ok _ start =>
    rw [hstart] at h
    cases htoken : Scan.token [] start with
    | error e stopped =>
      simp only [htoken] at h
      cases h
    | ok token stop =>
      simp only [htoken] at h
      cases h
      exact Scan.yields_plain_token _ _ _ htoken

theorem plainly_takeLookahead : Plainly PlainNext takeLookahead := by
  intro lexer hlexer
  cases hnext : lexer.lookahead with
  | some next =>
    rw [takeLookahead_of_some hnext]
    refine ⟨⟨hlexer.rules, by rintro _ ⟨⟩⟩, ?_⟩
    rintro _ _ ⟨⟩
    exact hlexer.lookahead next hnext
  | none =>
    rw [takeLookahead_of_none hnext]
    exact plainly_scanToken lexer hlexer

theorem plainly_lookahead : Plainly PlainNext lookahead := by
  refine plainly_takeLookahead.bind fun next hnext => ?_
  intro lexer hlexer
  refine ⟨⟨hlexer.rules, ?_⟩, ?_⟩
  · rintro _ ⟨⟩
    exact hnext
  · rintro _ _ ⟨⟩
    exact hnext

theorem plainly_next : Plainly (·.isPrivateName = false) next := by
  refine plainly_takeLookahead.bind fun next hnext => ?_
  intro lexer hlexer
  refine ⟨⟨hlexer.rules, hlexer.lookahead⟩, ?_⟩
  rintro _ _ ⟨⟩
  exact hnext

theorem plainly_rescan (action : Position → Scan Token) :
    Plainly (fun _ => True) (rescan action) := by
  intro lexer hlexer
  have hforgotten : Lexer.IsPlain { lexer with lookahead := none } :=
    ⟨hlexer.rules, by rintro _ ⟨⟩⟩
  have hscan : Plainly (fun _ => True) (do
      let token ← scan (action lexer.lastSpan.start)
      modify fun l : Lexer => { l with lastSpan := ⟨lexer.lastSpan.start, l.cursor.position⟩ }
      return token) := by
    refine (plainly_scan (P := fun _ => True) fun _ _ _ _ => trivial).bind fun token _ => ?_
    intro lexer hlexer
    exact ⟨⟨hlexer.rules, hlexer.lookahead⟩, fun _ _ _ => trivial⟩
  exact hscan _ hforgotten

theorem plainly_rescanRegExp : Plainly (fun _ => True) rescanRegExp := fun lexer hlexer =>
  plainly_rescan (fun start => do
    set (cursorBehind lexer.source start)
    Scan.regExp start) lexer hlexer

theorem plainly_peekSecond : Plainly (fun _ => True) peekSecond := by
  intro lexer hlexer
  have hrest : Plainly (fun _ => True) (do
      let _ ← next
      let second ← lookahead
      restore lexer.toLexerState
      return (second.token, second.newlineBefore)) := by
    refine plainly_next.bind fun _ _ => plainly_lookahead.bind fun second _ => ?_
    intro lexer' hlexer'
    exact ⟨⟨hlexer'.rules, hlexer.lookahead⟩, fun _ _ _ => trivial⟩
  exact hrest lexer hlexer

theorem plainly_peek : Plainly (·.isPrivateName = false) peek :=
  plainly_lookahead.bind fun _ hnext => .pure hnext

end Lexing

theorem LexStep.plainly {α : Type} (step : LexStep α) :
    Lexing.Plainly (fun _ => True) step.run := by
  have hforget : ∀ {α : Type} {P : α → Prop} {p : Lexing α}, Lexing.Plainly P p →
      Lexing.Plainly (fun _ => True) p :=
    fun hp lexer hlexer => ⟨(hp lexer hlexer).1, fun _ _ _ => trivial⟩
  cases step with
  | peek => exact hforget Lexing.plainly_peek
  | next => exact hforget Lexing.plainly_next
  | peekSecond => exact Lexing.plainly_peekSecond
  | peekStart => exact Lexing.plainly_lookahead.bind fun _ _ => .pure trivial
  | newlineBefore => exact Lexing.plainly_lookahead.bind fun _ _ => .pure trivial
  | lastEnd => exact fun lexer hlexer => ⟨hlexer, fun _ _ _ => trivial⟩
  | rescanRegExp => exact Lexing.plainly_rescanRegExp
  | readTemplateContinuation => exact Lexing.plainly_rescan _
  | regExp => exact Lexing.plainly_next.bind fun _ _ => Lexing.plainly_rescanRegExp
  | templateContinuation => exact Lexing.plainly_next.bind fun _ _ => Lexing.plainly_rescan _

/-! ## States -/

/-- The lexer is plain, and no call so far has to do with private names. -/
structure ParserState.IsPlain (s : ParserState (σ × List Event)) : Prop where
  lexer : s.lexer.IsPlain
  harmless : ∀ event ∈ s.hooks.2, event.isHarmless = true

abbrev Plain : ParserState (Unit × List Event) → Prop := ParserState.IsPlain

theorem Plain.withContext {s : ParserState (Unit × List Event)} (context : Context)
    (h : Plain s) : Plain { s with context } :=
  ⟨h.lexer, h.harmless⟩

/-- Wherever the rule ends from this state the state is plain, and a result has the property. -/
abbrev EndsPlain (P : α → Prop) (p : Parse (Unit × List Event) α)
    (s : ParserState (Unit × List Event)) : Prop :=
  Ends (fun _ t => Plain t) p s fun a t => Plain t ∧ P a

theorem EndsPlain.of_finalState {P : α → Prop} {p : Parse (Unit × List Event) α}
    {s : ParserState (Unit × List Event)} (h : Plain (finalState (p s))) (hresult : ∀ a, P a) :
    EndsPlain P p s := by
  unfold EndsPlain Ends
  cases hrun : p s with
  | ok a t =>
    rw [hrun] at h
    exact ⟨h, hresult a⟩
  | error e t =>
    rw [hrun] at h
    exact h

theorem EndsPlain.finalState {P : α → Prop} {p : Parse (Unit × List Event) α}
    {s : ParserState (Unit × List Event)} (h : EndsPlain P p s) : Plain (finalState (p s)) := by
  cases hrun : p s with
  | ok a t => exact (h.of_ok hrun).1
  | error e t => exact h.of_error hrun

/-- A rule with a step behind it. -/
theorem EndsPlain.closing {P : α → Prop} {p : Parse (Unit × List Event) α}
    {close : Parse (Unit × List Event) Unit} {s : ParserState (Unit × List Event)}
    (h : EndsPlain P p s) (hclose : ∀ t, Plain t → Plain (EcmaScript.finalState (close t))) :
    EndsPlain P (Parse.closing close p) s :=
  Ends.closing h
    (fun _ t ht => (of_finalState (hclose t ht.1) fun _ => ht.2).mono (fun _ _ h => h) fun _ _ h => h)
    fun _ t ht => (of_finalState (hclose t ht) fun _ => trivial).mono (fun _ _ h => h.1)
      fun _ _ h => h

/-- The way out of a region leads from plain states to plain ones. -/
theorem Plain.leaving {t : ParserState (Unit × List Event)} (h : Plain t)
    (leave : Context → Option Context) : Plain (finalState (Parse.leaving leave t)) := by
  unfold Parse.leaving
  split
  · exact h.withContext _
  · exact h

/-- A step of the lexer keeps a state plain. -/
theorem Plain.lexing {s : ParserState (Unit × List Event)} (h : Plain s) {P : α → Prop}
    {p : Lexing α} (hp : Lexing.Plainly P p) : EndsPlain P (Parse.lexing p) s := by
  obtain ⟨hlexer, hresult⟩ := hp s.lexer h.lexer
  unfold EndsPlain Ends Parse.lexing
  cases hrun : p s.lexer with
  | ok a lexer =>
    rw [hrun] at hlexer
    exact ⟨⟨hlexer, h.harmless⟩, hresult a lexer hrun⟩
  | error e lexer =>
    rw [hrun] at hlexer
    exact ⟨hlexer, h.harmless⟩

/-- A call that is recorded, and that has nothing to do with private names. -/
theorem Plain.recorded {s : ParserState (Unit × List Event)} (h : Plain s) {event : Event}
    (hevent : event.isHarmless = true) :
    Plain { s with hooks := ((), s.hooks.2 ++ [event]) } := by
  refine ⟨h.lexer, fun other hother => ?_⟩
  rcases List.mem_append.mp hother with hmem | hmem
  · exact h.harmless other hmem
  · rw [List.mem_singleton.mp hmem]
    exact hevent

theorem Plain.tracing {s : ParserState (Unit × List Event)} (h : Plain s) (event : Event)
    (hevent : event.isHarmless = true) (action : Hook Unit α) :
    Plain (finalState (Parse.hook (Hooks.tracing event action) s)) := by
  have hrecorded := h.recorded hevent
  unfold Parse.hook Hooks.tracing
  cases action s.hooks.1 <;> exact hrecorded

/-! ## Deleted members -/

/-- The account of a deleted private member holds a use of its name. -/
theorem reference_mem_account {e : Expression} (h : e.isPrivateDelete = true) :
    ∃ name, Call.reference name ∈ (account e).calls := by
  cases e with
  | unary operator argument span =>
    cases operator with
    | delete =>
      cases argument with
      | member base property computed optional inner =>
        cases property with
        | privateName name =>
          refine ⟨name, ?_⟩
          rw [Tells.account_unary, Tells.account_member]
          simp [Tells.reference, Account.ofCall]
        | _ => cases h
      | _ => cases h
    | _ => cases h
  | _ => cases h

/-- Only a call about a use tells one. -/
theorem Event.reference_notMem_tally {event : Event} (h : ∀ name, event ≠ .referenceName name)
    (name : PrivateName) : Call.reference name ∉ event.tally.calls := by
  cases event with
  | referenceName other => exact absurd rfl (h other)
  | afterUnary e =>
    simp only [Event.tally]
    split <;> simp [Account.deletion]
  | afterAtom atom next =>
    simp only [Event.tally]
    split <;> simp [Account.ofCall]
  | _ => simp [Account.ofCall]

/-- Without a call about a use of a private name, no use is told. -/
theorem Plain.reference_notMem_told {s : ParserState (Unit × List Event)} (h : Plain s)
    (name : PrivateName) : Call.reference name ∉ s.told.calls := by
  have hnone : ∀ events : List Event, (∀ event ∈ events, event.isHarmless = true) →
      Call.reference name ∉ ((events.map Event.tally).sum).calls := by
    intro events hevents
    induction events with
    | nil => simp
    | cons event events ih =>
      have hrest := ih fun other hmem => hevents other (List.mem_cons_of_mem _ hmem)
      have hfirst : ∀ other, event ≠ .referenceName other := by
        rintro other rfl
        cases hevents _ List.mem_cons_self
      rw [List.map_cons, List.sum_cons, Account.add_calls, List.mem_append, not_or]
      exact ⟨Event.reference_notMem_tally hfirst name, hrest⟩
  exact hnone s.hooks.2 h.harmless

section

variable {g : Grammar (Unit × List Event)} [Telling g]

/-- An expression that has just been read deletes no private member: its report is told, and the
use in it has been told before. -/
theorem not_isPrivateDelete_of_plain {s s' : ParserState (Unit × List Event)} {e : Expression}
    (hread : g.unaryBody s = .ok e s') (hs' : Plain s') : e.isPrivateDelete = false := by
  have hreport : Parse.hook (g.hooks.afterUnary e) s' =
      .ok () { s' with hooks := ((), s'.hooks.2 ++ [.afterUnary e]) } := by
    rw [Telling.hooks]
    rfl
  have hrule : g.unaryRule s =
      .ok e { s' with hooks := ((), s'.hooks.2 ++ [.afterUnary e]) } := by
    simp only [Grammar.unaryRule, Bind.bind, EStateM.bind, hread, hreport]
    rfl
  obtain ⟨k, htold, haccount, -⟩ := (Tells.unaryRule (g := g)).tells s e _ hrule
  cases hdelete : e.isPrivateDelete with
  | false => rfl
  | true =>
    obtain ⟨name, hname⟩ := reference_mem_account hdelete
    rw [haccount, zero_add] at hname
    have hmem : Call.reference name ∈ ({ s' with
        hooks := ((), s'.hooks.2 ++ [.afterUnary e]) } : ParserState _).told.calls := by
      rw [htold]
      exact List.mem_append_right _ hname
    simp only [ParserState.told, List.map_append, List.sum_append, Account.add_calls] at hmem
    rcases List.mem_append.mp hmem with hmem | hmem
    · exact absurd hmem (hs'.reference_notMem_told name)
    · rw [List.map_singleton, List.sum_singleton] at hmem
      exact absurd hmem (Event.reference_notMem_tally (by rintro _ ⟨⟩) name)

/-! ## Scripts -/

end

/-- A step of the lexer behind which no less is known. -/
theorem Script.endsPlain_lex (g : Grammar (Unit × List Event)) {P : α → Prop} {step : LexStep α}
    {s : ParserState (Unit × List Event)} (hs : Plain s) (hresult : ∀ a, P a) :
    EndsPlain P ((leaf (.lex step)).denote g) s := by
  rw [denote_lex]
  exact (hs.lexing step.plainly).mono (fun a _ ht => ⟨ht.1, hresult a⟩) fun _ _ ht => ht

section

variable (options : Options) (bound depth : Nat)

/-- Where the lexer is plain and no private name has been consumed, an orderly script asks nothing
about private names, and none is consumed. -/
theorem Script.Orderly.endsPlain [Bare α] {place : Setting} {known : Known}
    {script script' : Script α} {after : α → Known}
    (h : script.Orderly place known script' after)
    (hcall : ∀ {β : Type} (callee : Recurring β) {s : ParserState (Unit × List Event)}, Plain s →
      Plain (finalState (callee.rule (.ofDepth options Hooks.permissive.traced bound depth) s)))
    {s : ParserState (Unit × List Event)} (hs : Plain s) (hsees : known.view.Sees s.lexer)
    (hnamed : known.named = false) :
    EndsPlain (fun a => (after a).named = false)
      (script.denote (.ofDepth options Hooks.permissive.traced bound depth)) s := by
  have htelling := telling_ofDepth options bound depth
  let g := Grammar.ofDepth options Hooks.permissive.traced bound depth
  induction h generalizing s with
  | pure ha => exact ⟨hs, hnamed⟩
  | raise d => exact hs
  | options | context => exact ⟨hs, hnamed⟩
  | beStrict => exact ⟨hs.withContext _, hnamed⟩
  | peek | newlineBefore | peekSecond | peekStart | lastEnd | skip | regExp |
    templateContinuation => exact endsPlain_lex _ hs fun _ => hnamed
  | next =>
    rw [denote_lex]
    refine (hs.lexing Lexing.plainly_next).mono (fun token t ht => ⟨ht.1, ?_⟩) fun _ _ ht => ht
    exact Bool.or_eq_false_iff.2 ⟨ht.2, hnamed⟩
  | askAgain h =>
    have hpeek : Parse.lexing LexStep.peek.run s = .ok _ s := hsees.peek
    unfold EndsPlain Ends
    rw [denote, denote_lex, Parse.bind_of_ok hpeek]
    exact ⟨hs, (congrArg Known.named h).trans hnamed⟩
  | declareMember hconsumed | referenceName hconsumed =>
    exact absurd hconsumed (by simp [hnamed])
  | @afterAtom _ known atom _ hatom next =>
    have hdenote : (leaf (.afterAtom atom next)).denote g =
        Parse.hook (g.hooks.afterAtom atom next) := denote_afterAtom g atom next
    rw [hdenote, Telling.hooks]
    refine .of_finalState ?_ fun _ => hnamed
    exact hs.tracing (.afterAtom atom next) rfl (Hooks.permissive.afterAtom atom next)
  | unaryRule h ih =>
    rw [denote_unaryRule, Grammar.unaryRule]
    rw [denote_unaryBody] at ih
    refine (ih hs hsees hnamed).andThen fun e t hread ht => ?_
    have hharmless : (Event.afterUnary e).isHarmless = true := by
      rw [Event.isHarmless, not_isPrivateDelete_of_plain hread ht.1]
      rfl
    have hreport : EndsPlain (fun _ => True)
        (Parse.hook (Hooks.permissive.traced.afterUnary e)) t :=
      .of_finalState (ht.1.tracing (.afterUnary e) hharmless (Hooks.permissive.afterUnary e))
        fun _ => trivial
    rw [Telling.hooks]
    exact hreport.bind fun _ t' ht' => ⟨ht'.1, ht.2⟩
  | call callee => exact .of_finalState (hcall callee hs) fun _ => hnamed
  | bind hfirst _ ihfirst ihnext =>
    refine (ihfirst hs hsees hnamed).andThen fun b t hrun ht => ?_
    exact ihnext b b (.refl b) ht.1 (hfirst.sees hsees hrun) ht.2
  | loop hround hstart ih =>
    refine Ends.loop (I := fun _ t => Plain t) (fun a t ht => ?_) (fun _ _ ht => ht) _ _ s hs
    refine (ih a a (.refl a) ht trivial hnamed).mono (fun r t ht => ?_) fun _ _ ht => ht
    cases r with
    | again a' => exact ht.1
    | stop b => exact ht
  | within region _ ih =>
    exact EndsPlain.closing (ih (hs.withContext _) hsees hnamed) fun t ht => ht.leaving _
  | arrow isAsync hbody ih =>
    have hblock : EndsPlain (fun _ => True) (Parse.nextIs .lBrace)
        { s with context := Grammar.enterArrow isAsync s.context } :=
      Ends.bind ((hs.withContext _).lexing Lexing.plainly_peek) fun _ _ ht => ⟨ht.1, trivial⟩
    exact hblock.bind fun isBlock t ht =>
      EndsPlain.closing (ih isBlock ht.1 trivial hnamed) fun t ht => ht.leaving _
  | inClass _ ih =>
    rw [denote_inClass, Telling.hooks]
    exact EndsPlain.closing (ih (hs.recorded rfl) hsees hnamed) fun t ht =>
      ht.tracing .exitClass rfl Hooks.permissive.exitClass
  | @inMethod _ known _ _ _ key _ body _ hconsumed _ _ ih =>
    have hpublic : key.isPrivate = false :=
      Bool.eq_false_iff.2 fun h => by simp [hconsumed h] at hnamed
    rw [denote_inMethod, Telling.hooks]
    have hinside : Plain { s with hooks := (Hooks.permissive.traced.enterMethod key s.hooks).2 } :=
      hs.recorded (by simp [Event.isHarmless, hpublic])
    have hclose (saved : Bool) (t : ParserState (Unit × List Event)) (ht : Plain t) :
        Plain (finalState ((Parse.update fun s =>
          ((), Hooks.permissive.traced.exitMethod saved s) : Parse (Unit × List Event) Unit) t)) :=
      ht.recorded rfl
    exact EndsPlain.closing (ih hinside hsees hnamed) (hclose _)
  | weaken hknown _ hafter ih =>
    refine (ih hs (hknown.sees hsees) ?_).mono (fun a t ht => ⟨ht.1, ?_⟩) fun _ _ ht => ht
    · exact Bool.eq_false_iff.2 fun h => by simp [hknown.named h] at hnamed
    · exact Bool.eq_false_iff.2 fun h => by simp [(hafter a).named h] at ht

/-- A rule that recurs keeps a state plain. -/
theorem Recurring.plain (callee : Recurring α) {s : ParserState (Unit × List Event)}
    (hs : Plain s) :
    Plain (finalState (callee.rule (.ofDepth options Hooks.permissive.traced bound depth) s)) := by
  let _ := callee.bare
  induction depth generalizing α s with
  | zero =>
    rw [callee.rule_zero]
    exact hs
  | succ depth ih =>
    rw [callee.rule_succ, ← callee.denote_script]
    have horderly := callee.orderly_script false .nothing
    exact (horderly.endsPlain options bound depth (fun callee _ hs => ih callee hs) hs trivial
      rfl).finalState

end

/-! ## Parses -/

namespace Parser

/-- The parser of a source without token rules, which would accept private names. -/
def plain (source : String) (options : Options) : Parser Unit where
  options := options
  hooks := .permissive
  state :=
    { lexer := .ofSource source []
      context := { strict := options.goal == .module }
      hooks := () }

theorem state_parse (parser : Parser σ) :
    parser.parse.2.state = finalState (parser.grammar.program parser.state) := by
  unfold parse
  cases parser.grammar.program parser.state <;> rfl

/-- Nothing in its run has to do with private names. -/
theorem harmless_plain (source : String) (options : Options) :
    ∀ event ∈ (plain source options).run.2, event.isHarmless = true := by
  let parser := (plain source options).traced
  have hstate : Plain parser.parse.2.state := by
    have hstart : Plain parser.state := ⟨⟨rfl, by rintro _ ⟨⟩⟩, by rintro _ ⟨⟩⟩
    rw [state_parse, Script.program_eq_denote]
    have hreset : Plain { parser.state with hooks := parser.hooks.reset parser.state.hooks } :=
      ⟨hstart.lexer, by rintro _ ⟨⟩⟩
    exact ((Script.orderly_program .nothing).endsPlain _ _ _
      (fun callee _ hs => callee.plain _ _ _ hs) hreset trivial rfl).finalState
  rw [(plain source options).traced_parse.2] at hstate
  intro event hmem
  cases hcall : event.isCall with
  | true => exact hstate.harmless event (List.mem_filter.mpr ⟨hmem, hcall⟩)
  | false => cases event <;> first | rfl | cases hcall

end Parser

end EcmaScript
