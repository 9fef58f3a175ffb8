import EcmaScript.Proofs.Plain

/-!
Private names are a conservative extension of the language.

A source is parsed twice, without private names and with them. The lexers differ only in front of a
`#` at the start of a token: there the first one fails, and as long as it does not, both give the
same tokens. The hooks for private names do nothing unless a private name comes up, and none comes
up in a run without `#`. So the two parses agree, in what they return and in how they fail, unless
the first one fails at a `#`.
-/

namespace EcmaScript

variable {σ τ α β : Type} {rules : List TokenRule}

/-- The failure of a lexer without private names at a `#`. -/
def hashFailure (position : Position) : Failure :=
  .error (.located (.scan (.unexpectedCharacter '#')) position)

/-- A failure at a `#`, or what becomes of it where a counter cannot be put back. -/
def Failure.AtHash (e : Failure) : Prop := e = .overrun ∨ ∃ position, e = hashFailure position

def FailsAtHash {S : Type} (r : EStateM.Result Failure S α) : Prop :=
  ∃ e s, r = .error e s ∧ e.AtHash

/-! ## The lexer -/

def Lexer.withRules (lexer : Lexer) (rules : List TokenRule) : Lexer := { lexer with rules }

structure Lexer.Extends (rules : List TokenRule) (lexer extended : Lexer) : Prop where
  none : lexer.rules = []
  eq : extended = lexer.withRules rules

namespace Lexing

/-- With and without the token rules the step gives the same result, unless it fails at a `#`
without them. -/
def Extends (rules : List TokenRule) (p : Lexing α) : Prop :=
  ∀ lexer : Lexer, lexer.rules = [] →
    rules ≠ [] ∧ FailsAtHash (p lexer) ∨
      Alike (Lexer.Extends rules) (p lexer) (p (lexer.withRules rules))

theorem Extends.bind {p : Lexing α} {q : α → Lexing β} (hp : Extends rules p)
    (hq : ∀ a, Extends rules (q a)) : Extends rules (p >>= q) := by
  intro lexer hnone
  have hfirst := hp lexer hnone
  simp only [Bind.bind, EStateM.bind]
  rcases hfirst with ⟨hrules, e, stopped, hfails, hhash⟩ | halike
  · exact .inl ⟨hrules, e, stopped, by rw [hfails], hhash⟩
  · generalize p lexer = r at halike ⊢
    generalize p (lexer.withRules rules) = r' at halike ⊢
    cases halike with
    | @ok a l l' related =>
      obtain ⟨hnone', rfl⟩ := related
      exact hq a l hnone'
    | error e related => exact .inr (.error e related)

theorem Extends.pure (a : α) : Extends rules (Pure.pure a) := fun _ hnone =>
  .inr (.ok a ⟨hnone, rfl⟩)

/-- A change of the lexer that does not touch the token rules. -/
theorem Extends.changed {f : Lexer → Lexer} {a : α}
    (h : ∀ lexer rules, f (lexer.withRules rules) = (f lexer).withRules rules)
    (hrules : ∀ lexer, (f lexer).rules = lexer.rules) :
    Extends rules (do modify f; return a) := fun lexer hnone =>
  .inr (.ok a ⟨(hrules lexer).trans hnone, h lexer rules⟩)

theorem extends_scan (action : Scan α) : Extends rules (scan action) := by
  intro lexer hnone
  right
  unfold scan Lexer.withRules
  cases action lexer.cursor with
  | ok a cursor => exact .ok a ⟨hnone, rfl⟩
  | error e cursor => exact .error e ⟨hnone, rfl⟩

/-- No token of the language begins with a `#`. -/
theorem token_hash (rest : List Char) (position : Position) :
    FailsAtHash (Scan.token [] ⟨'#' :: rest, position⟩) := by
  have hsymbol : Punctuator.ofText? ('#' :: rest) = none := rfl
  have hstart : isIdStart '#' = false := by decide
  have hdigit : isDecimalDigit '#' = false := by decide
  refine ⟨hashFailure position, ⟨rest, position.past '#' rest.head?⟩, ?_, .inr ⟨position, rfl⟩⟩
  have hget (q : Cursor → Scan Token) (cursor : Cursor) : (get >>= q) cursor = q cursor cursor := rfl
  rw [Scan.token_eq_languageToken (by simp)]
  simp only [Scan.languageToken, hget, hsymbol, hstart, hdigit]
  rfl

/-- The rule for private names matters only in front of a `#`. -/
theorem token_privateName {first : Char} (h : first ≠ '#') (rest : List Char)
    (position : Position) :
    Scan.token [TokenRule.privateName] ⟨first :: rest, position⟩ =
      Scan.token [] ⟨first :: rest, position⟩ := by
  have hrule : TokenRule.privateName first = pure none := by
    simp [TokenRule.privateName, TokenRule.sigil, h]
  rw [Scan.token_eq_languageToken (List.forall_mem_singleton.2 hrule),
    Scan.token_eq_languageToken (by simp)]

section

variable (hrules : rules = [] ∨ rules = [TokenRule.privateName])

include hrules

/-- A token is scanned alike, unless it begins with a `#`. -/
theorem token_extends (cursor : Cursor) :
    rules ≠ [] ∧ FailsAtHash (Scan.token [] cursor) ∨
      Scan.token rules cursor = Scan.token [] cursor := by
  rcases hrules with rfl | rfl
  · exact .inr rfl
  · obtain ⟨text, position⟩ := cursor
    cases text with
    | nil => exact .inr rfl
    | cons first rest =>
      by_cases hfirst : first = '#'
      · subst hfirst
        exact .inl ⟨by simp, token_hash rest position⟩
      · exact .inr (token_privateName hfirst rest position)

/-- The next token is scanned alike, unless it begins with a `#`. -/
theorem lookahead_extends (cursor : Cursor) :
    rules ≠ [] ∧ FailsAtHash (Scan.lookahead [] cursor) ∨
      Scan.lookahead rules cursor = Scan.lookahead [] cursor := by
  rw [Scan.lookahead_eq, Scan.lookahead_eq]
  cases Scan.skipTrivia cursor with
  | error e stopped => exact .inr rfl
  | ok _ start =>
    dsimp only
    rcases token_extends hrules start with ⟨hrules, e, stopped, hfails, hhash⟩ | hsame
    · rw [hfails]
      exact .inl ⟨hrules, e, stopped, rfl, hhash⟩
    · rw [hsame]
      exact .inr rfl

theorem extends_scanToken : Extends rules scanToken := by
  intro lexer hnone
  rw [scanToken_eq, scanToken_eq, hnone]
  rcases lookahead_extends hrules lexer.cursor with ⟨hrules, e, stopped, hfails, hhash⟩ | hsame
  · refine .inl ⟨hrules, e, { lexer with cursor := stopped }, ?_, hhash⟩
    unfold scan
    rw [hfails]
  · have hscan : scan (Scan.lookahead rules) (lexer.withRules rules) =
        scan (Scan.lookahead []) (lexer.withRules rules) := by
      have hcursor : (lexer.withRules rules).cursor = lexer.cursor := rfl
      unfold scan
      rw [hcursor, hsame]
    change _ ∨ Alike _ _ (scan (Scan.lookahead rules) (lexer.withRules rules))
    rw [hscan]
    exact extends_scan (Scan.lookahead []) lexer hnone

theorem extends_takeLookahead : Extends rules takeLookahead := by
  intro lexer hnone
  cases hnext : lexer.lookahead with
  | some next =>
    have hextended : (lexer.withRules rules).lookahead = some next := hnext
    rw [takeLookahead_of_some hnext, takeLookahead_of_some hextended]
    exact .inr (.ok next ⟨hnone, rfl⟩)
  | none =>
    have hextended : (lexer.withRules rules).lookahead = none := hnext
    rw [takeLookahead_of_none hnext, takeLookahead_of_none hextended]
    exact extends_scanToken hrules lexer hnone

theorem extends_lookahead : Extends rules lookahead :=
  (extends_takeLookahead hrules).bind fun _ =>
    .changed (fun _ _ => rfl) fun _ => rfl

theorem extends_next : Extends rules next :=
  (extends_takeLookahead hrules).bind fun _ =>
    .changed (fun _ _ => rfl) fun _ => rfl

theorem extends_peek : Extends rules peek := (extends_lookahead hrules).bind fun _ => .pure _

theorem extends_peekSecond : Extends rules peekSecond := by
  intro lexer hnone
  have hrest : Extends rules (do
      let _ ← next
      let second ← lookahead
      restore lexer.toLexerState
      return (second.token, second.newlineBefore)) :=
    (extends_next hrules).bind fun _ => (extends_lookahead hrules).bind fun second =>
      .changed (fun _ _ => rfl) fun _ => rfl
  exact hrest lexer hnone

end

theorem extends_rescan (action : Position → Scan Token) : Extends rules (rescan action) := by
  intro lexer hnone
  have hscan : Extends rules (do
      let token ← scan (action lexer.lastSpan.start)
      modify fun l : Lexer => { l with lastSpan := ⟨lexer.lastSpan.start, l.cursor.position⟩ }
      return token) :=
    (extends_scan _).bind fun token =>
      .changed (fun _ _ => rfl) fun _ => rfl
  exact hscan { lexer with lookahead := none } hnone

theorem extends_rescanRegExp : Extends rules rescanRegExp := fun lexer hnone =>
  extends_rescan (fun start => do
    set (cursorBehind lexer.source start)
    Scan.regExp start) lexer hnone

end Lexing

theorem LexStep.extends (hrules : rules = [] ∨ rules = [TokenRule.privateName]) {α : Type}
    (step : LexStep α) : Lexing.Extends rules step.run := by
  have hlookahead := Lexing.extends_lookahead hrules
  cases step with
  | peek => exact Lexing.extends_peek hrules
  | next => exact Lexing.extends_next hrules
  | peekSecond => exact Lexing.extends_peekSecond hrules
  | peekStart => exact hlookahead.bind fun _ => .pure _
  | newlineBefore => exact hlookahead.bind fun _ => .pure _
  | lastEnd => exact fun lexer hnone => .inr (.ok _ ⟨hnone, rfl⟩)
  | rescanRegExp => exact Lexing.extends_rescanRegExp
  | readTemplateContinuation => exact Lexing.extends_rescan _
  | regExp => exact (Lexing.extends_next hrules).bind fun _ => Lexing.extends_rescanRegExp
  | templateContinuation =>
    exact (Lexing.extends_next hrules).bind fun _ => Lexing.extends_rescan _

/-! ## Runs -/

namespace Observed

theorem ofResult_fst (r : EStateM.Result Failure (ParserState σ) α) : (ofResult r).1 = r := by
  cases r <;> rfl

theorem mem_closedBy {event : Event} {o : Observed σ α} (h : event ∈ o.2) (close : Parse σ Unit)
    (closed : ParserState σ → Event) : event ∈ (o.closedBy close closed).2 := by
  obtain ⟨result, events⟩ := o
  rcases result with ⟨a, s⟩ | ⟨d | _ | _, s⟩
  · simp only [closedBy]
    cases close s <;> exact List.mem_append_left _ h
  · simp only [closedBy]
    rcases close s with ⟨_, _⟩ | ⟨_ | _ | _, _⟩ <;> exact List.mem_append_left _ h
  · exact h
  · exact h

theorem mem_leaving {event : Event} {o : Observed σ α} (h : event ∈ o.2) (region : Region)
    (before : Context) : event ∈ (o.leaving region before).2 :=
  mem_closedBy h _ _

end Observed

/-- Behind a failure at a `#` a step that can only break the run off changes nothing. -/
theorem FailsAtHash.closedBy {o : Observed σ α} {close : Parse σ Unit}
    {event : ParserState σ → Event} (h : FailsAtHash o.1)
    (hclose : ∀ s e t, close s = .error e t → e = .overrun) :
    FailsAtHash (o.closedBy close event).1 := by
  obtain ⟨result, events⟩ := o
  obtain ⟨e, s, rfl, rfl | ⟨position, rfl⟩⟩ := h
  · exact ⟨_, s, rfl, .inl rfl⟩
  · simp only [Observed.closedBy, hashFailure]
    cases hclosed : close s with
    | ok _ t => exact ⟨_, t, rfl, .inr ⟨position, rfl⟩⟩
    | error e t =>
      obtain rfl := hclose s e t hclosed
      exact ⟨_, t, rfl, .inl rfl⟩

/-- Hooks that do nothing, in a state that is idle, unless a private name comes up. -/
structure Hooks.Idle (hooks : Hooks τ) (idle : τ → Prop) : Prop where
  enterClass : ∀ {t}, idle t → idle (hooks.enterClass t)
  exitClass : ∀ {t}, idle t → ∃ t', hooks.exitClass t = .ok () t' ∧ idle t'
  enterMethod : ∀ {t} key, key.isPrivate = false → idle t → idle (hooks.enterMethod key t).2
  exitMethod : ∀ {t t'} key, key.isPrivate = false → idle t → idle t' →
    idle (hooks.exitMethod (hooks.enterMethod key t).1 t')
  afterUnary : ∀ {t} e, e.isPrivateDelete = false → idle t →
    ∃ t', hooks.afterUnary e t = .ok () t' ∧ idle t'
  afterAtom : ∀ {t} atom next, idle t → ∃ t', hooks.afterAtom atom next t = .ok () t' ∧ idle t'

/-- A state without token rules, and the same one with some and with hooks that are idle. -/
structure ParserState.Extends (rules : List TokenRule) (idle : τ → Prop) (s : ParserState Unit)
    (t : ParserState τ) : Prop where
  lexer : s.lexer.Extends rules t.lexer
  context : t.context = s.context
  hooks : idle t.hooks

/-- The steps end alike, unless the first one fails at a `#`. -/
def Extending (rules : List TokenRule) (idle : τ → Prop)
    (r : EStateM.Result Failure (ParserState Unit) α)
    (r' : EStateM.Result Failure (ParserState τ) α) : Prop :=
  rules ≠ [] ∧ FailsAtHash r ∨ Alike (ParserState.Extends rules idle) r r'

namespace Extending

variable {idle : τ → Prop} {s : ParserState Unit} {t : ParserState τ}

theorem lexing {p : Lexing α} (hp : Lexing.Extends rules p) (hst : s.Extends rules idle t) :
    Extending rules idle (Parse.lexing p s) (Parse.lexing p t) := by
  obtain ⟨⟨hnone, hlexer⟩, hcontext, hhooks⟩ := hst
  unfold Parse.lexing
  rw [hlexer]
  rcases hp s.lexer hnone with ⟨hrules, e, stopped, hfails, hhash⟩ | halike
  · exact .inl ⟨hrules, e, _, by rw [hfails], hhash⟩
  · right
    generalize p s.lexer = r at halike ⊢
    generalize p (s.lexer.withRules rules) = r' at halike ⊢
    cases halike with
    | ok a related => exact .ok a ⟨related, hcontext, hhooks⟩
    | error e related => exact .error e ⟨related, hcontext, hhooks⟩

theorem nextIs (hrules : rules = [] ∨ rules = [TokenRule.privateName]) (symbol : Punctuator)
    (hst : s.Extends rules idle t) :
    Extending rules idle (Parse.nextIs symbol s) (Parse.nextIs symbol t) := by
  have hpeek : Lexing.Extends rules (do return (← Lexing.peek) == .punctuator symbol) :=
    (Lexing.extends_peek hrules).bind fun _ => .pure _
  have hsame : ∀ {ρ : Type} (u : ParserState ρ), Parse.nextIs symbol u =
      Parse.lexing (do return (← Lexing.peek) == .punctuator symbol) u := by
    intro ρ u
    rw [Parse.nextIs_eq]
    simp only [Parse.lexing, Bind.bind, EStateM.bind]
    cases Lexing.peek u.lexer <;> rfl
  rw [hsame, hsame]
  exact lexing hpeek hst

/-- A step behind both runs. -/
theorem andThen {o : Observed Unit β} {o' : Observed τ β}
    {next : β → ParserState Unit → Observed Unit α} {next' : β → ParserState τ → Observed τ α}
    (h : Extending rules idle o.1 o'.1)
    (hnext : ∀ b s t, o.1 = .ok b s → s.Extends rules idle t →
      Extending rules idle (next b s).1 (next' b t).1) :
    Extending rules idle (o.andThen next).1 (o'.andThen next').1 := by
  obtain ⟨result, events⟩ := o
  obtain ⟨result', events'⟩ := o'
  rcases h with ⟨hrules, e, stopped, hfails, hhash⟩ | halike
  · obtain rfl : result = .error e stopped := hfails
    exact .inl ⟨hrules, e, stopped, rfl, hhash⟩
  · cases halike with
    | ok b related => exact hnext b _ _ rfl related
    | error e related => exact .inr (.error e related)

/-- Closing steps that end alike, and that can only break a run off. -/
theorem closedBy {o : Observed Unit α} {o' : Observed τ α} {close : Parse Unit Unit}
    {close' : Parse τ Unit} {event : ParserState Unit → Event} {event' : ParserState τ → Event}
    (h : Extending rules idle o.1 o'.1)
    (hclose : ∀ {s t}, s.Extends rules idle t →
      Alike (ParserState.Extends rules idle) (close s) (close' t))
    (hbreaks : ∀ s e t, close s = .error e t → e = .overrun) :
    Extending rules idle (o.closedBy close event).1 (o'.closedBy close' event').1 := by
  rcases h with ⟨hrules, hfails⟩ | halike
  · exact .inl ⟨hrules, hfails.closedBy hbreaks⟩
  · right
    obtain ⟨result, events⟩ := o
    obtain ⟨result', events'⟩ := o'
    cases halike with
    | @ok a s t related =>
      have hclosed := hclose related
      simp only [Observed.closedBy]
      generalize close s = r, close' t = r' at hclosed ⊢
      cases hclosed with
      | ok _ related => exact .ok a related
      | error e related => exact .error e related
    | @error e s t related =>
      rcases e with d | _ | _
      · have hclosed := hclose related
        simp only [Observed.closedBy]
        generalize close s = r, close' t = r' at hclosed ⊢
        cases hclosed with
        | ok _ related => exact .error _ related
        | error e related => cases e <;> exact .error _ related
      · exact .error _ related
      · exact .error _ related

theorem leaving {o : Observed Unit α} {o' : Observed τ α} (region : Region) (before : Context)
    (h : Extending rules idle o.1 o'.1) :
    Extending rules idle (o.leaving region before).1 (o'.leaving region before).1 := by
  refine h.closedBy (fun {s t} hst => ?_) fun s e t hleave => ?_
  · unfold Parse.leaving
    rw [hst.context]
    cases region.leave before s.context with
    | some context => exact .ok () ⟨hst.lexer, rfl, hst.hooks⟩
    | none => exact .error _ hst
  · unfold Parse.leaving at hleave
    cases hbehind : region.leave before s.context with
    | some context =>
      rw [hbehind] at hleave
      cases hleave
    | none =>
      rw [hbehind] at hleave
      cases hleave
      rfl

/-- Closing steps that succeed and touch only the hooks. -/
theorem hooking {o : Observed Unit α} {o' : Observed τ α} {close : Parse Unit Unit}
    {close' : Parse τ Unit} {event : ParserState Unit → Event} {event' : ParserState τ → Event}
    (h : Extending rules idle o.1 o'.1) (hclose : ∀ s, close s = .ok () s)
    (hclose' : ∀ t, idle t.hooks → ∃ hooks, close' t = .ok () { t with hooks } ∧ idle hooks) :
    Extending rules idle (o.closedBy close event).1 (o'.closedBy close' event').1 := by
  refine h.closedBy (fun {s t} hst => ?_) fun s e t hclosed => ?_
  · obtain ⟨hooks, hend, hidle⟩ := hclose' t hst.hooks
    rw [hclose, hend]
    exact .ok () ⟨hst.lexer, hst.context, hidle⟩
  · rw [hclose] at hclosed
    cases hclosed

/-- A hook that does nothing. -/
theorem hook {action : Hook τ Unit} (hst : s.Extends rules idle t)
    (h : ∃ t', action t.hooks = .ok () t' ∧ idle t') :
    Extending rules idle (Observed.ofResult (Parse.hook (pure ()) s)).1
      (Observed.ofResult (Parse.hook action t)).1 := by
  obtain ⟨t', hdone, hidle⟩ := h
  have hhook : Parse.hook action t = .ok () { t with hooks := t' } := by
    unfold Parse.hook
    rw [hdone]
  rw [hhook]
  exact .inr (.ok () ⟨hst.lexer, hst.context, hidle⟩)

end Extending

/-- A run in which no private name comes up is the same with the token rules and hooks that are
idle, unless it fails at a `#`. -/
theorem Procedure.extends (hrules : rules = [] ∨ rules = [TokenRule.privateName])
    {hooks : Hooks τ} {idle : τ → Prop} (hidle : hooks.Idle idle) (options : Options)
    (procedure : Procedure α) {s : ParserState Unit} {t : ParserState τ}
    (hst : s.Extends rules idle t)
    (hharmless : ∀ event ∈ (procedure.observe Hooks.permissive options s).2,
      event.isHarmless = true) :
    Extending rules idle (procedure.observe Hooks.permissive options s).1
      (procedure.observe hooks options t).1 := by
  induction procedure generalizing s t with
  | pure a => exact .inr (.ok a hst)
  | bind first next ihfirst ihnext =>
    simp only [observe] at hharmless ⊢
    have hbefore : ∀ event ∈ (first.observe Hooks.permissive options s).2,
        event.isHarmless = true := by
      intro event hmem
      refine hharmless event ?_
      generalize first.observe Hooks.permissive options s = o at hmem ⊢
      obtain ⟨result, events⟩ := o
      cases result with
      | ok b s' => exact List.mem_append_left _ hmem
      | error e s' => exact hmem
    refine (ihfirst hst hbefore).andThen fun b s' t' hresult hst' => ?_
    refine ihnext b hst' fun event hmem => hharmless event ?_
    generalize first.observe Hooks.permissive options s = o at hresult ⊢
    obtain ⟨result, events⟩ := o
    obtain rfl : result = .ok b s' := hresult
    exact List.mem_append_right _ hmem
  | raise d => exact .inr (.error _ hst)
  | exhaust => exact .inr (.error _ hst)
  | lex step =>
    simp only [observe, Observed.ofResult_fst]
    exact Extending.lexing (step.extends hrules) hst
  | context =>
    simp only [observe, hst.context]
    exact .inr (.ok _ hst)
  | beStrict => exact .inr (.ok () ⟨hst.lexer, by simp only [hst.context], hst.hooks⟩)
  | within region body ih =>
    simp only [observe, hst.context] at hharmless ⊢
    have hinside : ParserState.Extends rules idle
        { s with context := region.enter s.context }
        { t with context := region.enter s.context } := ⟨hst.lexer, rfl, hst.hooks⟩
    exact (ih hinside fun event hmem =>
      hharmless event (Observed.mem_leaving hmem region s.context)).leaving region s.context
  | arrow isAsync body ih =>
    have hinside : ParserState.Extends rules idle
        { s with context := Grammar.enterArrow isAsync s.context }
        { t with context := Grammar.enterArrow isAsync t.context } :=
      ⟨hst.lexer, by rw [hst.context], hst.hooks⟩
    have hbrace := Extending.nextIs hrules .lBrace hinside
    simp only [observe] at hharmless ⊢
    generalize Parse.nextIs .lBrace
      { s with context := Grammar.enterArrow isAsync s.context } = r at hbrace hharmless ⊢
    generalize Parse.nextIs .lBrace
      { t with context := Grammar.enterArrow isAsync t.context } = r' at hbrace ⊢
    rcases hbrace with ⟨hrules, e, stopped, rfl, hhash⟩ | halike
    · exact .inl ⟨hrules, e, stopped, rfl, hhash⟩
    · cases halike with
      | ok isBlock related =>
        rw [hst.context]
        exact (ih isBlock related fun event hmem =>
          hharmless event (Observed.mem_leaving hmem (.arrow isAsync) s.context)).leaving
            (.arrow isAsync) s.context
      | error e related => exact .inr (.error e related)
  | declareMember name kind start => cases hharmless _ List.mem_cons_self
  | referenceName name => cases hharmless _ List.mem_cons_self
  | afterUnary e =>
    have hunary := hharmless _ List.mem_cons_self
    have hdelete : e.isPrivateDelete = false := by
      simpa only [Event.isHarmless, Bool.not_eq_true'] using hunary
    exact Extending.hook hst (hidle.afterUnary e hdelete hst.hooks)
  | afterAtom atom next => exact Extending.hook hst (hidle.afterAtom atom next hst.hooks)
  | inClass body ih =>
    have hinside : ParserState.Extends rules idle s
        { t with hooks := hooks.enterClass t.hooks } :=
      ⟨hst.lexer, hst.context, hidle.enterClass hst.hooks⟩
    refine (ih hinside fun event hmem => hharmless event ?_).hooking (fun _ => rfl) fun t' ht' => ?_
    · exact List.mem_cons_of_mem _ (Observed.mem_closedBy hmem _ _)
    · obtain ⟨closed, hend, hclosed⟩ := hidle.exitClass ht'
      exact ⟨closed, by simp only [Parse.hook, hend], hclosed⟩
  | inMethod key body ih =>
    have hmethod := hharmless _ List.mem_cons_self
    have hkey : key.isPrivate = false := by
      simpa only [Event.isHarmless, Bool.not_eq_true'] using hmethod
    have hinside : ParserState.Extends rules idle s
        { t with hooks := (hooks.enterMethod key t.hooks).2 } :=
      ⟨hst.lexer, hst.context, hidle.enterMethod key hkey hst.hooks⟩
    refine (ih hinside fun event hmem => hharmless event ?_).hooking (fun _ => rfl) fun t' ht' => ?_
    · exact List.mem_cons_of_mem _ (Observed.mem_closedBy hmem _ _)
    · exact ⟨_, rfl, hidle.exitMethod key hkey hst.hooks ht'⟩

/-! ## Parses -/

theorem Hooks.idle_silent : (Hooks.silent []).Idle fun _ => True where
  enterClass h := h
  exitClass h := ⟨_, rfl, h⟩
  enterMethod _ _ h := h
  exitMethod _ _ _ h := h
  afterUnary _ _ h := ⟨_, rfl, h⟩
  afterAtom _ _ h := ⟨_, rfl, h⟩

/-- No private method is open, and no use of a private name is pending. -/
structure PrivateNames.IsIdle (s : PrivateNames) : Prop where
  method : s.inPrivateMethod = false
  pending : ∀ scope ∈ s.scopes.scopes, scope.pending = []

/-- Closing a class in which nothing is pending leaves nothing pending. -/
theorem PrivateNames.IsIdle.exitClass {s : PrivateNames} (h : s.IsIdle) :
    ∃ s', PrivateNames.exitClass s = .ok () s' ∧ s'.IsIdle := by
  obtain ⟨⟨scopes⟩, inPrivateMethod⟩ := s
  obtain ⟨hmethod, hpending⟩ := h
  match scopes, hpending with
  | [], hpending => exact ⟨_, rfl, ⟨hmethod, hpending⟩⟩
  | [inner], hpending =>
    have hinner : inner.pending = [] := hpending inner List.mem_cons_self
    refine ⟨⟨⟨[]⟩, inPrivateMethod⟩, ?_, ⟨hmethod, by rintro _ ⟨⟩⟩⟩
    simp only [PrivateNames.exitClass, ClassScopes.pop, hinner, List.map_nil,
      ClassScope.earliest?]
  | inner :: outer :: others, hpending =>
    have hinner : inner.pending = [] := hpending inner List.mem_cons_self
    refine ⟨⟨⟨outer :: others⟩, inPrivateMethod⟩, ?_, ⟨hmethod, fun scope hmem => ?_⟩⟩
    · simp only [PrivateNames.exitClass, ClassScopes.pop, ClassScope.inherit, hinner,
        List.foldl_nil]
    · exact hpending scope (List.mem_cons_of_mem _ hmem)

theorem Hooks.idle_privateNames : Hooks.privateNames.Idle PrivateNames.IsIdle where
  enterClass h := by
    refine ⟨h.method, fun scope hmem => ?_⟩
    rcases List.mem_cons.mp hmem with rfl | hmem
    · rfl
    · exact h.pending scope hmem
  exitClass h := h.exitClass
  enterMethod key hkey h := ⟨hkey, h.pending⟩
  exitMethod key hkey h h' := ⟨h.method, h'.pending⟩
  afterUnary e he h := by
    refine ⟨_, ?_, h⟩
    change PrivateNames.afterUnary e _ = _
    rw [PrivateNames.afterUnary_eq, he]
    rfl
  afterAtom atom next h := by
    refine ⟨_, ?_, h⟩
    change PrivateNames.afterAtom atom next _ = _
    rw [PrivateNames.afterAtom_eq, h.method]
    simp

/-- Parsing with hooks that are idle gives what parsing without token rules gives, unless that fails
at a `#`. -/
theorem parseWith_extends {hooks : Hooks τ} {idle : τ → Prop} {initial : τ}
    (hrules : hooks.tokenRules = [] ∨ hooks.tokenRules = [TokenRule.privateName])
    (hidle : hooks.Idle idle) (hinitial : idle (hooks.reset initial)) (source : String)
    (options : Options) :
    (hooks.tokenRules ≠ [] ∧
      ∃ e, (Parser.plain source options).parse.1 = .error e ∧ e.AtHash) ∨
    parseWith source options hooks initial = (Parser.plain source options).parse.1 := by
  let parser := Parser.ofSource source options hooks initial
  have hstart : ParserState.Extends hooks.tokenRules idle (Parser.plain source options).state
      { parser.state with hooks := hooks.reset initial } := ⟨⟨rfl, rfl⟩, rfl, hinitial⟩
  have hrun : Extending hooks.tokenRules idle (Parser.plain source options).run.1 parser.run.1 :=
    Procedure.extends hrules hidle options _ hstart (Parser.harmless_plain source options)
  change _ ∨ parser.parse.1 = _
  rw [Parser.parse_eq_run, Parser.parse_eq_run]
  generalize (Parser.plain source options).run = o at hrun ⊢
  generalize parser.run = o' at hrun ⊢
  obtain ⟨result, events⟩ := o
  obtain ⟨result', events'⟩ := o'
  rcases hrun with ⟨hnonempty, e, stopped, hfails, hhash⟩ | halike
  · obtain rfl : result = .error e stopped := hfails
    exact .inl ⟨hnonempty, e, rfl, hhash⟩
  · cases halike with
    | ok program related => exact .inr rfl
    | error e related => exact .inr rfl

/-- Parsing with private names returns the same tree, or fails with the same error, as parsing
without them, unless the latter fails at a `#`. -/
theorem parse_eq_parsePlain (source : String) (options : Options)
    (hreturns : parsePlain source options ≠ .error .overrun)
    (hhash : ∀ position, parsePlain source options ≠ .error (hashFailure position)) :
    parse source options = parsePlain source options := by
  have hplain : parsePlain source options = (Parser.plain source options).parse.1 := by
    rcases parseWith_extends (.inl rfl) Hooks.idle_silent trivial source options with
      ⟨hnonempty, -⟩ | hsame
    · exact absurd rfl hnonempty
    · exact hsame
  have hinitial : PrivateNames.IsIdle (Hooks.privateNames.reset {}) := ⟨rfl, by rintro _ ⟨⟩⟩
  rcases parseWith_extends (.inr rfl) Hooks.idle_privateNames hinitial source options with
    ⟨-, e, hfails, rfl | ⟨position, rfl⟩⟩ | hsame
  · exact absurd (hplain.trans hfails) hreturns
  · exact absurd (hplain.trans hfails) (hhash position)
  · rw [hplain]
    exact hsame

/-- A `#` inside a string, a regular expression, a template and a comment, and a class without
private names. -/
theorem parse_eq_parsePlain_of_inner_hash :
    (parsePlain "class A \x7b b = '#' + /#/ + \x60#\x60; \x7d // #" {}).isOk = true ∧
    parse "class A \x7b b = '#' + /#/ + \x60#\x60; \x7d // #" {} =
      parsePlain "class A \x7b b = '#' + /#/ + \x60#\x60; \x7d // #" {} := by
  have hok : (parsePlain "class A \x7b b = '#' + /#/ + \x60#\x60; \x7d // #" {}).isOk = true := by
    decide +kernel
  have hne (e : Failure) :
      parsePlain "class A \x7b b = '#' + /#/ + \x60#\x60; \x7d // #" {} ≠ .error e := by
    intro hfails
    rw [hfails] at hok
    cases hok
  exact ⟨hok, parse_eq_parsePlain _ _ (hne _) fun position => hne _⟩

end EcmaScript
