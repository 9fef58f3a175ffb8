import EcmaScript.Proofs.Consumed

/-!
Runs over the same tokens.

No decision of a rule depends on a position. So a run that returns can be imitated: from every state
in which the context is the same, the hooks are in a state that is the same up to positions, and the
lexer feeds the tokens that the run has consumed and then tokens that look like the ones behind
them, the rule returns the same up to positions, unless its rounds or its depth run out. Where the
tokens stand, and how deep the grammar is, makes no difference.
-/

namespace EcmaScript

variable {σ α β : Type}

/-! ## Hooks that ignore positions -/

/-- From related states the second action answers as the first one does, and leads to related
states. -/
def Echoed (R : σ → σ → Prop) (action action' : Hook σ α) : Prop :=
  ∀ ⦃s s' t : σ⦄ ⦃a : α⦄, R s s' → action s = .ok a t → ∃ t', action' s' = .ok a t' ∧ R t t'

/-- The hooks answer alike in related states, whatever the positions are in their arguments. -/
structure Hooks.IgnorePositions (hooks : Hooks σ) (R : σ → σ → Prop) : Prop where
  enterClass : ∀ {s s'}, R s s' → R (hooks.enterClass s) (hooks.enterClass s')
  exitClass : Echoed R hooks.exitClass hooks.exitClass
  declareMember : ∀ {name name' : PrivateName}, Twins name name' → ∀ kind start start' options,
    Echoed R (hooks.declareMember name kind start options)
      (hooks.declareMember name' kind start' options)
  enterMethod : ∀ {key key' : PropertyKey} {s s'}, Twins key key' → R s s' →
    (hooks.enterMethod key s).1 = (hooks.enterMethod key' s').1 ∧
      R (hooks.enterMethod key s).2 (hooks.enterMethod key' s').2
  exitMethod : ∀ saved {s s'}, R s s' → R (hooks.exitMethod saved s) (hooks.exitMethod saved s')
  referenceName : ∀ {name name' : PrivateName}, Twins name name' → ∀ options,
    Echoed R (hooks.referenceName name options) (hooks.referenceName name' options)
  afterUnary : ∀ {e e' : Expression}, Twins e e' →
    Echoed R (hooks.afterUnary e) (hooks.afterUnary e')
  afterAtom : ∀ {atom atom' : Expression}, Twins atom atom' → ∀ next,
    Echoed R (hooks.afterAtom atom next) (hooks.afterAtom atom' next)

/-! ## States to go on from -/

structure Lexer.Sights (lexer : Lexer) (tokens : List Placed) (others : List Lexeme) : Prop where
  feedsAt : lexer.FeedsAt tokens
  orderly : ∀ placed ∈ tokens, placed.IsOrderly
  alike : LookAlike (tokens.map Placed.toLexeme) others

/-- The second state is like the first one, and its lexer feeds the tokens. -/
structure Mirrors (R : σ → σ → Prop) (tokens : List Lexeme) (s s' : ParserState σ) : Prop where
  context : s'.context = s.context
  hooks : R s.hooks s'.hooks
  feeds : s'.lexer.Feeds tokens

/-- What is told of the end of a run, if it does not fail for want of depth or rounds. -/
def Observed.EndsIn (o : Observed σ α) (Q : α → ParserState σ → Prop) : Prop :=
  match o.1 with
  | .ok a t => Q a t
  | .error e _ => e = .exhausted

namespace Observed.EndsIn

variable {o : Observed σ α} {Q : α → ParserState σ → Prop}

theorem of_eq {a : α} {t : ParserState σ} (h : o.1 = .ok a t) (hQ : Q a t) : o.EndsIn Q := by
  unfold EndsIn
  rw [h]
  exact hQ

theorem andThen {o : Observed σ β} {next : β → ParserState σ → Observed σ α}
    {P : β → ParserState σ → Prop} (h : o.EndsIn P) (hnext : ∀ b s, P b s → (next b s).EndsIn Q) :
    (o.andThen next).EndsIn Q := by
  obtain ⟨b | e, events⟩ := o
  · exact hnext _ _ h
  · exact h

theorem closedBy {P : α → ParserState σ → Prop} {close : Parse σ Unit}
    {event : ParserState σ → Event} (h : o.EndsIn P)
    (hclose : ∀ a s, P a s → ∃ s', close s = .ok () s' ∧ Q a s') :
    (o.closedBy close event).EndsIn Q := by
  obtain ⟨result, events⟩ := o
  cases result with
  | ok a s =>
    obtain ⟨s', hclosed, hQ⟩ := hclose a s h
    simp only [EndsIn, Observed.closedBy, hclosed]
    exact hQ
  | error e s =>
    obtain rfl : e = .exhausted := h
    rfl

theorem leaving {P : α → ParserState σ → Prop} {region : Region} {before : Context}
    (h : o.EndsIn P)
    (hQ : ∀ a s, P a s → ∃ behind, region.leave before s.context = some behind ∧
      Q a { s with context := behind }) :
    (o.leaving region before).EndsIn Q := by
  refine h.closedBy fun a s hP => ?_
  obtain ⟨behind, hleave, hQ⟩ := hQ a s hP
  refine ⟨_, ?_, hQ⟩
  rw [Parse.leaving, hleave]

end Observed.EndsIn

namespace Echoed

variable {R : σ → σ → Prop} {tokens : List Lexeme} {s s' t : ParserState σ}

theorem hook {action action' : Hook σ α} {a : α} (h : Echoed R action action')
    (hmirrors : Mirrors R tokens s s') (hrun : Parse.hook action s = .ok a t) :
    ∃ t', Parse.hook action' s' = .ok a t' ∧ Mirrors R tokens t t' := by
  unfold Parse.hook at hrun ⊢
  cases haction : action s.hooks with
  | error d _ =>
    rw [haction] at hrun
    cases hrun
  | ok b state =>
    rw [haction] at hrun
    cases hrun
    obtain ⟨state', haction', hR⟩ := h hmirrors.hooks haction
    rw [haction']
    exact ⟨_, rfl, hmirrors.context, hR, hmirrors.feeds⟩

theorem askName {question question' : Hook σ Bool} (h : Echoed R question question')
    {name name' : PrivateName} (hmirrors : Mirrors R tokens s s')
    (hrun : Procedure.askName question name s = .ok () t) :
    ∃ t', Procedure.askName question' name' s' = .ok () t' ∧ Mirrors R tokens t t' := by
  obtain ⟨accepted, middle, hhook, hrest⟩ := Parse.bind_eq_ok hrun
  cases accepted <;> cases hrest
  obtain ⟨t', hhook', hmirrors'⟩ := h.hook hmirrors hhook
  exact ⟨t', by rw [Procedure.askName, Parse.bind_of_ok hhook']; rfl, hmirrors'⟩

end Echoed

/-- A look at the next token shows the same one. -/
theorem Mirrors.looksTo {R : σ → σ → Prop} {ahead : List Placed} {tokens : List Lexeme}
    {s t s' : ParserState σ} {next : Lookahead} (h : Mirrors R tokens s s')
    (hlook : s.LooksTo next t) (hsights : t.lexer.Sights ahead tokens) :
    ∃ next' t', s'.LooksTo next' t' ∧ next'.token = next.token ∧
      next'.newlineBefore = next.newlineBefore ∧ Mirrors R tokens t t' := by
  obtain ⟨hfeedsAt, -, first, rest, rest', hmap, rfl, -⟩ := hsights
  obtain ⟨placed, ahead, rfl, rfl, -⟩ := List.map_eq_cons_iff.1 hmap
  obtain ⟨htoken, hnewline⟩ := hfeedsAt.token_eq hlook.takes.1
  obtain ⟨next', lexer', hlook', htoken', hnewline', hfeeds⟩ := h.feeds.lookahead
  refine ⟨next', { s' with lexer := lexer' }, ?_, htoken'.trans htoken.symm,
    hnewline'.trans hnewline.symm, ?_, ?_, hfeeds⟩
  · unfold ParserState.LooksTo Parse.lexing
    rw [hlook']
  · rw [hlook.context_eq]
    exact h.context
  · rw [hlook.hooks_eq]
    exact h.hooks

/-! ## Procedures that imitate each other -/

namespace Procedure

variable {hooks : Hooks σ} {options : Options} {R : σ → σ → Prop} {view : View}

/-- What the first procedure returns, the second one returns wherever it is fed the tokens that the
first one has consumed. -/
structure Imitates (hooks : Hooks σ) (options : Options) (R : σ → σ → Prop) (view : View)
    [Bare α] (procedure imitation : Procedure α) : Prop where
  imitates : ∀ {s t s' : ParserState σ} {a : α} {tokens : List Placed} {others : List Lexeme},
    view.Sees s.lexer → (procedure.observe hooks options s).1 = .ok a t →
      t.lexer.Sights tokens others →
        Mirrors R ((procedure.consumed hooks options s).map Placed.toLexeme ++ others) s s' →
          (imitation.observe hooks options s').EndsIn fun a' t' =>
            Twins a a' ∧ Mirrors R others t t'

/-- Behind a run the tokens are in sight that it consumes, and what is in sight behind it. -/
theorem FeedsOn.sights {procedure : Procedure α} {after : α → View}
    (h : procedure.FeedsOn view after) {s t : ParserState σ} {a : α} (hsees : view.Sees s.lexer)
    (hrun : (procedure.observe hooks options s).1 = .ok a t)
    {tokens : List Placed} {others : List Lexeme} (hsights : t.lexer.Sights tokens others) :
    s.lexer.Sights (procedure.consumed hooks options s ++ tokens)
      ((procedure.consumed hooks options s).map Placed.toLexeme ++ others) := by
  obtain ⟨htrail, -⟩ := h.feedsOn hooks options hsees hrun
  refine ⟨htrail.feedsAt tokens hsights.feedsAt, fun placed hplaced => ?_, ?_⟩
  · exact (List.mem_append.1 hplaced).elim (htrail.orderly placed) (hsights.orderly placed)
  · rw [List.map_append]
    exact hsights.alike.behind _

namespace Imitates

variable [Bare α] [Bare β]

omit [Bare β] in
theorem exhausted {procedure : Procedure α} :
    procedure.Imitates hooks options R view .exhaust :=
  ⟨fun _ _ _ _ => rfl⟩

omit [Bare β] in
theorem ofRaise (d : Diagnostic) (imitation : Procedure α) :
    (Procedure.raise d).Imitates hooks options R view imitation :=
  ⟨fun _ hrun => by cases hrun⟩

omit [Bare β] in
theorem ofExhaust (imitation : Procedure α) :
    Procedure.exhaust.Imitates hooks options R view imitation :=
  ⟨fun _ hrun => by cases hrun⟩

omit [Bare β] in
theorem pure {a a' : α} (h : Twins a a') :
    (Procedure.pure a).Imitates hooks options R view (.pure a') := by
  refine ⟨fun _ hrun _ hmirrors => ?_⟩
  cases hrun
  exact ⟨h, hmirrors⟩

omit [Bare β] in
theorem anywhere {procedure imitation : Procedure α}
    (h : procedure.Imitates hooks options R .any imitation) :
    procedure.Imitates hooks options R view imitation :=
  ⟨fun _ => h.imitates trivial⟩

theorem bind {first first' : Procedure β} {next next' : β → Procedure α} {between : β → View}
    (hfirst : first.Imitates hooks options R view first')
    (hseen : first.FeedsOn view between)
    (hfeeds : ∀ b, (next b).FeedsOn (between b) fun _ => .any)
    (hnext : ∀ b b', Twins b b' → (next b).Imitates hooks options R (between b) (next' b')) :
    (Procedure.bind first next).Imitates hooks options R view (.bind first' next') := by
  refine ⟨fun {s t s' a tokens others} hsees hrun hsights hmirrors => ?_⟩
  obtain ⟨b, middle, hrun', hrest⟩ := Observed.of_andThen hrun
  obtain ⟨-, hbetween⟩ := hseen.feedsOn hooks options hsees hrun'
  rw [consumed_bind hrun', List.map_append, List.append_assoc] at hmirrors
  have hahead := (hfeeds b).sights hbetween hrest hsights
  refine (hfirst.imitates hsees hrun' hahead hmirrors).andThen fun b' middle' ⟨hb, hmiddle⟩ => ?_
  exact (hnext b b' hb).imitates hbetween hrest hsights hmiddle

omit [Bare β] in
/-- A step of the lexer that is a matter of tokens. -/
theorem lex {step : LexStep α} (h : step.IsOrderly view) :
    (Procedure.lex step).Imitates hooks options R view (.lex step) := by
  refine ⟨fun {s t s' a tokens others} hsees hrun hsights hmirrors => ?_⟩
  simp only [observe, Observed.fst_ofResult] at hrun ⊢
  obtain ⟨lexer, hrun', rfl⟩ := Parse.lexing_eq_ok hrun
  obtain ⟨fed, hfed, hfeeds⟩ := LexStep.imitated h hsees hrun' hsights.feedsAt hsights.orderly
    hsights.alike hmirrors.feeds
  refine .of_eq (a := a) (t := { s' with lexer := fed }) ?_
    ⟨.refl a, hmirrors.context, hmirrors.hooks, hfeeds⟩
  rw [Observed.fst_ofResult, Parse.lexing, hfed]

theorem rounds {round round' : α → Procedure (Round α β)}
    (hfeeds : ∀ a, (round a).FeedsOn .any fun _ => .any)
    (hround : ∀ a a', Twins a a' → (round a).Imitates hooks options R .any (round' a'))
    (bound bound' : Nat) {a a' : α} (ha : Twins a a') :
    (Procedure.rounds round bound a).Imitates hooks options R .any
      (Procedure.rounds round' bound' a') := by
  induction bound generalizing bound' a a' with
  | zero => exact ofExhaust _
  | succ bound ih =>
    cases bound' with
    | zero => exact exhausted
    | succ bound' =>
      refine bind (hround a a' ha) (hfeeds a) (fun r => ?_)
        fun r r' hr => ?_
      · cases r with
        | again a => exact .rounds hfeeds bound a
        | stop b => exact .pure rfl
      · have hbare := hr.bare_eq
        cases r with
        | again a =>
          cases r' with
          | again a' => exact ih bound' ⟨Round.again.inj hbare⟩
          | stop b' => cases hbare
        | stop b =>
          cases r' with
          | again a' => cases hbare
          | stop b' =>
            refine ⟨fun _ hrun _ hmirrors => ?_⟩
            cases hrun
            exact ⟨⟨Round.stop.inj hbare⟩, hmirrors⟩

omit [Bare β] in
theorem within (region : Region) {body body' : Procedure α}
    (h : body.Imitates hooks options R view body') :
    (Procedure.within region body).Imitates hooks options R view (.within region body') := by
  refine ⟨fun {s t s' a tokens others} hsees hrun hsights hmirrors => ?_⟩
  obtain ⟨end_, behind, hrun', hleave, rfl⟩ := Observed.of_leaving hrun
  have hinside : Mirrors R ((body.consumed hooks options
      { s with context := region.enter s.context }).map Placed.toLexeme ++ others)
      { s with context := region.enter s.context }
      { s' with context := region.enter s'.context } :=
    ⟨congrArg region.enter hmirrors.context, hmirrors.hooks, hmirrors.feeds⟩
  have hbody := h.imitates (s := { s with context := region.enter s.context }) hsees hrun' hsights
    hinside
  refine hbody.leaving fun a' end' ⟨ha, hend⟩ => ⟨behind, ?_, ha, rfl, hend.hooks, hend.feeds⟩
  rw [← hleave]
  exact congrArg₂ region.leave hmirrors.context hend.context

omit [Bare β] in
theorem arrow (isAsync : Bool) {body body' : Bool → Procedure α}
    {after : α → View} (hfeeds : ∀ isBlock, (body isBlock).FeedsOn .any after)
    (h : ∀ isBlock, (body isBlock).Imitates hooks options R .any (body' isBlock)) :
    (Procedure.arrow isAsync body).Imitates hooks options R view (.arrow isAsync body') := by
  refine ⟨fun {s t s' a tokens others} _ hrun hsights hmirrors => ?_⟩
  unfold observe at hrun ⊢
  unfold consumed at hmirrors
  cases hblock : Parse.nextIs .lBrace { s with context := Grammar.enterArrow isAsync s.context } with
  | error e inside =>
    rw [hblock] at hrun
    cases hrun
  | ok isBlock inside =>
    rw [hblock] at hrun hmirrors
    obtain ⟨end_, behind, hrun', hleave, rfl⟩ := Observed.of_leaving hrun
    obtain ⟨next, hlook, rfl⟩ := Parse.nextIs_eq_ok hblock
    have hinside : Mirrors R _ { s with context := Grammar.enterArrow isAsync s.context }
        { s' with context := Grammar.enterArrow isAsync s'.context } :=
      ⟨congrArg (Grammar.enterArrow isAsync) hmirrors.context, hmirrors.hooks, hmirrors.feeds⟩
    obtain ⟨next', inside', hlook', htoken, -, hmiddle⟩ :=
      hinside.looksTo hlook ((hfeeds _).sights trivial hrun' hsights)
    rw [hlook'.nextIs, htoken]
    refine ((h _).imitates trivial hrun' hsights hmiddle).leaving fun a' end' himitated => ?_
    obtain ⟨ha, hend⟩ := himitated
    refine ⟨behind, ?_, ha, rfl, hend.hooks, hend.feeds⟩
    rw [← hleave]
    exact congrArg₂ (Region.arrow isAsync).leave hmirrors.context hend.context

omit [Bare β] in
/-- A body behind a call of a hook and in front of another one. -/
theorem enclosed {body body' : Procedure α} (h : body.Imitates hooks options R view body')
    {close close' : Parse σ Unit} {event event' : ParserState σ → Event}
    (hstill : ∀ {s t : ParserState σ}, close s = .ok () t → t.lexer = s.lexer)
    (hclose : ∀ {tokens : List Lexeme} {s t s' : ParserState σ}, Mirrors R tokens s s' →
      close s = .ok () t → ∃ t', close' s' = .ok () t' ∧ Mirrors R tokens t t')
    {inside inside' : σ} (hR : R inside inside') {s t s' : ParserState σ} {a : α}
    {tokens : List Placed} {others : List Lexeme} (hsees : view.Sees s.lexer)
    (hrun : ((body.observe hooks options { s with hooks := inside }).closedBy close event).1 =
      .ok a t)
    (hsights : t.lexer.Sights tokens others)
    (hmirrors : Mirrors R ((body.consumed hooks options { s with hooks := inside }).map
      Placed.toLexeme ++ others) s s') :
    ((body'.observe hooks options { s' with hooks := inside' }).closedBy close' event').EndsIn
      fun a' t' => Twins a a' ∧ Mirrors R others t t' := by
  obtain ⟨end_, hrun', hclosed⟩ := Observed.of_closedBy hrun
  rw [hstill hclosed] at hsights
  have hinside : Mirrors R _ { s with hooks := inside } { s' with hooks := inside' } :=
    ⟨hmirrors.context, hR, hmirrors.feeds⟩
  refine (h.imitates (s := { s with hooks := inside }) hsees hrun' hsights hinside).closedBy
    fun a' end' ⟨ha, hend⟩ => ?_
  obtain ⟨t', hclosed', ht⟩ := hclose hend hclosed
  exact ⟨t', hclosed', ha, ht⟩

omit [Bare α] [Bare β] in
/-- The report of a unary expression. -/
theorem afterUnary (hhooks : hooks.IgnorePositions R) {e e' : Expression} (he : Twins e e') :
    (Procedure.afterUnary e).Imitates hooks options R view (.afterUnary e') := by
  refine ⟨fun {s t s' a tokens others} _ hrun _ hmirrors => ?_⟩
  obtain ⟨t', hrun', ht⟩ := (hhooks.afterUnary he).hook hmirrors (Observed.fst_ofResult _ ▸ hrun)
  exact .of_eq ((Observed.fst_ofResult _).trans hrun') ⟨.refl _, ht⟩

end Imitates

end Procedure

/-! ## Scripts and rules -/

section

variable {hooks : Hooks σ} {options : Options} {R : σ → σ → Prop}

/-- Orderly scripts imitate each other, if the rules that are called do. -/
theorem Script.Orderly.imitates [Bare α] (hhooks : hooks.IgnorePositions R) {place : Setting}
    {known : Known} {script script' : Script α} {after : α → Known}
    (h : script.Orderly place known script' after) {r r' : Routines}
    (hoptions : r.options = r'.options)
    (hfeeds : ∀ {β : Type} (callee : Recurring β), (r.call callee).FeedsOn .any fun _ => .any)
    (hcall : ∀ {β : Type} (callee : Recurring β),
      @Procedure.Imitates σ β hooks options R .any callee.bare (r.call callee) (r'.call callee)) :
    (script.plug r).Imitates hooks options R known.view (script'.plug r') := by
  induction h with
  | pure ha => exact .pure ha
  | raise d => exact .ofRaise _ _
  | options =>
    refine ⟨fun _ hrun _ hmirrors => ?_⟩
    cases hrun
    exact ⟨by rw [hoptions]; exact .refl _, hmirrors⟩
  | peek | next | newlineBefore | skip => exact .lex trivial
  | peekSecond hword => exact .lex hword
  | regExp hslash => exact .lex hslash
  | templateContinuation => exact .lex rfl
  | askAgain =>
    refine .bind (.lex trivial) Procedure.FeedsOn.peek.forget (fun _ => .pure rfl)
      fun seen seen' hseen => .pure ?_
    rw [hseen.eq]
    exact .refl _
  | peekStart =>
    refine ⟨fun {s t s' a tokens others} _ hrun hsights hmirrors => ?_⟩
    simp only [plug, Procedure.observe, Observed.fst_ofResult] at hrun ⊢
    obtain ⟨next, hlook, -⟩ := Parse.startPosition_eq_ok hrun
    obtain ⟨next', t', hlook', -, -, ht⟩ := hmirrors.looksTo hlook hsights
    refine .of_eq (a := next'.span.start) (t := t') ?_ ⟨.position _ _, ht⟩
    rw [Observed.fst_ofResult]
    exact hlook'.startPosition
  | lastEnd =>
    refine ⟨fun _ hrun _ hmirrors => ?_⟩
    cases hrun
    exact ⟨.position _ _, hmirrors⟩
  | context =>
    refine ⟨fun _ hrun _ hmirrors => ?_⟩
    cases hrun
    exact ⟨by rw [hmirrors.context]; exact .refl _, hmirrors⟩
  | beStrict =>
    refine ⟨fun _ hrun _ hmirrors => ?_⟩
    cases hrun
    exact ⟨.refl _, congrArg (fun context => { context with strict := true }) hmirrors.context,
      hmirrors.hooks, hmirrors.feeds⟩
  | declareMember _ hname kind start start' =>
    refine ⟨fun {s t s' a tokens others} _ hrun _ hmirrors => ?_⟩
    obtain ⟨t', hrun', ht⟩ := (hhooks.declareMember hname kind start start' options).askName
      hmirrors (Observed.fst_ofResult _ ▸ hrun)
    exact .of_eq ((Observed.fst_ofResult _).trans hrun') ⟨.refl _, ht⟩
  | referenceName _ hname =>
    refine ⟨fun {s t s' a tokens others} _ hrun _ hmirrors => ?_⟩
    obtain ⟨t', hrun', ht⟩ := (hhooks.referenceName hname options).askName
      hmirrors (Observed.fst_ofResult _ ▸ hrun)
    exact .of_eq ((Observed.fst_ofResult _).trans hrun') ⟨.refl _, ht⟩
  | afterAtom hatom next =>
    refine ⟨fun {s t s' a tokens others} _ hrun _ hmirrors => ?_⟩
    obtain ⟨t', hrun', ht⟩ :=
      (hhooks.afterAtom hatom next).hook hmirrors (Observed.fst_ofResult _ ▸ hrun)
    exact .of_eq ((Observed.fst_ofResult _).trans hrun') ⟨.refl _, ht⟩
  | @unaryRule _ _ after h ih =>
    have hreport (e : Expression) : (Procedure.bind (.afterUnary e) fun _ => .pure e).FeedsOn
        (after e).view fun a => (after a).view :=
      .bind (.afterUnary e) fun _ => .pure rfl
    refine .bind ih (h.feedsOn hfeeds) (fun e => (hreport e).forget) fun e e' he => ?_
    exact .bind (.afterUnary hhooks he) (Procedure.FeedsOn.afterUnary e).forget (fun _ => .pure rfl)
      fun _ _ _ => .pure he
  | call callee =>
    let _ := callee.bare
    exact (hcall callee).anywhere
  | bind hfirst hnext ihfirst ihnext =>
    exact .bind ihfirst (hfirst.feedsOn hfeeds)
      (fun b => ((hnext b b (.refl b)).feedsOn hfeeds).forget) ihnext
  | loop hround hstart ih =>
    exact .anywhere
      (.rounds (fun a => ((hround a a (.refl a)).feedsOn hfeeds).forget) ih _ _ hstart)
  | within region _ ih => exact .within region ih
  | arrow isAsync hbody ih =>
    exact .arrow isAsync (fun isBlock => (hbody isBlock).feedsOn hfeeds) ih
  | inClass _ ih =>
    refine ⟨fun {s t s' a tokens others} hsees hrun hsights hmirrors => ?_⟩
    exact ih.enclosed Parse.lexer_of_hook hhooks.exitClass.hook
      (hhooks.enterClass hmirrors.hooks) hsees hrun hsights hmirrors
  | inMethod _ hkey _ ih =>
    refine ⟨fun {s t s' a tokens others} hsees hrun hsights hmirrors => ?_⟩
    obtain ⟨hsaved, hinside⟩ := hhooks.enterMethod hkey hmirrors.hooks
    refine ih.enclosed (fun h => by cases h; rfl) (fun hmirrors hclosed => ?_) hinside hsees hrun
      hsights hmirrors
    cases hclosed
    rw [← hsaved]
    exact ⟨_, rfl, hmirrors.context, hhooks.exitMethod _ hmirrors.hooks, hmirrors.feeds⟩
  | weaken hknown _ _ ih => exact ⟨fun hsees => ih.imitates (hknown.sees hsees)⟩

/-- A rule that recurs imitates itself, in a grammar of whatever depth. -/
theorem Grammar.imitates_routines (hhooks : hooks.IgnorePositions R) (bound bound' depth depth' : Nat)
    (callee : Recurring α) :
    @Procedure.Imitates σ α hooks options R .any callee.bare
      ((routines options bound depth).call callee)
      ((routines options bound' depth').call callee) := by
  let _ := callee.bare
  induction depth generalizing α depth' with
  | zero => exact .ofExhaust _
  | succ depth ih =>
    cases depth' with
    | zero => exact .exhausted
    | succ depth' =>
      exact (callee.orderly_script false .nothing).imitates hhooks (by simp)
        (feedsOn_routines options bound depth) fun callee => ih depth' callee

end

end EcmaScript
