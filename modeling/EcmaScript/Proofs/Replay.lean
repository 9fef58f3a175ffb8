import EcmaScript.Proofs.Telling.Statement

/-!
Accounts decide what the private-name hooks accept.

Replaying an account makes its calls, one after the other, to the private-name hooks. A parse with
these hooks does what a permissive parse does until a call is refused; so it succeeds exactly if
the permissive parse does and the account of its calls, which is the account of the tree, can be
replayed.
-/

namespace EcmaScript

variable {α : Type} {options : Options}

/-- The call made to the private-name hooks; nothing if they refuse it. Behind the state of the
hooks stands what the open methods have saved, innermost first. -/
def Call.replay (options : Options) (call : Call) (s : PrivateNames × List Bool) :
    Option (PrivateNames × List Bool) :=
  match call with
  | .enterClass => some ({ s.1 with scopes := s.1.scopes.push }, s.2)
  | .exitClass =>
    match PrivateNames.exitClass s.1 with
    | .ok _ names => some (names, s.2)
    | .error _ _ => none
  | .declare name kind start =>
    match PrivateNames.declareMember name kind start options s.1 with
    | .ok true names => some (names, s.2)
    | _ => none
  | .enterMethod key =>
    some ({ s.1 with inPrivateMethod := key.isPrivate }, s.1.inPrivateMethod :: s.2)
  | .exitMethod =>
    match s.2 with
    | saved :: others => some ({ s.1 with inPrivateMethod := saved }, others)
    | [] => none
  | .reference name =>
    match PrivateNames.referenceName name options s.1 with
    | .ok true names => some (names, s.2)
    | _ => none
  | .superCall => if s.1.inPrivateMethod then none else some s

namespace Account

/-- All calls of the account, one after the other; a deletion is refused. -/
def replay (options : Options) (account : Account) (s : PrivateNames × List Bool) :
    Option (PrivateNames × List Bool) :=
  if account.deletes then none
  else account.calls.foldlM (fun s call => call.replay options s) s

@[simp] theorem replay_zero (s : PrivateNames × List Bool) :
    (0 : Account).replay options s = some s := rfl

@[simp] theorem replay_ofCall (call : Call) (s : PrivateNames × List Bool) :
    (ofCall call).replay options s = call.replay options s := by
  simp [replay, ofCall]

@[simp] theorem replay_deletion (s : PrivateNames × List Bool) :
    deletion.replay options s = none := rfl

theorem replay_add (a b : Account) (s : PrivateNames × List Bool) :
    (a + b).replay options s = (a.replay options s).bind (b.replay options) := by
  unfold replay
  cases ha : a.deletes with
  | true => simp [ha]
  | false =>
    cases hb : b.deletes with
    | true => simp [ha, hb]
    | false => simp [ha, hb, List.foldlM_append]

end Account

/-- The account of what a run shows. -/
def tally (events : List Event) : Account := (events.map Event.tally).sum

@[simp] theorem tally_nil : tally [] = 0 := rfl

@[simp] theorem tally_cons (event : Event) (events : List Event) :
    tally (event :: events) = event.tally + tally events := by
  simp [tally]

@[simp] theorem tally_append (events others : List Event) :
    tally (events ++ others) = tally events + tally others := by
  simp [tally]

/-- What the private-name hooks make of a permissive run, from the state `names`: the same as long
as its account can be replayed, an error otherwise. -/
inductive Follows (options : Options) (names : PrivateNames) (saved : List Bool) :
    Observed Unit α → EStateM.Result Failure (ParserState PrivateNames) α → Prop where
  | ok {a : α} {s : ParserState Unit} {events : List Event} {names' : PrivateNames}
      (accepted : (tally events).replay options (names, saved) = some (names', saved)) :
      Follows options names saved (.ok a s, events) (.ok a ⟨s.lexer, s.context, names'⟩)
  | refused {a : α} {s : ParserState Unit} {events : List Event} {e : Failure}
      {t : ParserState PrivateNames}
      (refused : (tally events).replay options (names, saved) = none) :
      Follows options names saved (.ok a s, events) (.error e t)
  | error {e e' : Failure} {s : ParserState Unit} {events : List Event}
      {t : ParserState PrivateNames} :
      Follows options names saved (.error e s, events) (.error e' t)

namespace Follows

variable {names : PrivateNames} {saved : List Bool}

theorem bothFailed {o : Observed Unit α} {r : EStateM.Result Failure (ParserState PrivateNames) α}
    (h : ∃ e s, o.1 = .error e s) (h' : ∃ e s, r = .error e s) :
    Follows options names saved o r := by
  obtain ⟨result, events⟩ := o
  obtain ⟨e, s, rfl⟩ := h
  obtain ⟨e', t, rfl⟩ := h'
  exact .error

theorem leaving {o : Observed Unit α} {o' : Observed PrivateNames α} (region : Region)
    (before : Context) (h : Follows options names saved o o'.1) :
    Follows options names saved (o.leaving region before) (o'.leaving region before).1 := by
  obtain ⟨r, events⟩ := o
  obtain ⟨r', events'⟩ := o'
  cases h with
  | @ok a s _ names' accepted =>
    simp only [Observed.leaving, Observed.closedBy, Parse.leaving]
    cases region.leave before s.context with
    | some context => exact .ok (by simpa using accepted)
    | none => exact .error
  | @refused a s _ e t refused =>
    obtain ⟨e', t', hfailed⟩ : ∃ e' t',
        (Observed.leaving region before (.error e t, events')).1 = .error e' t' :=
      Observed.failed_closedBy ⟨e, t, rfl⟩
    rw [hfailed]
    simp only [Observed.leaving, Observed.closedBy, Parse.leaving]
    cases region.leave before s.context with
    | some context => exact .refused (by simpa using refused)
    | none => exact .error
  | error =>
    refine bothFailed (Observed.failed_closedBy ?_) (Observed.failed_closedBy ?_)
    · exact ⟨_, _, rfl⟩
    · exact ⟨_, _, rfl⟩

/-- A question about a private name that the permissive hooks accept. -/
theorem askName {s : ParserState Unit} {event : Event} {name : PrivateName}
    {question : Hook PrivateNames Bool}
    (htally : event.tally.replay options (names, saved) =
      match question names with
      | .ok true names' => some (names', saved)
      | _ => none) :
    Follows options names saved
      ((Observed.ofResult (Procedure.askName (pure true) name s)).behind event)
      (Observed.ofResult (Procedure.askName question name ⟨s.lexer, s.context, names⟩)).1 := by
  change Follows options names saved (.ok () s, [event]) _
  rw [← add_zero event.tally, ← tally_nil, ← tally_cons] at htally
  simp only [Procedure.askName, Bind.bind, EStateM.bind, Parse.hook]
  cases hquestion : question names with
  | ok accepted names' =>
    rw [hquestion] at htally
    cases accepted with
    | true => exact .ok htally
    | false => exact .refused htally
  | error d names' =>
    rw [hquestion] at htally
    exact .refused htally

/-- A hook without an answer that the permissive hooks let pass. -/
theorem hook {s : ParserState Unit} {event : Event} {action : Hook PrivateNames Unit}
    (htally : event.tally.replay options (names, saved) =
      match action names with
      | .ok _ names' => some (names', saved)
      | .error _ _ => none) :
    Follows options names saved
      ((Observed.ofResult (Parse.hook (pure ()) s)).behind event)
      (Observed.ofResult (Parse.hook action ⟨s.lexer, s.context, names⟩)).1 := by
  change Follows options names saved (.ok () s, [event]) _
  rw [← add_zero event.tally, ← tally_nil, ← tally_cons] at htally
  simp only [Parse.hook]
  cases haction : action names with
  | ok u names' =>
    rw [haction] at htally
    exact .ok htally
  | error d names' =>
    rw [haction] at htally
    exact .refused htally

theorem andThen {β : Type} {o : Observed Unit β} {o' : Observed PrivateNames β}
    {next : β → ParserState Unit → Observed Unit α}
    {next' : β → ParserState PrivateNames → Observed PrivateNames α}
    (h : Follows options names saved o o'.1)
    (hnext : ∀ b s names', Follows options names' saved (next b s)
      (next' b ⟨s.lexer, s.context, names'⟩).1) :
    Follows options names saved (o.andThen next) (o'.andThen next').1 := by
  obtain ⟨r, events⟩ := o
  obtain ⟨r', events'⟩ := o'
  cases h with
  | @ok b s _ names' accepted =>
    have hrest := hnext b s names'
    simp only [Observed.andThen]
    generalize next b s = p at hrest ⊢
    generalize (next' b ⟨s.lexer, s.context, names'⟩).1 = r' at hrest ⊢
    cases hrest with
    | ok accepted' => exact .ok (by simpa [Account.replay_add, accepted] using accepted')
    | refused refused => exact .refused (by simpa [Account.replay_add, accepted] using refused)
    | error => exact .error
  | @refused b s _ _ _ refused =>
    simp only [Observed.andThen]
    generalize next b s = p
    obtain ⟨result, events'⟩ := p
    cases result with
    | ok a s' => exact .refused (by simp [Account.replay_add, refused])
    | error e s' => exact .error
  | error => exact .error

/-- Brackets around a body: the opening is accepted, the closing may be refused. -/
theorem enclosed {o : Observed Unit α} {o' : Observed PrivateNames α} {close : Parse Unit Unit}
    {close' : Parse PrivateNames Unit} {opened opened' closed : Event}
    {closed' : ParserState PrivateNames → Event}
    {inside : PrivateNames} {savedInside : List Bool}
    (hopened : opened.tally.replay options (names, saved) = some (inside, savedInside))
    (hclose : ∀ s, close s = .ok () s) (h : Follows options inside savedInside o o'.1)
    (hclosed : ∀ (s : ParserState Unit) names',
      (∃ names'', closed.tally.replay options (names', savedInside) = some (names'', saved) ∧
        close' ⟨s.lexer, s.context, names'⟩ = .ok () ⟨s.lexer, s.context, names''⟩) ∨
      (closed.tally.replay options (names', savedInside) = none ∧
        ∃ e t, close' ⟨s.lexer, s.context, names'⟩ = .error e t)) :
    Follows options names saved ((o.closedBy close fun _ => closed).behind opened)
      ((o'.closedBy close' closed').behind opened').1 := by
  obtain ⟨r, events⟩ := o
  obtain ⟨r', events'⟩ := o'
  have htally : tally (opened :: (events ++ [closed])) =
      opened.tally + (tally events + closed.tally) := by
    rw [tally_cons, tally_append, tally_cons, tally_nil, add_zero]
  have hreplay : (tally (opened :: (events ++ [closed]))).replay options (names, saved) =
      ((tally events).replay options (inside, savedInside)).bind
        (closed.tally.replay options) := by
    rw [htally, Account.replay_add, hopened, Option.bind_some, Account.replay_add]
  cases h with
  | @ok a s _ names' accepted =>
    simp only [Observed.closedBy, Observed.behind, hclose]
    rw [accepted, Option.bind_some] at hreplay
    rcases hclosed s names' with ⟨names'', hlast, hok⟩ | ⟨hlast, e, t, herror⟩
    · rw [hok]
      exact .ok (hreplay.trans hlast)
    · rw [herror]
      exact .refused (hreplay.trans hlast)
  | @refused a s _ e t refused =>
    obtain ⟨e', t', hfailed⟩ : ∃ e' t',
        ((Observed.closedBy close' closed' (.error e t, events')).behind opened').1 =
          .error e' t' := Observed.failed_closedBy ⟨e, t, rfl⟩
    rw [hfailed]
    simp only [Observed.closedBy, Observed.behind, hclose]
    rw [refused, Option.bind_none] at hreplay
    exact .refused hreplay
  | error =>
    refine bothFailed (Observed.failed_closedBy ?_) (Observed.failed_closedBy ?_)
    · exact ⟨_, _, rfl⟩
    · exact ⟨_, _, rfl⟩

end Follows

theorem Procedure.follows (procedure : Procedure α) (s : ParserState Unit)
    (names : PrivateNames) (saved : List Bool) :
    Follows options names saved (procedure.observe .permissive options s)
      (procedure.observe .privateNames options ⟨s.lexer, s.context, names⟩).1 := by
  induction procedure generalizing s names saved with
  | pure a => exact .ok rfl
  | bind first next ihfirst ihnext =>
    exact (ihfirst s names saved).andThen fun b s' names' => ihnext b s' names' saved
  | raise d => exact .error
  | exhaust => exact .error
  | lex step =>
    simp only [Procedure.observe, Parse.lexing]
    cases step.run s.lexer with
    | ok a lexer => exact .ok rfl
    | error e lexer => exact .error
  | context => exact .ok rfl
  | beStrict => exact .ok rfl
  | within region body ih =>
    exact (ih ⟨s.lexer, region.enter s.context, ()⟩ names saved).leaving region s.context
  | arrow isAsync body ih =>
    simp only [Procedure.observe, Parse.nextIs_eq]
    cases Lexing.peek s.lexer with
    | ok token lexer =>
      exact (ih _ ⟨lexer, Grammar.enterArrow isAsync s.context, ()⟩ names saved).leaving
        (.arrow isAsync) s.context
    | error e lexer => exact .error
  | declareMember name kind start => exact .askName (Account.replay_ofCall _ _)
  | referenceName name => exact .askName (Account.replay_ofCall _ _)
  | afterUnary e =>
    refine .hook ?_
    simp only [Hooks.privateNames, PrivateNames.afterUnary_eq, Event.tally]
    cases e.isPrivateDelete <;> rfl
  | afterAtom atom next =>
    refine .hook ?_
    simp only [Hooks.privateNames, PrivateNames.afterAtom_eq, Event.tally]
    cases atom.isSuper <;> cases hflag : names.inPrivateMethod <;>
      cases next == .punctuator .lParen <;> simp [Call.replay, hflag]
  | inClass body ih =>
    refine .enclosed (Account.replay_ofCall _ _) (fun _ => rfl) (ih s _ saved) fun s' names' => ?_
    rw [Event.tally, Account.replay_ofCall]
    simp only [Call.replay, Parse.hook, Hooks.privateNames]
    cases PrivateNames.exitClass names' with
    | ok u names'' => exact .inl ⟨names'', rfl, rfl⟩
    | error d names'' => exact .inr ⟨rfl, _, _, rfl⟩
  | inMethod key body ih =>
    refine .enclosed (Account.replay_ofCall _ _) (fun _ => rfl)
      (ih s _ (names.inPrivateMethod :: saved)) fun s' names' => .inl ?_
    exact ⟨_, Account.replay_ofCall _ _, rfl⟩

/-- The private-name hooks accept a source exactly if the permissive ones do and the account of the
tree can be replayed. -/
theorem parse_eq_ok_iff {source : String} {p : Program} :
    parse source options = .ok p ↔
      parseWith source options .permissive () = .ok p ∧
        ((Node.program p).account.replay options ({}, [])).isSome = true := by
  have hfollows : Follows options {} [] (Parser.ofSource source options .permissive ()).run
      (Parser.ofSource source options .privateNames {}).run.1 :=
    (Grammar.programProcedure options source.toList.length).follows
      ⟨.ofSource source [TokenRule.privateName], { strict := options.goal == .module }, ()⟩ {} []
  have htally := @Parser.tally_run (.ofSource source options .permissive ()) rfl p
  unfold parse parseWith
  rw [Parser.parse_eq_run] at htally ⊢
  rw [Parser.parse_eq_run]
  generalize (Parser.ofSource source options .permissive ()).run = o at hfollows htally ⊢
  generalize (Parser.ofSource source options .privateNames {}).run.1 = r at hfollows ⊢
  cases hfollows with
  | ok accepted =>
    constructor
    · intro h
      cases h
      refine ⟨rfl, ?_⟩
      rw [← htally rfl, ← tally, accepted]
      rfl
    · exact fun h => h.1
  | refused refused =>
    constructor
    · intro h
      cases h
    · rintro ⟨h, haccepted⟩
      cases h
      rw [← htally rfl, ← tally, refused] at haccepted
      cases haccepted
  | error =>
    constructor
    · intro h
      cases h
    · rintro ⟨h, -⟩
      cases h

end EcmaScript
