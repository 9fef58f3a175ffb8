import EcmaScript.Proofs.PrivateNames
import EcmaScript.Proofs.Termination

/-!
Hook calls come in brackets.

The calls of `enterClass` and `enterMethod` open brackets, and the calls of `exitClass` and
`exitMethod` close them. Whatever the hooks answer and wherever a parse fails, the calls are
properly nested, every `exitMethod` is given what its `enterMethod` returned, and behind the first
failure only the calls that close the open brackets follow. A parse fails with its first failure.

A parse that is broken off, because a counter would have to be taken below zero, leaves brackets
open. Behind an error of the source it may already have closed some of them, innermost first.

The scopes of private names follow the brackets of classes, and the flag for private methods those
of methods. So a parse with these hooks that is not broken off ends without a scope and without
the flag, whatever state it began in.
-/

namespace EcmaScript

variable {σ α : Type}

/-- A bracket that a call has opened. -/
inductive Bracket where
  | classBody
  /-- A method, with the answer of `enterMethod`. -/
  | method (answer : Bool)
deriving DecidableEq

def Bracket.close : Bracket → Event
  | .classBody => .exitClass
  | .method answer => .exitMethod answer

/-- The brackets that are open behind the event, innermost first. There are none if the event
closes anything but the innermost bracket. -/
def Event.brackets : Event → List Bracket → Option (List Bracket)
  | .enterClass, opened => some (.classBody :: opened)
  | .enterMethod _ answer, opened => some (.method answer :: opened)
  | .exitClass, .classBody :: opened => some opened
  | .exitClass, _ => none
  | .exitMethod given, .method answer :: opened => if given = answer then some opened else none
  | .exitMethod _, _ => none
  | _, opened => some opened

def openAfter : List Event → List Bracket → Option (List Bracket)
  | [], opened => some opened
  | event :: events, opened => (event.brackets opened).bind (openAfter events)

/-- The events begin without a failure and then fail with `failure`, behind which only the open
brackets are closed, innermost first. -/
def FailsClosing (failure : Failure) (events : List Event) : Prop :=
  ∃ before opened after, events = before ++ .raised failure :: after ∧
    (∀ earlier, .raised earlier ∉ before) ∧
    (∀ outer, openAfter before outer = some (opened ++ outer)) ∧
    after.filter Event.isCall = opened.map Bracket.close

/-- The events end with `failure`, with which the brackets `left` stay open. If it is not the first
failure, that one is an error of the source, behind which the brackets inside have been closed. -/
def BreaksOff (failure : Failure) (events : List Event) : Prop :=
  ∃ before opened left after, events = before ++ after ++ [.raised failure] ∧
    (∀ earlier, .raised earlier ∉ before) ∧
    (∀ outer, openAfter before outer = some (opened ++ left ++ outer)) ∧
    (after = [] ∨ ∃ d late, after = .raised (.error d) :: late) ∧
    after.filter Event.isCall = opened.map Bracket.close

/-- The events hold no failure if the outcome is a value. If it is an error of the source, it is
their first failure and only closes brackets; in both cases they are properly nested. Any other
outcome breaks them off. -/
structure Bracketed (outcome : Except Failure α) (events : List Event) : Prop where
  nested : Completed outcome → ∀ opened, openAfter events opened = some opened
  succeeds : ∀ a, outcome = .ok a → ∀ failure, .raised failure ∉ events
  fails : ∀ d, outcome = .error (.error d) → FailsClosing (.error d) events
  breaks : ∀ e, outcome = .error e → ¬Completed outcome → BreaksOff e events

theorem openAfter_append (events more : List Event) (opened : List Bracket) :
    openAfter (events ++ more) opened = (openAfter events opened).bind (openAfter more) := by
  induction events generalizing opened with
  | nil => rfl
  | cons event events ih =>
    simp only [List.cons_append, openAfter, Option.bind_assoc]
    congr
    funext opened
    exact ih opened

/-! ## What one step preserves -/

namespace Bracketed

/-- Events without brackets and failures, where a run succeeds. -/
theorem quiet (a : α) {events : List Event}
    (hbrackets : ∀ opened, openAfter events opened = some opened)
    (hraised : ∀ failure, .raised failure ∉ events) :
    Bracketed (.ok a) events where
  nested _ := hbrackets
  succeeds _ _ := hraised
  fails := by rintro _ ⟨⟩
  breaks := by rintro _ ⟨⟩

/-- Events without brackets, where a run fails. -/
theorem failed (failure : Failure) (events : List Event)
    (hbrackets : ∀ opened, openAfter events opened = some opened)
    (hraised : ∀ earlier, .raised earlier ∉ events) :
    Bracketed (.error failure : Except Failure α) (events ++ [.raised failure]) where
  nested _ opened := by
    rw [openAfter_append, hbrackets]
    rfl
  succeeds := by rintro _ ⟨⟩
  fails d h := by
    cases h
    exact ⟨events, [], [], rfl, hraised, hbrackets, rfl⟩
  breaks e h _ := by
    cases h
    exact ⟨events, [], [], [], by simp, hraised, hbrackets, .inl rfl, rfl⟩

theorem ofResult (r : EStateM.Result Failure (ParserState σ) α) :
    Bracketed (Observed.ofResult r).outcome (Observed.ofResult r).2 := by
  cases r with
  | ok a s => exact .quiet a (fun _ => rfl) (by simp [Observed.ofResult])
  | error e s => exact .failed e [] (fun _ => rfl) (by simp)

/-- A call that opens and closes nothing. -/
theorem ofCall (r : EStateM.Result Failure (ParserState σ) α) {event : Event}
    (hbrackets : ∀ opened, event.brackets opened = some opened)
    (hraised : ∀ failure, event ≠ .raised failure) :
    Bracketed ((Observed.ofResult r).behind event).outcome
      ((Observed.ofResult r).behind event).2 := by
  have hsingle : ∀ opened, openAfter [event] opened = some opened := by
    intro opened
    simp [openAfter, hbrackets]
  have hclean : ∀ failure, .raised failure ∉ [event] := by
    intro failure hmem
    exact hraised failure (List.mem_singleton.mp hmem).symm
  cases r with
  | ok a s => exact .quiet a hsingle hclean
  | error e s => exact .failed e [event] hsingle hclean

/-- Events in front of which a run has already succeeded. -/
theorem after {outcome : Except Failure α} {β : Type} {b : β} {first events : List Event}
    (hfirst : Bracketed (.ok b : Except Failure β) first) (h : Bracketed outcome events) :
    Bracketed outcome (first ++ events) := by
  have hnested := hfirst.nested (.ok b)
  have hclean {before : List Event} (h : ∀ earlier, .raised earlier ∉ before)
      (earlier : Failure) : .raised earlier ∉ first ++ before := by
    rw [List.mem_append, not_or]
    exact ⟨hfirst.succeeds b rfl earlier, h earlier⟩
  refine ⟨fun hdone opened => ?_, fun a ha => hclean (h.succeeds a ha), fun d hd => ?_,
    fun e he hbroken => ?_⟩
  · rw [openAfter_append, hnested]
    exact h.nested hdone opened
  · obtain ⟨before, opened, after, rfl, hbefore, hopened, hclose⟩ := h.fails d hd
    refine ⟨first ++ before, opened, after, by simp, hclean hbefore, fun outer => ?_, hclose⟩
    rw [openAfter_append, hnested]
    exact hopened outer
  · obtain ⟨before, opened, left, after, rfl, hbefore, hopened, hlate, hclose⟩ :=
      h.breaks e he hbroken
    refine ⟨first ++ before, opened, left, after, by simp, hclean hbefore, fun outer => ?_, hlate,
      hclose⟩
    rw [openAfter_append, hnested]
    exact hopened outer

/-- The way out of a region behind a run that has not been broken off. -/
theorem withLast {outcome : Except Failure α} {events : List Event} (region : Region)
    (now : Context) (hdone : Completed outcome) (h : Bracketed outcome events) :
    Bracketed outcome (events ++ [.left region now]) where
  nested _ opened := by
    rw [openAfter_append, h.nested hdone]
    rfl
  succeeds a ha failure hmem := by
    rw [List.mem_append, List.mem_singleton] at hmem
    rcases hmem with hmem | hmem
    · exact h.succeeds a ha failure hmem
    · cases hmem
  fails d hd := by
    obtain ⟨before, opened, after, rfl, hclean, hopened, hclose⟩ := h.fails d hd
    exact ⟨before, opened, after ++ [.left region now], by simp, hclean, hopened,
      by simpa using hclose⟩
  breaks _ _ hbroken := absurd hdone hbroken

/-- A region without a way out, behind an error of the source. -/
theorem brokenOff {d : Diagnostic} {failure : Failure} {events : List Event} (region : Region)
    (now : Context) (hbroken : ¬Completed (.error failure : Except Failure α))
    (h : Bracketed (.error (.error d) : Except Failure α) events) :
    Bracketed (.error failure : Except Failure α)
      (events ++ [.left region now, .raised failure]) where
  nested hdone := absurd hdone hbroken
  succeeds := by rintro _ ⟨⟩
  fails d' hd := absurd (hd ▸ .error d') hbroken
  breaks e he _ := by
    cases he
    obtain ⟨before, opened, after, rfl, hclean, hopened, hclose⟩ := h.fails d rfl
    exact ⟨before, opened, [], .raised (.error d) :: after ++ [.left region now], by simp, hclean,
      by simpa using hopened, .inr ⟨d, _, rfl⟩, by simpa using hclose⟩

/-- The events between an opening call and its closing one are properly nested. -/
theorem nested_enclosed {events : List Event} {start : Event} {bracket : Bracket}
    (hstart : ∀ opened, start.brackets opened = some (bracket :: opened))
    (h : ∀ opened, openAfter events opened = some opened) (opened : List Bracket) :
    openAfter (start :: events ++ [bracket.close]) opened = some opened := by
  rw [List.cons_append, openAfter, hstart, Option.bind_some, openAfter_append, h]
  cases bracket <;> simp [openAfter, Bracket.close, Event.brackets]

theorem not_raised_cons {events : List Event} {start : Event} {bracket : Bracket}
    (hstart : ∀ opened, start.brackets opened = some (bracket :: opened))
    (hclean : ∀ failure, .raised failure ∉ events) (failure : Failure) :
    .raised failure ∉ start :: events := by
  rw [List.mem_cons, not_or]
  refine ⟨?_, hclean failure⟩
  rintro rfl
  have hopened := hstart []
  simp [Event.brackets] at hopened

/-- An error between an opening call and its closing one, which closes one bracket more. -/
theorem failed_enclosed {d : Diagnostic} {events late : List Event} {start : Event}
    {bracket : Bracket} (hstart : ∀ opened, start.brackets opened = some (bracket :: opened))
    (hlate : late.filter Event.isCall = [bracket.close])
    (hnested : ∀ opened, openAfter (start :: events ++ late) opened = some opened)
    (h : Bracketed (.error (.error d) : Except Failure α) events) :
    Bracketed (.error (.error d) : Except Failure α) (start :: events ++ late) where
  nested _ := hnested
  succeeds := by rintro _ ⟨⟩
  fails d' hd := by
    cases hd
    obtain ⟨before, opened, after, rfl, hclean, hopened, hclose⟩ := h.fails d rfl
    refine ⟨start :: before, opened ++ [bracket], after ++ late, by simp,
      not_raised_cons hstart hclean, fun outer => ?_, ?_⟩
    · rw [openAfter, hstart, Option.bind_some, hopened]
      simp
    · rw [List.filter_append, hclose, hlate]
      simp
  breaks _ _ hbroken := absurd (.error d) hbroken

/-- An opening call in front of a run that is broken off, behind which it stays open. -/
theorem brokenOff_enclosed {failure : Failure} {events : List Event} {start : Event}
    {bracket : Bracket} (hstart : ∀ opened, start.brackets opened = some (bracket :: opened))
    (hbroken : ¬Completed (.error failure : Except Failure α))
    (h : Bracketed (.error failure : Except Failure α) events) :
    Bracketed (.error failure : Except Failure α) (start :: events) where
  nested hdone := absurd hdone hbroken
  succeeds := by rintro _ ⟨⟩
  fails d hd := absurd (hd ▸ .error d) hbroken
  breaks e he _ := by
    cases he
    obtain ⟨before, opened, left, after, rfl, hclean, hopened, hlate, hclose⟩ :=
      h.breaks failure rfl hbroken
    refine ⟨start :: before, opened, left ++ [bracket], after, by simp,
      not_raised_cons hstart hclean, fun outer => ?_, hlate, hclose⟩
    rw [openAfter, hstart, Option.bind_some, hopened]
    simp

end Bracketed

namespace Observed

/-- The run satisfies the rules for brackets. -/
def WellBracketed (o : Observed σ α) : Prop := Bracketed o.outcome o.2

theorem WellBracketed.andThen {β : Type} {o : Observed σ β}
    {next : β → ParserState σ → Observed σ α} (h : o.WellBracketed)
    (hnext : ∀ b s, (next b s).WellBracketed) : (o.andThen next).WellBracketed := by
  obtain ⟨result, events⟩ := o
  cases result with
  | ok b s => exact .after h (hnext b s)
  | error e s =>
    have hcompleted : Completed (.error e : Except Failure α) →
        Completed (.error e : Except Failure β) :=
      fun hdone e' he => hdone e' (congrArg _ (Except.error.inj he))
    have hcompleted' : Completed (.error e : Except Failure β) →
        Completed (.error e : Except Failure α) :=
      fun hdone e' he => hdone e' (congrArg _ (Except.error.inj he))
    refine ⟨fun hdone => h.nested (hcompleted hdone), by rintro _ ⟨⟩, fun d hd => ?_,
      fun e' he hbroken => ?_⟩
    · cases hd
      exact h.fails d rfl
    · cases he
      exact h.breaks e rfl (mt hcompleted' hbroken)

theorem WellBracketed.leaving {o : Observed σ α} (region : Region) (before : Context)
    (h : o.WellBracketed) : (o.leaving region before).WellBracketed := by
  obtain ⟨result, events⟩ := o
  rcases result with ⟨a, s⟩ | ⟨d | _ | _, s⟩
  · have hlast := h.withLast region s.context (.ok a)
    simp only [Observed.leaving, closedBy, Parse.leaving]
    cases region.leave before s.context with
    | some context => exact hlast
    | none =>
      have hfailed := @Bracketed.failed α .overrun _ (hlast.nested (.ok a)) (hlast.succeeds a rfl)
      rwa [List.append_assoc] at hfailed
  · simp only [Observed.leaving, closedBy, Parse.leaving]
    cases region.leave before s.context with
    | some context => exact h.withLast region s.context (.error d)
    | none => exact h.brokenOff region s.context not_completed_overrun
  · exact h
  · exact h

/-- Brackets around a run. The closing call is made unless the run is broken off, and may itself
fail with an error of the source. -/
theorem WellBracketed.enclosed {o : Observed σ α} {close : Parse σ Unit} {start : Event}
    (bracket : Bracket) (hstart : ∀ opened, start.brackets opened = some (bracket :: opened))
    (hclose : ∀ e s s', close s = .error e s' → ∃ d, e = .error d) (h : o.WellBracketed) :
    ((o.closedBy close fun _ => bracket.close).behind start).WellBracketed := by
  obtain ⟨result, events⟩ := o
  have hcalls : bracket.close.isCall = true := by cases bracket <;> rfl
  rcases result with ⟨a, s⟩ | ⟨d | _ | _, s⟩
  · have hnested := Bracketed.nested_enclosed hstart (h.nested (.ok a))
    have hclean (failure : Failure) : .raised failure ∉ start :: events ++ [bracket.close] := by
      rw [List.mem_append, not_or]
      refine ⟨Bracketed.not_raised_cons hstart (h.succeeds a rfl) failure, ?_⟩
      cases bracket <;> simp [Bracket.close]
    simp only [closedBy]
    cases close s with
    | ok _ s => exact .quiet a hnested hclean
    | error e s =>
      have hfailed := @Bracketed.failed α e _ hnested hclean
      rwa [List.append_assoc] at hfailed
  · have hnested := Bracketed.nested_enclosed hstart (h.nested (.error d))
    simp only [closedBy]
    cases hend : close s with
    | ok _ s => exact h.failed_enclosed hstart (by simp [hcalls]) hnested
    | error e s' =>
      obtain ⟨late, rfl⟩ := hclose e s s' hend
      refine h.failed_enclosed hstart (by simp [hcalls]) fun opened => ?_
      have hmore :=
        openAfter_append (start :: events ++ [bracket.close]) [.raised (.error late)] opened
      rw [hnested, List.append_assoc] at hmore
      exact hmore
  · exact h.brokenOff_enclosed hstart not_completed_overrun
  · exact h.brokenOff_enclosed hstart not_completed_exhausted

end Observed

/-! ## What a whole run preserves -/

/-- Every run of every procedure satisfies the rules for brackets. -/
theorem Procedure.wellBracketed (hooks : Hooks σ) (options : Options) (procedure : Procedure α)
    (s : ParserState σ) : (procedure.observe hooks options s).WellBracketed := by
  induction procedure generalizing s with
  | pure a => exact .quiet a (fun _ => rfl) (by simp [Procedure.observe])
  | bind first next ihfirst ihnext => exact (ihfirst s).andThen ihnext
  | raise d => exact .failed (.error d) [] (fun _ => rfl) (by simp)
  | exhaust => exact .failed .exhausted [] (fun _ => rfl) (by simp)
  | lex step => exact .ofResult _
  | context => exact .quiet s.context (fun _ => rfl) (by simp [Procedure.observe])
  | beStrict => exact .quiet () (fun _ => rfl) (by simp [Procedure.observe])
  | within region body ih => exact (ih _).leaving region s.context
  | arrow isAsync body ih =>
    simp only [Procedure.observe]
    cases Parse.nextIs .lBrace { s with context := Grammar.enterArrow isAsync s.context } with
    | ok isBlock inside => exact (ih isBlock inside).leaving (.arrow isAsync) s.context
    | error e inside =>
      exact .failed e [.stranded s.context] (fun _ => rfl) (by simp)
  | declareMember name kind start => exact .ofCall _ (fun _ => rfl) (by simp)
  | referenceName name => exact .ofCall _ (fun _ => rfl) (by simp)
  | afterUnary e => exact .ofCall _ (fun _ => rfl) (by simp)
  | afterAtom atom next => exact .ofCall _ (fun _ => rfl) (by simp)
  | inClass body ih =>
    exact .enclosed .classBody (fun _ => rfl) (fun _ _ _ => Parse.error_of_hook) (ih _)
  | inMethod key body ih =>
    exact .enclosed (.method (hooks.enterMethod key s.hooks).1) (fun _ => rfl)
      (by rintro _ _ _ ⟨⟩) (ih _)

/-! ## Private names -/

namespace PrivateNames

/-- The states have equally many scopes and the same flag for private methods. -/
structure Level (s t : PrivateNames) : Prop where
  depth : t.depth = s.depth
  inPrivateMethod : t.inPrivateMethod = s.inPrivateMethod

theorem Level.refl (s : PrivateNames) : Level s s := ⟨rfl, rfl⟩

theorem Level.trans {s t u : PrivateNames} (h : Level s t) (h' : Level t u) : Level s u :=
  ⟨h'.depth.trans h.depth, h'.inPrivateMethod.trans h.inPrivateMethod⟩

/-- A declaration, also a refused one, opens and closes no scope. -/
theorem depth_declare (name : String) (kind : MemberKind) (s : ClassScopes) :
    (finalState (ClassScopes.declare name kind s)).depth = s.depth := by
  unfold ClassScopes.declare
  cases hscopes : s.scopes with
  | nil => rfl
  | cons scope outer =>
    cases hdeclared : scope.declared? name kind with
    | some binding => simp [finalState, ClassScopes.depth, hscopes, hdeclared]
    | none => simp [finalState, hdeclared]

theorem depth_reference (name : String) (position : Position) (s : ClassScopes) :
    (s.reference name position).2.depth = s.depth := by
  unfold ClassScopes.reference
  split
  · rfl
  · split
    · rfl
    · next scope outer hscopes => simp [ClassScopes.depth, hscopes]

theorem level_declareMember (name : PrivateName) (kind : MemberKind) (start : Position)
    (options : Options) (s : PrivateNames) :
    Level s (finalState (declareMember name kind start options s)) := by
  rw [declareMember_eq]
  split
  · exact .refl s
  · split
    · exact .refl s
    · split
      · exact .refl s
      · have hdepth := depth_declare name.name kind s.scopes
        split
        · next hdeclare => rw [hdeclare] at hdepth; exact ⟨hdepth, rfl⟩
        · next hdeclare => rw [hdeclare] at hdepth; exact ⟨hdepth, rfl⟩

theorem level_referenceName (name : PrivateName) (options : Options) (s : PrivateNames) :
    Level s (finalState (referenceName name options s)) := by
  rw [referenceName_eq]
  split
  · exact .refl s
  · split
    · exact .refl s
    · exact ⟨depth_reference name.name name.span.start s.scopes, rfl⟩

theorem level_afterUnary (e : Expression) (s : PrivateNames) :
    Level s (finalState (afterUnary e s)) := by
  rw [afterUnary_eq]
  split <;> exact .refl s

theorem level_afterAtom (atom : Expression) (next : Token) (s : PrivateNames) :
    Level s (finalState (afterAtom atom next s)) := by
  rw [afterAtom_eq]
  split <;> exact .refl s

/-- Closing the innermost scope, with or without an error, leaves one scope less. -/
theorem depth_pop (s : ClassScopes) : (finalState (ClassScopes.pop s)).depth = s.depth - 1 := by
  unfold ClassScopes.pop
  rcases hscopes : s.scopes with _ | ⟨inner, _ | ⟨outer, others⟩⟩
  · simp [finalState, ClassScopes.depth, hscopes]
  · cases hearliest : ClassScope.earliest? (inner.pending.map (·.2)) <;>
      simp [finalState, ClassScopes.depth, hscopes, hearliest]
  · simp [finalState, ClassScopes.depth, hscopes]

/-- At the end of a class the scopes are as many as in front of it. -/
theorem level_exitClass {s t : PrivateNames} (h : Level { s with scopes := s.scopes.push } t) :
    Level s (finalState (exitClass t)) := by
  have hdepth : t.scopes.depth = s.scopes.depth + 1 := h.depth
  have hpop := depth_pop t.scopes
  rw [hdepth, Nat.add_sub_cancel] at hpop
  unfold exitClass
  split
  · next hresult => rw [hresult] at hpop; exact ⟨hpop, h.inPrivateMethod⟩
  · next hresult => rw [hresult] at hpop; exact ⟨hpop, h.inPrivateMethod⟩

end PrivateNames

/-- A run with the private-name hooks that is not broken off ends with as many scopes as it began
with, and with the same flag for private methods. -/
theorem Procedure.level_privateNames (options : Options) (procedure : Procedure α)
    (s : ParserState PrivateNames)
    (hdone : Completed (procedure.observe .privateNames options s).outcome) :
    PrivateNames.Level s.hooks
      (finalState (procedure.observe .privateNames options s).1).hooks := by
  induction procedure generalizing s with
  | pure a => exact .refl _
  | bind first next ihfirst ihnext =>
    have hfirst := ihfirst s
    simp only [Procedure.observe] at hdone ⊢
    rcases hrun : first.observe .privateNames options s with ⟨result, events⟩
    rw [hrun] at hdone hfirst
    cases result with
    | ok b s' => exact (hfirst (.ok b)).trans (ihnext b s' hdone)
    | error e s' =>
      obtain ⟨d, rfl⟩ := hdone e rfl
      exact hfirst (.error d)
  | raise d => exact .refl _
  | exhaust => exact .refl _
  | lex step =>
    simp only [Procedure.observe, Observed.finalState_ofResult, Parse.lexing]
    cases step.run s.lexer <;> exact .refl _
  | context => exact .refl _
  | beStrict => exact .refl _
  | within region body ih =>
    simp only [Procedure.observe, Observed.hooks_leaving] at hdone ⊢
    exact ih { s with context := region.enter s.context } (Observed.completed_of_closedBy hdone)
  | arrow isAsync body ih =>
    simp only [Procedure.observe, Parse.nextIs_eq] at hdone ⊢
    cases hpeek : Lexing.peek s.lexer with
    | ok token lexer =>
      simp only [hpeek, Observed.hooks_leaving] at hdone ⊢
      exact ih _ ⟨lexer, Grammar.enterArrow isAsync s.context, s.hooks⟩
        (Observed.completed_of_closedBy hdone)
    | error e lexer => exact .refl _
  | declareMember name kind start =>
    simp only [Procedure.observe, Observed.behind, Observed.finalState_ofResult,
      finalState_askName]
    exact PrivateNames.level_declareMember name kind start options s.hooks
  | referenceName name =>
    simp only [Procedure.observe, Observed.behind, Observed.finalState_ofResult,
      finalState_askName]
    exact PrivateNames.level_referenceName name options s.hooks
  | afterUnary e =>
    simp only [Procedure.observe, Observed.behind, Observed.finalState_ofResult, finalState_hook]
    exact PrivateNames.level_afterUnary e s.hooks
  | afterAtom atom next =>
    simp only [Procedure.observe, Observed.behind, Observed.finalState_ofResult, finalState_hook]
    exact PrivateNames.level_afterAtom atom next s.hooks
  | inClass body ih =>
    have hbody := ih { s with hooks := Hooks.privateNames.enterClass s.hooks }
      (Observed.completed_of_closedBy hdone)
    simp only [Procedure.observe, Observed.behind]
    rw [Observed.finalState_of_completed hdone, finalState_hook]
    exact PrivateNames.level_exitClass hbody
  | inMethod key body ih =>
    have hbody := ih { s with hooks := (Hooks.privateNames.enterMethod key s.hooks).2 }
      (Observed.completed_of_closedBy hdone)
    have hend := congrArg (fun t => PrivateNames.Level s.hooks t.hooks)
      (Observed.finalState_of_completed hdone)
    -- The flag is put back, whatever it is at the end of the method.
    exact hend.mpr ⟨hbody.depth, rfl⟩

/-! ## Parses -/

namespace Parser

theorem bracketed (parser : Parser σ) : Bracketed parser.parse.1 parser.run.2 := by
  rw [outcome_parse]
  exact Procedure.wellBracketed _ _ _ _

/-- A parse of a source is broken off exactly if a counter would be taken below zero. -/
theorem completed_iff {source : List Char} (parser : Parser σ)
    (hsource : parser.state.lexer.InSource source) :
    Completed parser.parse.1 ↔ ∀ event ∈ parser.run.2, event.LoopInRange := by
  have hover := parser.overrun_iff hsource.advances
  have hsteps := (parser.ends_parse hsource).2
  constructor
  · intro hdone event hmem
    refine Classical.byContradiction fun hout => ?_
    obtain ⟨d, hd⟩ := hdone _ (hover.2 ⟨event, hmem, hout⟩)
    cases hd
  · rintro hrange (d | _ | _) he
    · exact ⟨d, rfl⟩
    · obtain ⟨event, hmem, hout⟩ := hover.1 he
      exact absurd (hrange event hmem) hout
    · exact absurd he hsteps

/-- A parse with the private-name hooks that is not broken off leaves no scope and no flag. -/
theorem level_of_completed (options : Options) (state : ParserState PrivateNames)
    (hdone : Completed (⟨options, .privateNames, state⟩ : Parser PrivateNames).parse.1) :
    PrivateNames.Level {}
      (⟨options, .privateNames, state⟩ : Parser PrivateNames).parse.2.state.hooks := by
  rw [outcome_parse] at hdone
  rw [← finalState_run]
  exact (Grammar.programProcedure options state.lexer.source.length).level_privateNames
    options { state with hooks := {} } hdone

end Parser

/-- The calls that open and close classes and methods are properly nested in every parse, with any
hooks; behind the first failure, with which the parse fails, only the calls follow that close what
is open. The exception is a parse that is broken off, which happens exactly where a counter of loops
or switches would be taken below zero. `parser.run` lists the calls that the hooks get. The
private-name hooks thus give the same result from every state, and unless the parse is broken off
they end without a scope and outside of private methods. -/
theorem parse_brackets (source : String) (options : Options) (hooks : Hooks σ) (initial : σ)
    (hrules : ∀ rule ∈ hooks.tokenRules, rule.Advances) (calls : Nat)
    (state : ParserState PrivateNames) :
    let parser := (Parser.ofSource source options hooks initial).after calls
    let named : Parser PrivateNames := ⟨options, .privateNames, state⟩
    Bracketed parser.parse.1 parser.run.2 ∧
    (Completed parser.parse.1 ↔ ∀ event ∈ parser.run.2, event.LoopInRange) ∧
    parser.traced.parse.1 = parser.parse.1 ∧
    parser.traced.parse.2.state.hooks =
      (parser.parse.2.state.hooks, parser.run.2.filter Event.isCall) ∧
    named.parse = (⟨options, .privateNames, { state with hooks := {} }⟩ :
      Parser PrivateNames).parse ∧
    (Completed named.parse.1 →
      named.parse.2.state.hooks.depth = 0 ∧ named.parse.2.state.hooks.inPrivateMethod = false) := by
  intro parser named
  have hsource := (Parser.ofSource source options hooks initial).inSource_after
    (Lexer.inSource_ofSource source hrules) calls
  refine ⟨parser.bracketed, parser.completed_iff hsource, parser.traced_parse.1, ?_, rfl,
    fun hdone => ?_⟩
  · rw [parser.traced_parse.2]
  · have hlevel := Parser.level_of_completed options state hdone
    exact ⟨hlevel.depth, hlevel.inPrivateMethod⟩

/-- A rule of its own for `@` beside that for private names; the parse fails in a private method of
a class, with a character that is no token. -/
theorem parse_brackets_of_failure :
    let hooks := { Hooks.privateNames with tokenRules := [.sigil '@', .privateName] }
    let parser := Parser.ofSource "class A \x7b #m() \x7b @x \\ \x7d \x7d" {} hooks {}
    (∀ rule ∈ hooks.tokenRules, rule.Advances) ∧
      ∃ d, parser.parse.1 = .error (.error d) ∧ FailsClosing (.error d) parser.run.2 := by
  intro hooks parser
  have hrules : ∀ rule ∈ hooks.tokenRules, rule.Advances := by
    intro rule hrule
    rcases List.mem_cons.1 hrule with rfl | hrule
    · exact TokenRule.advances_sigil '@'
    · rw [List.mem_singleton.1 hrule]
      exact TokenRule.advances_privateName
  have hbracketed := (parse_brackets "class A \x7b #m() \x7b @x \\ \x7d \x7d" {} hooks {} hrules 0
    parser.state).1
  have hdone : Completed parser.parse.1 := by decide +kernel
  have hfails : parser.parse.1.isOk = false := by decide +kernel
  change Bracketed parser.parse.1 _ at hbracketed
  generalize hparse : parser.parse.1 = outcome at hbracketed hdone hfails
  cases outcome with
  | ok program => cases hfails
  | error e =>
    obtain ⟨d, rfl⟩ := hdone e rfl
    exact ⟨hrules, d, rfl, hbracketed.fails d rfl⟩

/-- A loop in a private method, around an arrow function whose body begins with a character that is
no token: the parse is broken off, and the class and the method stay open. -/
theorem brackets_left_open :
    let parser :=
      Parser.ofSource "class A \x7b #m() \x7b while (1) x => @ \x7d \x7d" {} .privateNames {}
    ¬Completed parser.parse.1 ∧ parser.parse.2.state.hooks.depth = 1 ∧
      parser.parse.2.state.hooks.inPrivateMethod = true := by
  intro parser
  exact ⟨by decide +kernel, by decide +kernel, by decide +kernel⟩

end EcmaScript
