import EcmaScript.Proofs.Counters
import EcmaScript.Proofs.Orderly.Statement

/-!
The context behind a rule.

Every rule of the grammar leaves the context as it has found it, whether it succeeds or fails, with
two exceptions. A statement list turns strict at a directive of its own. And an arrow function whose
first token cannot be scanned is never left: the failure takes the context of the arrow function
with it, out of everything but a static block, and the next parse begins in it. A run that is broken
off gives nothing back.

`IsRule` lists the rules. What happens to the context is read off the procedures of their scripts;
that rules other than lists keep strictness is read off the scripts themselves, which are orderly where
no directive may stand, since a procedure does not show where a directive belongs.
-/

namespace EcmaScript

variable {σ α β : Type}

/-! ## Contexts -/

namespace Context

/-- Nothing but strictness has changed. -/
def Kept (before after : Context) : Prop := after = { before with strict := after.strict }

instance (before after : Context) : Decidable (before.Kept after) :=
  inferInstanceAs (Decidable (after = _))

/-- The context of an arrow function is left over: there is a function too many around the code. -/
structure Stranded (before after : Context) : Prop where
  functionDepth : after.functionDepth = before.functionDepth + 1
  inMethod : after.inMethod = before.inMethod
  inForInit : after.inForInit = before.inForInit

variable {before between after : Context}

theorem Kept.refl (context : Context) : context.Kept context := rfl

theorem Kept.trans (h : before.Kept between) (h' : between.Kept after) : before.Kept after := by
  unfold Kept at *
  rw [h', h]

theorem Kept.functionDepth (h : before.Kept after) :
    after.functionDepth = before.functionDepth := by rw [h]

theorem Stranded.not_kept (h : before.Stranded after) : ¬before.Kept after := by
  intro hkept
  have hdepth := h.functionDepth
  have hsame := hkept.functionDepth
  omega

theorem Kept.stranded (h : before.Kept between) (h' : between.Stranded after) :
    before.Stranded after := by
  rw [h] at h'
  exact ⟨h'.functionDepth, h'.inMethod, h'.inForInit⟩

/-- A context with only strictness changed is the same if strictness is the same. -/
theorem Kept.eq_iff (hstrict : after.strict = before.strict) :
    before.Kept after ↔ after = before := by
  unfold Kept
  rw [hstrict]

/-- Every region puts back what it has changed. -/
theorem Kept.leave (region : Region) (h : (region.enter before).Kept after) :
    ∃ behind, region.leave before after = some behind ∧ before.Kept behind := by
  rw [h]
  cases region <;> exact ⟨_, rfl, rfl⟩

theorem eq_succ_of_lessOne {depth less : Nat} (h : lessOne depth = some less) :
    depth = less + 1 := by
  cases depth with
  | zero => cases h
  | succ depth => rw [Option.some.inj h]

/-- A context that is left over stays so behind the region, if it can be left. -/
theorem Stranded.leave {region : Region} (hregion : region ≠ .staticBlock) {behind : Context}
    (h : (region.enter before).Stranded after) (hleave : region.leave before after = some behind) :
    before.Stranded behind := by
  obtain ⟨hdepth, hmethod, hin⟩ := h
  cases region with
  | staticBlock => exact absurd rfl hregion
  | loopBody =>
    obtain ⟨less, -, hbehind⟩ := Option.bind_eq_some_iff.1 hleave
    obtain rfl := Option.some.inj hbehind
    exact ⟨hdepth, hmethod, hin⟩
  | switchBody =>
    obtain ⟨less, -, hbehind⟩ := Option.bind_eq_some_iff.1 hleave
    obtain rfl := Option.some.inj hbehind
    exact ⟨hdepth, hmethod, hin⟩
  | function isAsync isGenerator isMethod =>
    obtain ⟨less, hless, hbehind⟩ := Option.bind_eq_some_iff.1 hleave
    obtain rfl := Option.some.inj hbehind
    exact ⟨Nat.succ.inj ((eq_succ_of_lessOne hless).symm.trans hdepth), rfl, rfl⟩
  | arrow isAsync =>
    obtain ⟨less, hless, hbehind⟩ := Option.bind_eq_some_iff.1 hleave
    obtain rfl := Option.some.inj hbehind
    exact ⟨Nat.succ.inj ((eq_succ_of_lessOne hless).symm.trans hdepth), hmethod, hin⟩
  | _ =>
    obtain rfl := Option.some.inj hleave
    refine ⟨hdepth, ?_, ?_⟩ <;> first | rfl | assumption

/-- A static block puts back the whole context, also one that is left over. -/
theorem Stranded.leave_staticBlock (h : (Region.staticBlock.enter before).Stranded after) :
    ∃ behind, Region.staticBlock.leave before after = some behind ∧ before.Kept behind := by
  have hinForInit := h.inForInit
  simp only [Region.enter, Grammar.enterStaticBlock] at hinForInit
  exact ⟨_, rfl, by simp [Kept, hinForInit]⟩

end Context

/-! ## Events -/

namespace Event

/-- Whether the context of an arrow function is left over behind the event, if it is or is not in
front of it. -/
def strands (left : Bool) : Event → Bool
  | .stranded _ => true
  | .left .staticBlock _ => false
  | _ => left

theorem strands_of_not_showsContext {event : Event} (h : event.showsContext = false)
    (left : Bool) : event.strands left = left := by
  cases event <;> first | rfl | cases h

end Event

/-- Whether the context of an arrow function is left over behind the events. -/
def strands (events : List Event) : Bool := events.foldl Event.strands false

theorem strands_append {first : List Event} (h : strands first = false) (events : List Event) :
    strands (first ++ events) = strands events := by
  unfold strands at *
  rw [List.foldl_append, h]

theorem strands_snoc (events : List Event) (event : Event) :
    strands (events ++ [event]) = event.strands (strands events) := by
  simp only [strands, List.foldl_append, List.foldl_cons, List.foldl_nil]

/-- Events that show no context change nothing. -/
theorem foldl_strands_of_not_showsContext {events : List Event}
    (h : ∀ event ∈ events, event.showsContext = false) (left : Bool) :
    events.foldl Event.strands left = left := by
  induction events with
  | nil => rfl
  | cons event events ih =>
    rw [List.foldl_cons, Event.strands_of_not_showsContext (h event List.mem_cons_self)]
    exact ih fun event hmem => h event (List.mem_cons_of_mem _ hmem)

/-! ## Runs -/

namespace Observed

/-- The run leaves the context as it has found it, or fails with that of an arrow function left
over, unless it is broken off. -/
structure Returns (before : Context) (o : Observed σ α) : Prop where
  kept : Completed o.outcome → strands o.2 = false → before.Kept (finalState o.1).context
  stranded : Completed o.outcome → strands o.2 = true → before.Stranded (finalState o.1).context
  failed : strands o.2 = true → ∃ e s, o.1 = .error e s

variable {before : Context}

theorem Returns.kept_iff {o : Observed σ α} (h : o.Returns before) (hdone : Completed o.outcome) :
    before.Kept (finalState o.1).context ↔ strands o.2 = false := by
  refine ⟨fun hkept => ?_, h.kept hdone⟩
  cases hleft : strands o.2 with
  | false => rfl
  | true => exact absurd hkept (h.stranded hdone hleft).not_kept

/-- A run whose events leave nothing over. -/
theorem Returns.of_strands {o : Observed σ α} (hnone : strands o.2 = false)
    (hkept : Completed o.outcome → before.Kept (finalState o.1).context) : o.Returns before := by
  refine ⟨fun hdone _ => hkept hdone, fun _ hleft => ?_, fun hleft => ?_⟩ <;>
  · rw [hnone] at hleft
    cases hleft

/-- A run that is broken off. -/
theorem Returns.of_not_completed {o : Observed σ α} (hbroken : ¬Completed o.outcome) :
    o.Returns before := by
  refine ⟨fun hdone => absurd hdone hbroken, fun hdone => absurd hdone hbroken, fun _ => ?_⟩
  obtain ⟨_ | ⟨e, s⟩, events⟩ := o
  · exact absurd (.ok _) hbroken
  · exact ⟨e, s, rfl⟩

/-- A step that leaves the context alone and shows none. -/
theorem Returns.quiet {r : EStateM.Result Failure (ParserState σ) α} {events : List Event}
    (hcontext : before.Kept (finalState r).context)
    (hevents : ∀ event ∈ events, event.showsContext = false) : Returns before (r, events) :=
  .of_strands (foldl_strands_of_not_showsContext hevents false) fun _ => hcontext

theorem Returns.ofResult {r : EStateM.Result Failure (ParserState σ) α}
    (hcontext : (finalState r).context = before) : (ofResult r).Returns before := by
  subst hcontext
  cases r with
  | ok a s => exact .quiet (.refl _) (by simp)
  | error e s => exact .quiet (.refl _) (by simp)

/-- An event that shows no context, in front of the run. -/
theorem Returns.behind {o : Observed σ α} {event : Event} (hevent : event.showsContext = false)
    (h : o.Returns before) : (o.behind event).Returns before := by
  have hstrands : strands (o.behind event).2 = strands o.2 := by
    simp only [Observed.behind, strands, List.foldl_cons,
      Event.strands_of_not_showsContext hevent]
  refine ⟨fun hdone hleft => h.kept hdone ?_, fun hdone hleft => h.stranded hdone ?_,
    fun hleft => h.failed ?_⟩ <;> rwa [hstrands] at hleft

/-- Closing a run strands nothing, unless the closing event does. -/
theorem strands_closedBy (close : Parse σ Unit) {event : ParserState σ → Event}
    (hevent : ∀ s left, (event s).strands left = left) (o : Observed σ α) :
    strands (o.closedBy close event).2 = strands o.2 := by
  have hraised (failure : Failure) (left : Bool) : (Event.raised failure).strands left = left := rfl
  obtain ⟨result, events⟩ := o
  rcases result with ⟨a, s⟩ | ⟨d | _ | _, s⟩
  · simp only [closedBy]
    cases close s <;> simp [strands, hevent, hraised]
  · simp only [closedBy]
    rcases close s with ⟨_, _⟩ | ⟨_ | _ | _, _⟩ <;> simp [strands, hevent, hraised]
  · rfl
  · rfl

/-- A closing step that leaves the context alone. -/
theorem Returns.closedBy {o : Observed σ α} {close : Parse σ Unit} {event : ParserState σ → Event}
    (hevent : ∀ s, (event s).showsContext = false)
    (hclose : ∀ s, (finalState (close s)).context = s.context) (h : o.Returns before) :
    (o.closedBy close event).Returns before := by
  have hstrands := strands_closedBy close
    (fun s left => Event.strands_of_not_showsContext (hevent s) left) o
  refine ⟨fun hdone hleft => ?_, fun hdone hleft => ?_, fun hleft => ?_⟩ <;> rw [hstrands] at hleft
  · rw [finalState_of_completed hdone, hclose]
    exact h.kept (completed_of_closedBy hdone) hleft
  · rw [finalState_of_completed hdone, hclose]
    exact h.stranded (completed_of_closedBy hdone) hleft
  · exact failed_closedBy (h.failed hleft)

/-- The way out of a region puts back what is to be put back, if there is one. -/
theorem context_leaving {region : Region} {o : Observed σ α} {behind : Context}
    (hleave : region.leave before (finalState o.1).context = some behind)
    (hdone : Completed (o.leaving region before).outcome) :
    (finalState (o.leaving region before).1).context = behind := by
  rw [leaving, finalState_of_completed hdone, Parse.leaving, hleave]
  rfl

theorem events_leaving {region : Region} {o : Observed σ α} {behind : Context}
    (hleave : region.leave before (finalState o.1).context = some behind)
    (hdone : Completed o.outcome) :
    (o.leaving region before).2 = o.2 ++ [.left region (finalState o.1).context] := by
  obtain ⟨result, events⟩ := o
  rcases result with ⟨a, s⟩ | ⟨d | _ | _, s⟩
  · simp only [leaving, closedBy, Parse.leaving]
    rw [show region.leave before s.context = some behind from hleave]
    rfl
  · simp only [leaving, closedBy, Parse.leaving]
    rw [show region.leave before s.context = some behind from hleave]
    rfl
  · exact absurd hdone not_completed_overrun
  · exact absurd hdone not_completed_exhausted

theorem exists_leave_of_completed {region : Region} {o : Observed σ α}
    (hdone : Completed (o.leaving region before).outcome) :
    ∃ behind, region.leave before (finalState o.1).context = some behind := by
  obtain ⟨result, events⟩ := o
  cases hleave : region.leave before (finalState result).context with
  | some behind => exact ⟨behind, rfl⟩
  | none =>
    refine absurd hdone fun hdone => ?_
    rcases result with ⟨a, s⟩ | ⟨d | _ | _, s⟩ <;> simp only [finalState] at hleave <;>
      simp only [leaving, closedBy, Parse.leaving, hleave] at hdone
    · exact not_completed_overrun hdone
    · exact not_completed_overrun hdone
    · exact not_completed_overrun hdone
    · exact not_completed_exhausted hdone

theorem Returns.leaving {o : Observed σ α} (region : Region)
    (h : o.Returns (region.enter before)) : (o.leaving region before).Returns before := by
  by_cases hdone : Completed (o.leaving region before).outcome
  · have hinside := completed_of_closedBy hdone
    by_cases hblock : region = .staticBlock
    · -- A static block puts the context back in any case.
      subst hblock
      obtain ⟨behind, hleave, hkept⟩ : ∃ behind,
          Region.staticBlock.leave before (finalState o.1).context = some behind ∧
            before.Kept behind := by
        cases hleft : strands o.2 with
        | false => exact (h.kept hinside hleft).leave .staticBlock
        | true => exact (h.stranded hinside hleft).leave_staticBlock
      refine .of_strands ?_ fun _ => ?_
      · rw [events_leaving hleave hinside, strands_snoc]
        rfl
      · rwa [context_leaving hleave hdone]
    · have hstrands : strands (o.leaving region before).2 = strands o.2 := by
        refine strands_closedBy _ (fun s left => ?_) o
        cases region <;> first | rfl | exact absurd rfl hblock
      refine ⟨fun _ hleft => ?_, fun _ hleft => ?_, fun hleft => ?_⟩ <;> rw [hstrands] at hleft
      · obtain ⟨behind, hleave, hkept⟩ := (h.kept hinside hleft).leave region
        rwa [context_leaving hleave hdone]
      · obtain ⟨behind, hleave⟩ := exists_leave_of_completed hdone
        rw [context_leaving hleave hdone]
        exact (h.stranded hinside hleft).leave hblock hleave
      · exact failed_closedBy (h.failed hleft)
  · exact .of_not_completed hdone

theorem Returns.andThen {o : Observed σ β} {next : β → ParserState σ → Observed σ α}
    (h : o.Returns before) (hnext : ∀ b s, (next b s).Returns s.context) :
    (o.andThen next).Returns before := by
  obtain ⟨result, events⟩ := o
  cases result with
  | error e s =>
    have hcompleted (hdone : Completed (.error e : Except Failure α)) :
        Completed (.error e : Except Failure β) :=
      fun e' he => hdone e' (congrArg _ (Except.error.inj he))
    exact ⟨fun hdone => h.kept (hcompleted hdone), fun hdone => h.stranded (hcompleted hdone),
      fun _ => ⟨e, s, rfl⟩⟩
  | ok b s =>
    have hnone : strands events = false := by
      cases hleft : strands events with
      | false => rfl
      | true =>
        obtain ⟨e, s', herror⟩ := h.failed hleft
        cases herror
    have hfirst : before.Kept s.context := h.kept (.ok b) hnone
    have hrest := hnext b s
    have hstrands : strands (events ++ (next b s).2) = strands (next b s).2 :=
      strands_append hnone _
    refine ⟨fun hdone hleft => hfirst.trans (hrest.kept hdone ?_),
      fun hdone hleft => hfirst.stranded (hrest.stranded hdone ?_),
      fun hleft => hrest.failed ?_⟩ <;> rwa [← hstrands]

end Observed

/-- Every run of every procedure leaves the context as it has found it, or fails with that of an
arrow function left over, unless it is broken off. -/
theorem Procedure.returns (hooks : Hooks σ) (options : Options) (procedure : Procedure α)
    (s : ParserState σ) : (procedure.observe hooks options s).Returns s.context := by
  induction procedure generalizing s with
  | pure a => exact .quiet (.refl _) (by simp)
  | bind first next ihfirst ihnext => exact (ihfirst s).andThen ihnext
  | raise d => exact .quiet (.refl _) (by simp)
  | exhaust => exact .quiet (.refl _) (by simp)
  | lex step =>
    refine .ofResult ?_
    unfold Parse.lexing
    cases step.run s.lexer <;> rfl
  | context => exact .quiet (.refl _) (by simp)
  | beStrict => exact .quiet rfl (by simp)
  | within region body ih => exact (ih { s with context := region.enter s.context }).leaving region
  | arrow isAsync body ih =>
    simp only [Procedure.observe, Parse.nextIs_eq]
    cases Lexing.peek s.lexer with
    | ok token lexer =>
      exact (ih _ ⟨lexer, Grammar.enterArrow isAsync s.context, s.hooks⟩).leaving (.arrow isAsync)
    | error e lexer =>
      exact ⟨by rintro _ ⟨⟩, fun _ _ => ⟨rfl, rfl, rfl⟩, fun _ => ⟨_, _, rfl⟩⟩
  | declareMember name kind start =>
    exact .behind rfl (.ofResult (context_askName _ name s))
  | referenceName name => exact .behind rfl (.ofResult (context_askName _ name s))
  | afterUnary e => exact .behind rfl (.ofResult (context_hook _ s))
  | afterAtom atom next => exact .behind rfl (.ofResult (context_hook _ s))
  | inClass body ih =>
    exact .behind rfl (.closedBy (fun _ => rfl) (context_hook _)
      (ih { s with hooks := hooks.enterClass s.hooks }))
  | inMethod key body ih =>
    exact .behind rfl (.closedBy (fun _ => rfl) (fun _ => rfl)
      (ih { s with hooks := (hooks.enterMethod key s.hooks).2 }))

/-! ## Strictness -/

theorem Region.strict_enter {region : Region} (h : region.restoresStrict = false)
    (context : Context) : (region.enter context).strict = context.strict := by
  cases region <;> first | rfl | cases h

theorem Region.strict_leave {region : Region} (h : region.restoresStrict = false)
    {before now behind : Context} (hleave : region.leave before now = some behind) :
    behind.strict = now.strict := by
  cases region with
  | loopBody =>
    obtain ⟨less, -, hbehind⟩ := Option.bind_eq_some_iff.1 hleave
    obtain rfl := Option.some.inj hbehind
    rfl
  | switchBody =>
    obtain ⟨less, -, hbehind⟩ := Option.bind_eq_some_iff.1 hleave
    obtain rfl := Option.some.inj hbehind
    rfl
  | function _ _ _ | arrow _ | classCode => cases h
  | _ =>
    obtain rfl := Option.some.inj hleave
    rfl

theorem Region.strict_leave_restores {region : Region} (h : region.restoresStrict = true)
    {before now behind : Context} (hleave : region.leave before now = some behind) :
    behind.strict = before.strict := by
  cases region with
  | function _ _ _ | arrow _ =>
    obtain ⟨less, -, hbehind⟩ := Option.bind_eq_some_iff.1 hleave
    obtain rfl := Option.some.inj hbehind
    rfl
  | classCode =>
    obtain rfl := Option.some.inj hleave
    rfl
  | _ => cases h

theorem context_lexing (action : Lexing α) (s : ParserState σ) :
    (finalState (Parse.lexing action s)).context = s.context := by
  unfold Parse.lexing
  cases action s.lexer <;> rfl

theorem context_bind {p : Parse σ α} {q : α → Parse σ β}
    (hp : ∀ s, (finalState (p s)).context = s.context)
    (hq : ∀ a s, (finalState (q a s)).context = s.context) (s : ParserState σ) :
    (finalState ((p >>= q) s)).context = s.context := by
  have hfirst := hp s
  simp only [Bind.bind, EStateM.bind]
  cases hresult : p s with
  | ok a s' =>
    rw [hresult] at hfirst
    exact (hq a s').trans hfirst
  | error e s' =>
    rw [hresult] at hfirst
    exact hfirst

theorem context_expect (symbol : Punctuator) (s : ParserState σ) :
    (finalState (Parse.expect symbol s)).context = s.context := by
  refine context_bind (context_bind (context_bind (context_lexing _) fun _ _ => rfl) ?_) ?_ s
  · intro isNext
    cases isNext with
    | false => exact fun _ => rfl
    | true => exact context_bind (context_bind (context_lexing _) fun _ _ => rfl) fun _ _ => rfl
  · intro accepted
    cases accepted with
    | true => exact fun _ => rfl
    | false => exact context_bind (context_lexing _) fun _ _ => rfl

/-- A run of the rule that is not broken off ends as strict as it has begun. -/
def Parse.KeepsStrict (p : Parse σ α) : Prop :=
  ∀ s, Ends (fun e t => (∃ d, e = .error d) → t.context.strict = s.context.strict) p s
    fun _ t => t.context.strict = s.context.strict

namespace Parse.KeepsStrict

theorem of_context {p : Parse σ α} (h : ∀ s, (finalState (p s)).context = s.context) :
    KeepsStrict p := by
  intro s
  have hsame := congrArg Context.strict (h s)
  unfold Ends
  cases hrun : p s with
  | ok a t =>
    rw [hrun] at hsame
    exact hsame
  | error e t =>
    rw [hrun] at hsame
    exact fun _ => hsame

theorem of_completed {p : Parse σ α} (h : KeepsStrict p) {s : ParserState σ}
    (hdone : Completed (outcomeOf (p s))) :
    (finalState (p s)).context.strict = s.context.strict := by
  cases hrun : p s with
  | ok a t => exact (h s).of_ok hrun
  | error e t =>
    rw [hrun] at hdone
    exact (h s).of_error hrun (hdone e rfl)

theorem pure (a : α) : KeepsStrict (Pure.pure a : Parse σ α) := fun _ => rfl

theorem bind {p : Parse σ α} {q : α → Parse σ β} (hp : KeepsStrict p)
    (hq : ∀ a, KeepsStrict (q a)) : KeepsStrict (p >>= q) := fun s =>
  (hp s).bind fun a t ht => (hq a t).mono (fun _ _ h => h.trans ht) fun _ _ h hd => (h hd).trans ht

theorem rounds {round : α → Parse σ (Round α β)} (hround : ∀ a, KeepsStrict (round a))
    (bound : Nat) (a : α) : KeepsStrict (repeatRounds round bound a) := by
  induction bound generalizing a with
  | zero => exact fun s hfailed => hfailed.elim nofun
  | succ bound ih =>
    refine (hround a).bind fun r => ?_
    cases r with
    | again a' => exact ih a'
    | stop b => exact pure b

/-- A rule with a step behind it. -/
theorem closing {close : Parse σ Unit} {p : Parse σ α} (hclose : KeepsStrict close)
    (hp : KeepsStrict p) : KeepsStrict (Parse.closing close p) := fun s =>
  (hp s).closing
    (fun _ t ht => (hclose t).mono (fun _ _ h => h.trans ht) fun _ _ h hd => (h hd).trans ht)
    fun d t ht => by
      have hbefore := ht ⟨d, rfl⟩
      refine (hclose t).mono (fun _ _ h _ => h.trans hbefore) fun e t' h hfailed => ?_
      cases e with
      | error d' => exact (h ⟨d', rfl⟩).trans hbefore
      | overrun | exhausted => exact hfailed.elim nofun

/-- A way out of a region that leaves strictness alone. -/
theorem leaving {leave : Context → Option Context}
    (h : ∀ now behind, leave now = some behind → behind.strict = now.strict) :
    KeepsStrict (Parse.leaving leave : Parse σ Unit) := by
  intro s
  unfold Ends Parse.leaving
  cases hleave : leave s.context with
  | none => exact fun hfailed => hfailed.elim nofun
  | some behind => exact h _ _ hleave

/-- A way out of a region that puts strictness back, behind a rule that may do with it what it
likes. -/
theorem ends_closing_leaving {leave : Context → Option Context} {strict : Bool}
    (h : ∀ now behind, leave now = some behind → behind.strict = strict) (p : Parse σ α)
    (s : ParserState σ) :
    Ends (fun e t => (∃ d, e = .error d) → t.context.strict = strict)
      (Parse.closing (Parse.leaving leave) p) s fun _ t => t.context.strict = strict := by
  unfold Ends Parse.closing Parse.leaving
  rcases p s with ⟨a, t⟩ | ⟨d | _ | _, t⟩
  · dsimp only
    cases hleave : leave t.context with
    | some behind => exact h _ _ hleave
    | none => exact fun hfailed => hfailed.elim nofun
  · dsimp only
    cases hleave : leave t.context with
    | some behind => exact fun _ => h _ _ hleave
    | none => exact fun hfailed => hfailed.elim nofun
  · exact fun hfailed => hfailed.elim nofun
  · exact fun hfailed => hfailed.elim nofun

/-- A region keeps strictness if it puts it back, or if what stands in it keeps it. -/
theorem within (region : Region) {p : Parse σ α}
    (h : region.restoresStrict = false → KeepsStrict p) :
    KeepsStrict (Parse.within region.enter region.leave p) := by
  intro s
  cases hregion : region.restoresStrict with
  | true =>
    exact ends_closing_leaving (fun _ _ => Region.strict_leave_restores hregion) p
      { s with context := region.enter s.context }
  | false =>
    have hleave : KeepsStrict (Parse.leaving (region.leave s.context) : Parse σ Unit) :=
      leaving fun _ _ => Region.strict_leave hregion
    have hbody := closing hleave (h hregion)
    have hstrict := Region.strict_enter hregion s.context
    exact (hbody { s with context := region.enter s.context }).mono (fun _ _ ht => ht.trans hstrict)
      fun _ _ ht hfailed => (ht hfailed).trans hstrict

end Parse.KeepsStrict

/-- An orderly script that stands where no directive may stand keeps strictness, if the rules that it
calls do. -/
theorem Script.Orderly.keepsStrict [Bare α] {place : Setting} {known : Known}
    {script script' : Script α} {after : α → Known}
    (h : script.Orderly place known script' after) (hplace : place.lax = false) {g : Grammar σ}
    (hcall : ∀ {β : Type} (callee : Recurring β), (callee.rule g).KeepsStrict) :
    (script.denote g).KeepsStrict := by
  induction h with
  | pure | options => exact .pure _
  | raise d => exact fun _ _ => rfl
  | context => exact fun _ => rfl
  | beStrict h => exact absurd h (by simp [hplace])
  | peek | newlineBefore | peekSecond | peekStart | lastEnd | next | skip | regExp |
    templateContinuation =>
    rw [denote_lex]
    exact .of_context (context_lexing _)
  | askAgain =>
    rw [denote, denote_lex]
    exact .bind (.of_context (context_lexing _)) fun _ => .pure _
  | @declareMember _ _ name _ _ _ kind start =>
    have hdenote : (leaf (.declareMember name kind start)).denote g =
        g.declarePrivate name kind start := denote_declarePrivate g name kind start
    rw [hdenote]
    exact .of_context (context_askName _ _)
  | @referenceName _ _ name =>
    have hdenote : (leaf (.referenceName name)).denote g =
        Procedure.askName (g.hooks.referenceName name g.options) name := denote_referenceName g name
    rw [hdenote]
    exact .of_context (context_askName _ _)
  | @afterAtom _ _ atom _ _ next =>
    have hdenote : (leaf (.afterAtom atom next)).denote g =
        Parse.hook (g.hooks.afterAtom atom next) := denote_afterAtom g atom next
    rw [hdenote]
    exact .of_context (context_hook _)
  | unaryRule _ ih =>
    rw [denote_unaryRule, Grammar.unaryRule]
    rw [denote_unaryBody] at ih
    exact (ih hplace).bind fun e => .bind (.of_context (context_hook _)) fun _ => .pure e
  | call callee => exact hcall callee
  | bind _ _ ihfirst ihnext => exact (ihfirst hplace).bind fun b => ihnext b b (.refl b) hplace
  | loop _ _ ih => exact .rounds (fun a => ih a a (.refl a) hplace) _ _
  | @within place _ _ _ _ region _ _ _ ih =>
    refine .within region fun hregion => ih ?_
    rw [Setting.enter, hregion, hplace, Bool.or_false]
  | @arrow _ _ _ _ _ isAsync body =>
    intro s
    have hpeek : (Parse.nextIs .lBrace : Parse σ Bool).KeepsStrict :=
      .of_context (context_bind (context_lexing _) fun _ _ => rfl)
    have hblock : Ends (fun e t => (∃ d, e = .error d) → t.context.strict = s.context.strict)
        (Parse.nextIs .lBrace) { s with context := Grammar.enterArrow isAsync s.context }
        fun _ t => t.context.strict = s.context.strict :=
      hpeek { s with context := Grammar.enterArrow isAsync s.context }
    have hleave (now behind : Context)
        (h : (Region.arrow isAsync).leave s.context now = some behind) :
        behind.strict = s.context.strict :=
      Region.strict_leave_restores rfl h
    exact hblock.bind fun isBlock t _ =>
      Parse.KeepsStrict.ends_closing_leaving hleave ((body isBlock).denote g) t
  | inClass _ ih =>
    rw [denote_inClass]
    exact .bind (.of_context fun _ => rfl) fun _ =>
      .closing (.of_context (context_hook _)) (ih hplace)
  | inMethod _ _ _ ih =>
    rw [denote_inMethod]
    exact .bind (.of_context fun _ => rfl) fun _ =>
      .closing (.of_context fun _ => rfl) (ih hplace)
  | weaken _ _ _ ih => exact ih hplace

/-! ## Rules -/

namespace Grammar

/-- The rules of the grammar, apart from statement lists and what consists of one. -/
inductive IsRule : {α : Type} → (∀ {σ : Type}, Grammar σ → Parse σ α) → Prop where
  | identifierReference : IsRule (fun g => g.identifierReference)
  | bindingIdentifier : IsRule (fun g => g.bindingIdentifier)
  | privateName : IsRule (fun _ => Grammar.privateName)
  | nextIsPrivateName : IsRule (fun _ => Grammar.nextIsPrivateName)
  | propertyKey : IsRule (fun g => g.propertyKey)
  | bindingElement : IsRule (fun g => g.bindingElement)
  | restElement : IsRule (fun g => g.restElement)
  | arrayPattern : IsRule (fun g => g.arrayPattern)
  | patternProperty : IsRule (fun g => g.patternProperty)
  | objectPattern : IsRule (fun g => g.objectPattern)
  | bindingTarget : IsRule (fun g => g.bindingTargetRule)
  | block : IsRule (fun g => g.block)
  | formalParameters : IsRule (fun g => g.formalParameters)
  | functionRest (start : Position) (isAsync isGenerator isMethod : Bool) :
    IsRule (fun g => g.functionRest start isAsync isGenerator isMethod)
  | methodFunction (isAsync isGenerator : Bool) :
    IsRule (fun g => g.methodFunction isAsync isGenerator)
  | functionExpression (start : Position) (isAsync : Bool) :
    IsRule (fun g => g.functionExpression start isAsync)
  | arrowFunction (start : Position) (params : List Pattern) (isAsync : Bool) :
    IsRule (fun g => g.arrowFunction start params isAsync)
  | staticRole : IsRule (fun _ => Grammar.staticRole)
  | asyncModifier : IsRule (fun _ => Grammar.asyncModifier)
  | accessorModifier : IsRule (fun _ => Grammar.accessorModifier)
  | modifiers : IsRule (fun _ => Grammar.modifiers)
  | classKey : IsRule (fun g => g.classKey)
  | declarePrivate (name : PrivateName) (kind : MemberKind) (start : Position) :
    IsRule (fun g => g.declarePrivate name kind start)
  | classMethod (start : Position) (key : PropertyKey) (computed isStatic : Bool) (m : Modifiers) :
    IsRule (fun g => g.classMethod start key computed isStatic m)
  | classField (start : Position) (key : PropertyKey) (computed isStatic : Bool) :
    IsRule (fun g => g.classField start key computed isStatic)
  | staticBlock (start : Position) : IsRule (fun g => g.staticBlock start)
  | classElement : IsRule (fun g => g.classElement)
  | classElements : IsRule (fun g => g.classElements)
  | classBody : IsRule (fun g => g.classBody)
  | classDefinition (start : Position) (isDeclaration : Bool) :
    IsRule (fun g => g.classDefinition start isDeclaration)
  | expression : IsRule (fun g => g.expression)
  | headExpression : IsRule (fun g => g.headExpression)
  | spreadOrAssignment : IsRule (fun g => g.spreadOrAssignment)
  | arguments : IsRule (fun g => g.arguments)
  | arrayLiteral (start : Position) : IsRule (fun g => g.arrayLiteral start)
  | shorthandProperty (start : Position) (key : PropertyKey) :
    IsRule (fun g => g.shorthandProperty start key)
  | objectProperty : IsRule (fun g => g.objectProperty)
  | objectLiteral (start : Position) : IsRule (fun g => g.objectLiteral start)
  | templateRest (start : Position) (head : String) : IsRule (fun g => g.templateRest start head)
  | templateLiteral : IsRule (fun g => g.templateLiteral)
  | nextIsTemplate : IsRule (fun _ => Grammar.nextIsTemplate)
  | nextIsArrow : IsRule (fun _ => Grammar.nextIsArrow)
  | literal (start : Position) (value : Literal) : IsRule (fun _ => Grammar.literal start value)
  | regExpLiteral (start : Position) : IsRule (fun _ => Grammar.regExpLiteral start)
  | identifierOrArrow (start : Position) : IsRule (fun g => g.identifierOrArrow start)
  | superExpression (start : Position) : IsRule (fun _ => Grammar.superExpression start)
  | asyncAtom (start : Position) : IsRule (fun g => g.asyncAtom start)
  | parenItems : IsRule (fun g => g.parenItems)
  | parenRest (start : Position) : IsRule (fun g => g.parenRest start)
  | parenthesized (start : Position) : IsRule (fun g => g.parenthesized start)
  | classExpression (start : Position) : IsRule (fun g => g.classExpression start)
  | keywordAtom (start : Position) (word : Keyword) : IsRule (fun g => g.keywordAtom start word)
  | punctuatorAtom (start : Position) (symbol : Punctuator) :
    IsRule (fun g => g.punctuatorAtom start symbol)
  | atom : IsRule (fun g => g.atom)
  | primary : IsRule (fun g => g.primary)
  | memberProperty : IsRule (fun g => g.memberProperty)
  | computedProperty : IsRule (fun g => g.computedProperty)
  | optionalLink (base : Expression) (start : Position) :
    IsRule (fun g => g.optionalLink base start)
  | callOrAsyncArrow (base : Expression) (start : Position) :
    IsRule (fun g => g.callOrAsyncArrow base start)
  | subscripts (base : Expression) (start : Position) (calleeOfNew : Bool) :
    IsRule (fun g => g.subscripts base start calleeOfNew)
  | newExpression : IsRule (fun g => g.newExpressionRule)
  | leftHandSide : IsRule (fun g => g.leftHandSideRule)
  | checkDelete (operator : UnaryOperator) (argument : Expression) (start : Position) :
    IsRule (fun _ => Grammar.checkDelete operator argument start)
  | updateBehind (start : Position) : IsRule (fun g => g.updateBehind start)
  | unaryBody : IsRule (fun g => g.unaryBody)
  | unary : IsRule (fun g => g.unaryRule)
  | binary (least : Nat) : IsRule (fun g => g.binaryRule least)
  | conditional : IsRule (fun g => g.conditional)
  | yieldExpression : IsRule (fun g => g.yieldExpression)
  | assignment : IsRule (fun g => g.assignmentRule)
  | declarators (kind : VariableKind) (needInit : Bool) :
    IsRule (fun g => g.declarators kind needInit)
  | variableStatement (start : Position) (kind : VariableKind) :
    IsRule (fun g => g.variableStatement start kind)
  | letBeginsDeclaration : IsRule (fun _ => Grammar.letBeginsDeclaration)
  | asyncBeginsFunction : IsRule (fun _ => Grammar.asyncBeginsFunction)
  | functionDeclaration (start : Position) (isAsync : Bool) :
    IsRule (fun g => g.functionDeclaration start isAsync)
  | classDeclaration (start : Position) : IsRule (fun g => g.classDeclaration start)
  | returnStatement (start : Position) : IsRule (fun g => g.returnStatement start)
  | ifStatement (start : Position) : IsRule (fun g => g.ifStatement start)
  | loopBody : IsRule (fun g => g.loopBody)
  | whileStatement (start : Position) : IsRule (fun g => g.whileStatement start)
  | doWhileStatement (start : Position) : IsRule (fun g => g.doWhileStatement start)
  | nextIsInOrOf : IsRule (fun _ => Grammar.nextIsInOrOf)
  | forInOrOf (start : Position) (target : ForTarget) : IsRule (fun g => g.forInOrOf start target)
  | forRest (start : Position) (init : Option ForInit) : IsRule (fun g => g.forRest start init)
  | forDeclarationKind : IsRule (fun _ => Grammar.forDeclarationKind)
  | forDeclaration (start : Position) (kind : VariableKind) :
    IsRule (fun g => g.forDeclaration start kind)
  | forExpression (start : Position) : IsRule (fun g => g.forExpression start)
  | forStatement (start : Position) : IsRule (fun g => g.forStatement start)
  | jumpLabel : IsRule (fun g => g.jumpLabel)
  | breakStatement (start : Position) : IsRule (fun g => g.breakStatement start)
  | continueStatement (start : Position) : IsRule (fun g => g.continueStatement start)
  | throwStatement (start : Position) : IsRule (fun g => g.throwStatement start)
  | catchClause : IsRule (fun g => g.catchClause)
  | tryStatement (start : Position) : IsRule (fun g => g.tryStatement start)
  | caseTest (hasDefault : Bool) : IsRule (fun g => g.caseTest hasDefault)
  | caseBody : IsRule (fun g => g.caseBody)
  | switchCases : IsRule (fun g => g.switchCases)
  | switchStatement (start : Position) : IsRule (fun g => g.switchStatement start)
  | debuggerStatement (start : Position) : IsRule (fun _ => Grammar.debuggerStatement start)
  | emptyStatement (start : Position) : IsRule (fun _ => Grammar.emptyStatement start)
  | blockStatement (start : Position) : IsRule (fun g => g.blockStatement start)
  | expressionStatement (start : Position) : IsRule (fun g => g.expressionStatement start)
  | keywordStatement (start : Position) (word : Keyword) :
    IsRule (fun g => g.keywordStatement start word)
  | statement : IsRule (fun g => g.statementRule)
  | allowingIn {α : Type} {rule : ∀ {σ : Type}, Grammar σ → Parse σ α} (h : IsRule @rule) :
    IsRule (fun g => Parse.allowingIn (rule g))
  | withoutIn {α : Type} {rule : ∀ {σ : Type}, Grammar σ → Parse σ α} (h : IsRule @rule) :
    IsRule (fun g => Parse.withoutIn (rule g))
  | inFieldInitializer {α : Type} {rule : ∀ {σ : Type}, Grammar σ → Parse σ α} (h : IsRule @rule) :
    IsRule (fun g => Grammar.inFieldInitializer (rule g))

variable {rule : ∀ {σ : Type}, Grammar σ → Parse σ α}

/-- A script denotes the rule, which keeps strictness if the rules that recur do. -/
structure IsScripted (rule : ∀ {σ : Type}, Grammar σ → Parse σ α) : Prop where
  exists_script : ∃ script : Script α, ∀ {σ : Type} (g : Grammar σ), script.denote g = rule g
  keepsStrict : ∀ {σ : Type} {g : Grammar σ},
    (∀ {β : Type} (callee : Recurring β), (callee.rule g).KeepsStrict) → (rule g).KeepsStrict

/-- Where a rule stands from which no directive is read. -/
def rulePlace : Setting := ⟨false, false, true, true⟩

namespace IsScripted

theorem of_orderly [Bare α] (known : Known) {script : Script α} {after : α → Known}
    (h : script.Orderly rulePlace known script after)
    (hdenote : ∀ {σ : Type} (g : Grammar σ), script.denote g = rule g) : IsScripted @rule :=
  ⟨⟨script, hdenote⟩, fun {_ g} hcall => hdenote g ▸ h.keepsStrict rfl hcall⟩

theorem within (region : Region) (h : IsScripted @rule) :
    IsScripted fun g => Parse.within region.enter region.leave (rule g) := by
  obtain ⟨⟨script, hdenote⟩, hstrict⟩ := h
  refine ⟨⟨.within region script, fun g => ?_⟩, fun hcall => .within region fun _ => hstrict hcall⟩
  rw [Script.denote_within, hdenote]

end IsScripted

open Script in
/-- Every rule is denoted by an orderly script. -/
theorem IsRule.isScripted (h : IsRule @rule) : IsScripted @rule := by
  induction h with
  | identifierReference =>
    exact .of_orderly .nothing orderly_identifierReference denote_identifierReference
  | bindingIdentifier =>
    exact .of_orderly .nothing orderly_bindingIdentifier denote_bindingIdentifier
  | privateName => exact .of_orderly .nothing orderly_privateName denote_privateName
  | nextIsPrivateName =>
    exact .of_orderly .nothing orderly_nextIsPrivateName denote_nextIsPrivateName
  | propertyKey => exact .of_orderly .nothing orderly_propertyKey denote_propertyKey
  | bindingElement => exact .of_orderly .nothing (orderly_bindingElement rfl) denote_bindingElement
  | restElement => exact .of_orderly .nothing orderly_restElement denote_restElement
  | arrayPattern => exact .of_orderly .nothing orderly_arrayPattern denote_arrayPattern
  | patternProperty => exact .of_orderly .nothing orderly_patternProperty denote_patternProperty
  | objectPattern => exact .of_orderly .nothing orderly_objectPattern denote_objectPattern
  | bindingTarget => exact .of_orderly .nothing orderly_bindingTargetRule denote_bindingTargetRule
  | block => exact .of_orderly .nothing (orderly_block rfl) denote_block
  | formalParameters => exact .of_orderly .nothing orderly_formalParameters denote_formalParameters
  | functionRest start isAsync isGenerator isMethod =>
    exact .of_orderly .nothing (orderly_functionRest isAsync isGenerator isMethod)
      fun g => denote_functionRest g start isAsync isGenerator isMethod
  | methodFunction isAsync isGenerator =>
    exact .of_orderly .nothing (orderly_methodFunction isAsync isGenerator)
      fun g => denote_methodFunction g isAsync isGenerator
  | functionExpression start isAsync =>
    exact .of_orderly .nothing (orderly_functionExpression isAsync)
      fun g => denote_functionExpression g start isAsync
  | arrowFunction start params isAsync =>
    exact .of_orderly .nothing (orderly_arrowFunction isAsync)
      fun g => denote_arrowFunction g start params isAsync
  | staticRole => exact .of_orderly .nothing orderly_staticRole denote_staticRole
  | asyncModifier => exact .of_orderly .nothing orderly_asyncModifier denote_asyncModifier
  | accessorModifier => exact .of_orderly .nothing orderly_accessorModifier denote_accessorModifier
  | modifiers => exact .of_orderly .nothing orderly_modifiers denote_modifiers
  | classKey => exact .of_orderly .nothing orderly_classKey denote_classKey
  | declarePrivate name kind start =>
    exact .of_orderly (.naming .nothing true) (orderly_declarePrivate rfl kind start start)
      fun g => denote_declarePrivate g name kind start
  | classMethod start key computed isStatic m =>
    exact .of_orderly (.naming .nothing true)
      (orderly_classMethod (fun _ => rfl) computed isStatic m)
      fun g => denote_classMethod g start key computed isStatic m
  | classField start key computed isStatic =>
    exact .of_orderly (.further .nothing) (orderly_classField computed isStatic)
      fun g => denote_classField g start key computed isStatic
  | staticBlock start =>
    exact .of_orderly .nothing orderly_staticBlock fun g => denote_staticBlock g start
  | classElement => exact .of_orderly .nothing orderly_classElement denote_classElement
  | classElements => exact .of_orderly (.braced .nothing) orderly_classElements denote_classElements
  | classBody => exact .of_orderly .nothing orderly_classBody denote_classBody
  | classDefinition start isDeclaration =>
    exact .of_orderly .nothing (orderly_classDefinition isDeclaration)
      fun g => denote_classDefinition g start isDeclaration
  | expression => exact .of_orderly .nothing (orderly_expression (.inl rfl)) denote_expression
  | headExpression => exact .of_orderly .nothing orderly_headExpression denote_headExpression
  | spreadOrAssignment =>
    exact .of_orderly .nothing (orderly_spreadOrAssignment rfl) denote_spreadOrAssignment
  | arguments => exact .of_orderly .nothing orderly_arguments denote_arguments
  | arrayLiteral start =>
    exact .of_orderly .nothing orderly_arrayLiteral fun g => denote_arrayLiteral g start
  | shorthandProperty start key =>
    exact .of_orderly (.further .nothing) orderly_shorthandProperty
      fun g => denote_shorthandProperty g start key
  | objectProperty => exact .of_orderly .nothing orderly_objectProperty denote_objectProperty
  | objectLiteral start =>
    exact .of_orderly .nothing orderly_objectLiteral fun g => denote_objectLiteral g start
  | templateRest start head =>
    exact .of_orderly (.substituted .nothing) (orderly_templateRest head)
      fun g => denote_templateRest g start head
  | templateLiteral => exact .of_orderly .nothing orderly_templateLiteral denote_templateLiteral
  | nextIsTemplate => exact .of_orderly .nothing orderly_nextIsTemplate denote_nextIsTemplate
  | nextIsArrow => exact .of_orderly .nothing orderly_nextIsArrow denote_nextIsArrow
  | literal start value =>
    exact .of_orderly (.facing .nothing (.keyword .this))
      (orderly_literal (Token.isPlain_keyword _) value)
      fun g => denote_literal g start value
  | regExpLiteral start =>
    exact .of_orderly (.facing .nothing (.punctuator .slash)) (orderly_regExpLiteral rfl)
      fun g => denote_regExpLiteral g start
  | identifierOrArrow start =>
    exact .of_orderly .nothing orderly_identifierOrArrow fun g => denote_identifierOrArrow g start
  | superExpression start =>
    exact .of_orderly (.facing .nothing (.keyword .super)) orderly_superExpression
      fun g => denote_superExpression g start
  | asyncAtom start =>
    exact .of_orderly (.facing .nothing (.keyword .async)) orderly_asyncAtom
      fun g => denote_asyncAtom g start
  | parenItems => exact .of_orderly .nothing (orderly_parenItems rfl) denote_parenItems
  | parenRest start =>
    exact .of_orderly (.further .nothing) orderly_parenRest fun g => denote_parenRest g start
  | parenthesized start =>
    exact .of_orderly .nothing orderly_parenthesized fun g => denote_parenthesized g start
  | classExpression start =>
    exact .of_orderly .nothing orderly_classExpression fun g => denote_classExpression g start
  | keywordAtom start word =>
    exact .of_orderly (.facing .nothing (.keyword word)) (orderly_keywordAtom word)
      fun g => denote_keywordAtom g start word
  | punctuatorAtom start symbol =>
    exact .of_orderly (.facing .nothing (.punctuator symbol)) (orderly_punctuatorAtom symbol)
      fun g => denote_punctuatorAtom g start symbol
  | atom => exact .of_orderly .nothing orderly_atom denote_atom
  | primary => exact .of_orderly .nothing orderly_primary denote_primary
  | memberProperty => exact .of_orderly .nothing orderly_memberProperty denote_memberProperty
  | computedProperty =>
    exact .of_orderly (.further .nothing) orderly_computedProperty denote_computedProperty
  | optionalLink base start =>
    exact .of_orderly .nothing orderly_optionalLink fun g => denote_optionalLink g base start
  | callOrAsyncArrow base start =>
    exact .of_orderly .nothing orderly_callOrAsyncArrow
      fun g => denote_callOrAsyncArrow g base start
  | subscripts base start calleeOfNew =>
    exact .of_orderly (.further .nothing) (orderly_subscripts calleeOfNew)
      fun g => denote_subscripts g base start calleeOfNew
  | newExpression => exact .of_orderly .nothing orderly_newExpressionRule denote_newExpressionRule
  | leftHandSide => exact .of_orderly .nothing orderly_leftHandSideRule denote_leftHandSideRule
  | checkDelete operator argument start =>
    exact .of_orderly .nothing (orderly_checkDelete operator)
      fun g => denote_checkDelete g operator argument start
  | updateBehind start =>
    exact .of_orderly .nothing orderly_updateBehind fun g => denote_updateBehind g start
  | unaryBody => exact .of_orderly .nothing orderly_unaryBody denote_unaryBody
  | unary => exact .of_orderly .nothing orderly_unaryRule denote_unaryRule
  | binary least =>
    exact .of_orderly .nothing (orderly_binaryRule least) fun g => denote_binaryRule g least
  | conditional => exact .of_orderly .nothing orderly_conditional denote_conditional
  | yieldExpression =>
    exact .of_orderly (.facing .nothing (.keyword .yield)) orderly_yieldExpression
      denote_yieldExpression
  | assignment => exact .of_orderly .nothing orderly_assignmentRule denote_assignmentRule
  | declarators kind needInit =>
    exact .of_orderly (.further .nothing) (orderly_declarators kind needInit)
      fun g => denote_declarators g kind needInit
  | variableStatement start kind =>
    exact .of_orderly (.facing .nothing (.keyword .var)) (orderly_variableStatement kind)
      fun g => denote_variableStatement g start kind
  | letBeginsDeclaration =>
    exact .of_orderly (.facing .nothing (.keyword .var)) orderly_letBeginsDeclaration
      denote_letBeginsDeclaration
  | asyncBeginsFunction =>
    exact .of_orderly (.facing .nothing (.keyword .var)) orderly_asyncBeginsFunction
      denote_asyncBeginsFunction
  | functionDeclaration start isAsync =>
    exact .of_orderly .nothing (orderly_functionDeclaration isAsync)
      fun g => denote_functionDeclaration g start isAsync
  | classDeclaration start =>
    exact .of_orderly .nothing orderly_classDeclaration fun g => denote_classDeclaration g start
  | returnStatement start =>
    exact .of_orderly (.facing .nothing (.keyword .var)) orderly_returnStatement
      fun g => denote_returnStatement g start
  | ifStatement start =>
    exact .of_orderly (.facing .nothing (.keyword .var)) (orderly_ifStatement rfl)
      fun g => denote_ifStatement g start
  | loopBody => exact .of_orderly (.further .nothing) (orderly_loopBody rfl) denote_loopBody
  | whileStatement start =>
    exact .of_orderly (.facing .nothing (.keyword .var)) (orderly_whileStatement rfl)
      fun g => denote_whileStatement g start
  | doWhileStatement start =>
    exact .of_orderly (.facing .nothing (.keyword .var)) (orderly_doWhileStatement rfl)
      fun g => denote_doWhileStatement g start
  | forInOrOf start target =>
    exact .of_orderly (.facing .nothing (.keyword .in_))
      (orderly_forInOrOf rfl (Token.isPlain_keyword _))
      fun g => denote_forInOrOf g start target
  | forRest start init =>
    exact .of_orderly .nothing (orderly_forRest rfl) fun g => denote_forRest g start init
  | forDeclarationKind =>
    exact .of_orderly (.further .nothing) orderly_forDeclarationKind denote_forDeclarationKind
  | forDeclaration start kind =>
    exact .of_orderly (.facing .nothing (.keyword .var)) (orderly_forDeclaration kind rfl)
      fun g => denote_forDeclaration g start kind
  | forExpression start =>
    exact .of_orderly (.further .nothing) (orderly_forExpression rfl)
      fun g => denote_forExpression g start
  | forStatement start =>
    exact .of_orderly (.facing .nothing (.keyword .var)) (orderly_forStatement rfl)
      fun g => denote_forStatement g start
  | jumpLabel => exact .of_orderly .nothing orderly_jumpLabel denote_jumpLabel
  | breakStatement start =>
    exact .of_orderly (.facing .nothing (.keyword .var)) orderly_breakStatement
      fun g => denote_breakStatement g start
  | continueStatement start =>
    exact .of_orderly (.facing .nothing (.keyword .var)) orderly_continueStatement
      fun g => denote_continueStatement g start
  | throwStatement start =>
    exact .of_orderly (.facing .nothing (.keyword .var)) orderly_throwStatement
      fun g => denote_throwStatement g start
  | catchClause => exact .of_orderly .nothing (orderly_catchClause rfl) denote_catchClause
  | tryStatement start =>
    exact .of_orderly (.facing .nothing (.keyword .var)) (orderly_tryStatement rfl)
      fun g => denote_tryStatement g start
  | caseTest hasDefault =>
    exact .of_orderly .nothing (orderly_caseTest hasDefault) fun g => denote_caseTest g hasDefault
  | caseBody => exact .of_orderly (.further .nothing) (orderly_caseBody rfl) denote_caseBody
  | switchCases => exact .of_orderly (.braced .nothing) (orderly_switchCases rfl) denote_switchCases
  | switchStatement start =>
    exact .of_orderly (.facing .nothing (.keyword .var)) (orderly_switchStatement rfl)
      fun g => denote_switchStatement g start
  | debuggerStatement start =>
    exact .of_orderly (.facing .nothing (.keyword .var)) orderly_debuggerStatement
      fun g => denote_debuggerStatement g start
  | emptyStatement start =>
    exact .of_orderly (.facing .nothing (.punctuator .semicolon)) orderly_emptyStatement
      fun g => denote_emptyStatement g start
  | blockStatement start =>
    exact .of_orderly .nothing (orderly_blockStatement rfl) fun g => denote_blockStatement g start
  | expressionStatement start =>
    exact .of_orderly .nothing (orderly_expressionStatement rfl rfl)
      fun g => denote_expressionStatement g start
  | keywordStatement start word =>
    exact .of_orderly (.facing .nothing (.keyword word)) (orderly_keywordStatement word rfl rfl)
      fun g => denote_keywordStatement g start word
  | statement => exact .of_orderly .nothing (orderly_statementRule rfl rfl) denote_statementRule
  | nextIsInOrOf =>
    have hask : Orderly rulePlace .nothing (ifInOrOf (Pure.pure true) (Pure.pure false))
        (ifInOrOf (Pure.pure true) (Pure.pure false)) fun _ => .nothing :=
      orderly_ifInOrOf (fun _ => .ret .forget) (.ret .refl)
    refine .of_orderly .nothing hask fun g => ?_
    rw [denote_ifInOrOf]
    refine (bind_congr fun isNext => ?_).trans (bind_pure _)
    cases isNext <;> rfl
  | allowingIn _ ih => exact ih.within .brackets
  | withoutIn _ ih => exact ih.within .loopHead
  | inFieldInitializer _ ih => exact (ih.within .brackets).within .fieldInitializer

/-! ## Statement lists -/

/-- Whether the directives in front of the list make it strict. -/
def prologueIsStrict : List Statement → Bool
  | [] => false
  | statement :: list =>
    match statement.directive? with
    | some directive => directive == "use strict" || prologueIsStrict list
    | none => false

theorem prologueIsStrict_snoc (list : List Statement) (statement : Statement) :
    prologueIsStrict (list ++ [statement]) =
      (prologueIsStrict list ||
        list.all (·.directive?.isSome) && statement.directive? == some "use strict") := by
  induction list with
  | nil =>
    simp only [List.nil_append, prologueIsStrict, List.all_nil, Bool.true_and, Bool.false_or]
    cases statement.directive? <;> simp
  | cons first list ih =>
    simp only [List.cons_append, prologueIsStrict, List.all_cons]
    cases first.directive? with
    | none => simp
    | some directive => simp [ih, Bool.or_assoc]

/-- The statements have been read one after the other, where the list does not end, and the code
is strict from a directive of theirs on. -/
inductive ReadsList (g : Grammar σ) (done : Parse σ Bool) (s : ParserState σ) :
    List Statement → ParserState σ → Prop where
  | nil : ReadsList g done s [] s
  | snoc {read : List Statement} {statement : Statement} {t t' t'' : ParserState σ}
      (h : ReadsList g done s read t) (hdone : done t = .ok false t')
      (hstatement : g.statement t' = .ok statement t'') :
    ReadsList g done s (read ++ [statement])
      { t'' with context := { t''.context with
          strict := t''.context.strict || prologueIsStrict (read ++ [statement]) } }

/-- Strictness is on at the end exactly if it was on, or a directive of the statements that have been
read has turned it on, unless the run is broken off; these are the statements of the result, if
there is one. -/
def TurnsStrict (g : Grammar σ) (done : Parse σ Bool) (statements : α → List Statement)
    (s : ParserState σ) (result : EStateM.Result Failure (ParserState σ) α) : Prop :=
  ∃ read stop, ReadsList g done s read stop ∧
    (Completed (outcomeOf result) →
      (finalState result).context.strict = (s.context.strict || prologueIsStrict read)) ∧
    ∀ a s', result = .ok a s' → statements a = read

section

variable {g : Grammar σ} {done : Parse σ Bool}

theorem ReadsList.strict_eq (hrule : g.statement.KeepsStrict) (hdone : done.KeepsStrict)
    {s stop : ParserState σ} {read : List Statement} (h : ReadsList g done s read stop) :
    stop.context.strict = (s.context.strict || prologueIsStrict read) := by
  induction h with
  | nil => simp [prologueIsStrict]
  | @snoc read statement t t' t'' _ hend hstatement ih =>
    rw [(hrule t').of_ok hstatement, (hdone t).of_ok hend, ih, prologueIsStrict_snoc,
      Bool.or_assoc, ← Bool.or_assoc (prologueIsStrict read), Bool.or_self]

/-- What a round of a statement list does: it stops in front of a statement, with the strictness
unchanged, or reads one. -/
theorem statementListRound_cases (hrule : g.statement.KeepsStrict) (hdone : done.KeepsStrict)
    {s t : ParserState σ} {list : ListRead}
    (hread : ReadsList g done s list.statements.reverse t)
    (hprologue : list.inPrologue = list.statements.reverse.all (·.directive?.isSome)) :
    (∃ e t', g.statementListRound done list t = .error e t' ∧
      ((∃ d, e = .error d) → t'.context.strict = t.context.strict)) ∨
    (∃ t', g.statementListRound done list t = .ok (.stop list.statements.reverse) t' ∧
      t'.context.strict = t.context.strict) ∨
    ∃ list' t', g.statementListRound done list t = .ok (.again list') t' ∧
      ReadsList g done s list'.statements.reverse t' ∧
      list'.inPrologue = list'.statements.reverse.all (·.directive?.isSome) := by
  have hend := hdone t
  cases hresult : done t with
  | error e t' =>
    refine .inl ⟨e, t', ?_, ?_⟩
    · simp only [statementListRound, Bind.bind, EStateM.bind, hresult]
    · exact hend.of_error hresult
  | ok ended t' =>
    replace hend := hend.of_ok hresult
    cases ended with
    | true =>
      refine .inr (.inl ⟨t', ?_, hend⟩)
      simp only [statementListRound, Bind.bind, EStateM.bind, hresult]
      rfl
    | false =>
      have hnext := hrule t'
      cases hstatement : g.statement t' with
      | error e t'' =>
        refine .inl ⟨e, t'', ?_, ?_⟩
        · simp only [statementListRound, Bind.bind, EStateM.bind, hresult, Bool.false_eq_true,
            if_false, hstatement]
        · exact fun hfailed => (hnext.of_error hstatement hfailed).trans hend
      | ok statement t'' =>
        replace hnext := (hnext.of_ok hstatement).trans hend
        have hmore := ReadsList.snoc hread hresult hstatement
        have hbefore : t''.context.strict =
            (s.context.strict || prologueIsStrict list.statements.reverse) :=
          hnext.trans (hread.strict_eq hrule hdone)
        obtain ⟨directive, hdirective⟩ : ∃ directive,
            (if list.inPrologue then statement.directive? else none) = directive := ⟨_, rfl⟩
        have hstrict : (t''.context.strict ||
            prologueIsStrict (list.statements.reverse ++ [statement])) =
            (t''.context.strict || directive == some "use strict") := by
          rw [hbefore, prologueIsStrict_snoc, ← hdirective, hprologue]
          cases list.statements.reverse.all (·.directive?.isSome) <;>
            cases prologueIsStrict list.statements.reverse <;> simp
        refine .inr (.inr ⟨⟨statement :: list.statements, directive.isSome⟩,
          { t'' with context := { t''.context with
              strict := t''.context.strict || directive == some "use strict" } }, ?_, ?_, ?_⟩)
        · simp only [statementListRound, Bind.bind, EStateM.bind, hresult, Bool.false_eq_true,
            if_false, hstatement, hdirective]
          cases directive == some "use strict" with
          | true =>
            simp only [Bool.or_true]
            rfl
          | false =>
            simp only [Bool.or_false]
            rfl
        · rw [hstrict] at hmore
          simpa only [List.reverse_cons] using hmore
        · rw [← hdirective, List.reverse_cons, List.all_append, ← hprologue]
          cases list.inPrologue <;> simp

/-- The rounds of a statement list, behind the statements that have been read. -/
theorem turnsStrict_rounds (hrule : g.statement.KeepsStrict) (hend : done.KeepsStrict)
    {s : ParserState σ} (bound : Nat) (list : ListRead) (t : ParserState σ)
    (hread : ReadsList g done s list.statements.reverse t)
    (hprologue : list.inPrologue = list.statements.reverse.all (·.directive?.isSome)) :
    TurnsStrict g done id s (repeatRounds (g.statementListRound done) bound list t) := by
  induction bound generalizing list t with
  | zero => exact ⟨_, t, hread, fun _ => hread.strict_eq hrule hend, by rintro _ _ ⟨⟩⟩
  | succ bound ih =>
    have hbefore := hread.strict_eq hrule hend
    rcases statementListRound_cases hrule hend hread hprologue with
      ⟨e, t', hround, hstrict⟩ | ⟨t', hround, hstrict⟩ | ⟨list', t', hround, hread', hprologue'⟩
    all_goals simp only [repeatRounds, Bind.bind, EStateM.bind, hround]
    · exact ⟨_, t, hread, fun hdone => (hstrict (hdone e rfl)).trans hbefore,
        by rintro _ _ ⟨⟩⟩
    · exact ⟨_, t, hread, fun _ => hstrict.trans hbefore, by rintro _ _ ⟨⟩; rfl⟩
    · exact ih list' t' hread' hprologue'

/-- A statement list turns strict through its own directives alone. -/
theorem turnsStrict_statementList (hrule : g.statement.KeepsStrict) (hend : done.KeepsStrict)
    (s : ParserState σ) : TurnsStrict g done id s (g.statementList done s) :=
  turnsStrict_rounds hrule hend g.bound {} s .nil rfl

/-- A list in front of a rule that keeps strictness. -/
theorem TurnsStrict.bind {statements : α → List Statement} {statements' : β → List Statement}
    {s : ParserState σ} {p : Parse σ α} {q : α → Parse σ β}
    (h : TurnsStrict g done statements s (p s)) (hq : ∀ a, (q a).KeepsStrict)
    (hsame : ∀ a t b t', q a t = .ok b t' → statements' b = statements a) :
    TurnsStrict g done statements' s ((p >>= q) s) := by
  obtain ⟨read, stop, hread, hstrict, hok⟩ := h
  simp only [Bind.bind, EStateM.bind]
  cases hp : p s with
  | error e t =>
    rw [hp] at hstrict
    refine ⟨read, stop, hread, fun hdone => ?_, by rintro _ _ ⟨⟩⟩
    obtain ⟨d, rfl⟩ := hdone e rfl
    exact hstrict (.error d)
  | ok a t =>
    rw [hp] at hstrict
    refine ⟨read, stop, hread, fun hdone => ?_, fun b t' hb => ?_⟩
    · exact ((hq a).of_completed hdone).trans (hstrict (.ok a))
    · exact (hsame a t b t' hb).trans (hok a t hp)

end

def atEndOfSource : Parse σ Bool := do return (← Parse.peek) == .endOfInput

/-- The rules that consist of a statement list, with what stands in front of the list and what ends
it. -/
inductive IsList : (∀ {σ : Type}, Grammar σ → Parse σ (List Statement)) →
    (∀ {σ : Type}, Parse σ Unit) → (∀ {σ : Type}, Parse σ Bool) → Prop where
  | inBraces : IsList (fun g => g.statementList (Parse.nextIs .rBrace)) (pure ())
      (Parse.nextIs .rBrace)
  | statements : IsList (fun g => g.statements) (pure ()) atEndOfSource
  | functionBody : IsList (fun g => g.functionBody) (Parse.expect .lBrace) (Parse.nextIs .rBrace)

section

variable {list : ∀ {σ : Type}, Grammar σ → Parse σ (List Statement)}
  {opening : ∀ {σ : Type}, Parse σ Unit} {done : ∀ {σ : Type}, Parse σ Bool}

theorem IsList.exists_script (h : IsList @list @opening @done) :
    ∃ script : Script (List Statement), ∀ {σ : Type} (g : Grammar σ), script.denote g = list g := by
  cases h with
  | inBraces => exact ⟨.statementList (Script.nextIs .rBrace), fun g => by simp⟩
  | statements => exact ⟨.statements, Script.denote_statements⟩
  | functionBody => exact ⟨.functionBody, Script.denote_functionBody⟩

/-- A question about the next token keeps strictness. -/
theorem keepsStrict_ask (f : Token → α) :
    Parse.KeepsStrict (do return f (← Parse.peek) : Parse σ α) :=
  .bind (.of_context (context_lexing _)) fun _ => .pure _

/-- A list turns strict through its own directives alone, and only if it is begun. -/
theorem IsList.turnsStrict (h : IsList @list @opening @done) {g : Grammar σ}
    (hrule : g.statement.KeepsStrict) (s : ParserState σ) :
    (∀ e s', opening s = .error e s' →
      list g s = .error e s' ∧ s'.context.strict = s.context.strict) ∧
    ∀ start, opening s = .ok () start →
      start.context.strict = s.context.strict ∧ TurnsStrict g done id start (list g s) := by
  cases h with
  | inBraces =>
    refine ⟨by rintro e s' ⟨⟩, ?_⟩
    rintro start ⟨⟩
    exact ⟨rfl, turnsStrict_statementList hrule (keepsStrict_ask _) s⟩
  | statements =>
    refine ⟨by rintro e s' ⟨⟩, ?_⟩
    rintro start ⟨⟩
    exact ⟨rfl, turnsStrict_statementList hrule (keepsStrict_ask _) s⟩
  | functionBody =>
    have hopening := congrArg Context.strict (context_expect .lBrace s)
    dsimp only
    refine ⟨fun e s' hresult => ?_, fun start hresult => ?_⟩
    · rw [hresult] at hopening
      refine ⟨?_, hopening⟩
      simp only [Grammar.functionBody, Bind.bind, EStateM.bind, hresult]
    · rw [hresult] at hopening
      refine ⟨hopening, ?_⟩
      have hbody : g.functionBody s = (do
          let body ← g.statementList (Parse.nextIs .rBrace)
          Parse.expect .rBrace
          return body) start := by
        simp only [Grammar.functionBody, Bind.bind, EStateM.bind, hresult]
      rw [hbody]
      have hclose (body : List Statement) : Parse.KeepsStrict (do
          Parse.expect .rBrace
          return body : Parse σ (List Statement)) :=
        .bind (.of_context (context_expect .rBrace)) fun _ => .pure body
      refine (turnsStrict_statementList hrule (keepsStrict_ask _) start).bind hclose ?_
      intro body t body' t' hclose
      simp only [Bind.bind, EStateM.bind] at hclose
      cases hexpect : Parse.expect .rBrace t with
      | error e u =>
        rw [hexpect] at hclose
        cases hclose
      | ok _ u =>
        rw [hexpect] at hclose
        cases hclose
        rfl

end

end Grammar

/-! ## Parses, one after the other -/

/-- A rule that recurs keeps strictness. -/
theorem Recurring.keepsStrict (callee : Recurring α) (options : Options) (hooks : Hooks σ)
    (bound depth : Nat) : (callee.rule (.ofDepth options hooks bound depth)).KeepsStrict := by
  let _ := callee.bare
  induction depth generalizing α with
  | zero =>
    rw [callee.rule_zero]
    exact fun s hfailed => hfailed.elim nofun
  | succ depth ih =>
    rw [callee.rule_succ, ← callee.denote_script]
    have hlax : (callee.entry false).lax = false := by cases callee <;> rfl
    exact (callee.orderly_script false .nothing).keepsStrict hlax fun callee => ih callee

namespace Parser

/-- A parse leaves the context as it has found it, or fails with that of an arrow function left
over. -/
theorem run_returns (parser : Parser σ) : parser.run.Returns parser.state.context :=
  Procedure.returns parser.hooks parser.options _
    { parser.state with hooks := parser.hooks.reset parser.state.hooks }

/-- A program turns strict through its own directives alone. -/
theorem turnsStrict_program (parser : Parser σ) :
    Grammar.TurnsStrict parser.grammar Grammar.atEndOfSource Program.body
      { parser.state with hooks := parser.hooks.reset parser.state.hooks }
      (parser.grammar.program parser.state) := by
  have hrule : parser.grammar.statement.KeepsStrict :=
    Recurring.statement.keepsStrict parser.options parser.hooks _ _
  have hlist := (Grammar.IsList.statements.turnsStrict hrule
    { parser.state with hooks := parser.hooks.reset parser.state.hooks }).2 _ rfl
  have hstop (body : List Statement) : Parse.KeepsStrict (do
      let stop ← Parse.startPosition
      return ⟨body, ⟨⟨1, 0, 0⟩, stop⟩⟩ : Parse σ Program) :=
    .bind (.of_context (context_lexing _)) fun _ => .pure _
  refine hlist.2.bind hstop ?_
  intro body t program t' hstop
  simp only [Bind.bind, EStateM.bind] at hstop
  cases hstart : Parse.startPosition t with
  | error e u =>
    rw [hstart] at hstop
    cases hstop
  | ok stop u =>
    rw [hstart] at hstop
    cases hstop
    rfl

/-- The parses, among the first ones, that leave the context of an arrow function over. -/
def strandings (parser : Parser σ) (calls : Nat) : Nat :=
  (List.range calls).countP fun call => strands (parser.after call).run.2

/-- Each of these parses adds a function to those that seem to be around the code, if none is
broken off. -/
theorem functionDepth_after_eq (parser : Parser σ) (calls : Nat)
    (hdone : ∀ call < calls, Completed (parser.after call).parse.1) :
    (parser.after calls).state.context.functionDepth =
      parser.state.context.functionDepth + parser.strandings calls := by
  induction calls with
  | zero => simp [strandings, after]
  | succ calls ih =>
    have hearlier := ih fun call hcall => hdone call (by omega)
    have hcall := (parser.after calls).run_returns
    have hlast := hdone calls (by omega)
    rw [outcome_parse] at hlast
    rw [after, ← finalState_run, strandings, List.range_succ, List.countP_append]
    change _ = _ + (parser.strandings calls + _)
    cases hleft : strands (parser.after calls).run.2 with
    | false =>
      rw [(hcall.kept hlast hleft).functionDepth, hearlier]
      simp [hleft]
    | true =>
      rw [(hcall.stranded hlast hleft).functionDepth, hearlier]
      simp [hleft]
      omega

theorem strandings_eq_zero_iff (parser : Parser σ) (calls : Nat) :
    parser.strandings calls = 0 ↔
      ∀ call < calls, strands (parser.after call).run.2 = false := by
  simp [strandings, List.countP_eq_zero]

/-- The context in front of a parse is the first one, strictness apart, exactly if no parse before
has left one over. -/
theorem kept_after_iff (parser : Parser σ) (calls : Nat)
    (hdone : ∀ call < calls, Completed (parser.after call).parse.1) :
    parser.state.context.Kept (parser.after calls).state.context ↔
      ∀ call < calls, strands (parser.after call).run.2 = false := by
  constructor
  · intro hkept
    have hdepth := hkept.functionDepth
    rw [functionDepth_after_eq parser calls hdone] at hdepth
    rw [← strandings_eq_zero_iff]
    omega
  · intro hnone
    induction calls with
    | zero => exact .refl _
    | succ calls ih =>
      have hearlier := ih (fun call hcall => hdone call (by omega))
        fun call hcall => hnone call (by omega)
      have hlast := hdone calls (by omega)
      rw [outcome_parse] at hlast
      have hcall := (parser.after calls).run_returns.kept hlast (hnone calls (by omega))
      rw [finalState_run] at hcall
      exact hearlier.trans hcall

end Parser

/-- A rule that a script denotes leaves the context as it has found it, or fails with that of an
arrow function left over, unless its run is broken off. -/
theorem Script.exists_returns (script : Script α) (options : Options) (bound depth : Nat) :
    ∃ procedure : Procedure α, ∀ {σ : Type} (hooks : Hooks σ) (s : ParserState σ),
      script.denote (.ofDepth options hooks bound depth) s = (procedure.observe hooks options s).1 ∧
      (procedure.observe hooks options s).Returns s.context :=
  ⟨_, fun hooks s => ⟨Grammar.observe_plug script options hooks bound depth s,
    Procedure.returns hooks options _ s⟩⟩

section

variable {options : Options} {hooks : Hooks σ} {bound depth : Nat} {s s' : ParserState σ} {a : α}

theorem Script.context_eq_of_ok {script : Script α}
    (hstrict : (script.denote (.ofDepth options hooks bound depth)).KeepsStrict)
    (hok : script.denote (.ofDepth options hooks bound depth) s = .ok a s') :
    s'.context = s.context := by
  obtain ⟨procedure, hprocedure⟩ := script.exists_returns options bound depth
  obtain ⟨hrule, hreturns⟩ := hprocedure hooks s
  have hstrict := (hstrict s).of_ok hok
  rw [hok] at hrule
  have hdone : Completed (procedure.observe hooks options s).outcome := by
    rw [Observed.outcome, ← hrule]
    exact .ok a
  cases hleft : strands (procedure.observe hooks options s).2 with
  | false =>
    have hkept := hreturns.kept hdone hleft
    rw [← hrule] at hkept
    exact (Context.Kept.eq_iff hstrict).1 hkept
  | true =>
    obtain ⟨e, t, herror⟩ := hreturns.failed hleft
    rw [herror] at hrule
    cases hrule

/-- A rule leaves the context as it has found it if it succeeds. -/
theorem Grammar.IsRule.context_eq_of_ok {rule : ∀ {σ : Type}, Grammar σ → Parse σ α}
    (h : IsRule @rule) (hok : rule (.ofDepth options hooks bound depth) s = .ok a s') :
    s'.context = s.context := by
  have hstrict := h.isScripted.keepsStrict fun callee =>
    callee.keepsStrict options hooks bound depth
  obtain ⟨script, hdenote⟩ := h.isScripted.exists_script
  rw [← hdenote] at hstrict hok
  exact Script.context_eq_of_ok hstrict hok

theorem Recurring.context_eq_of_ok (callee : Recurring α)
    (hok : callee.rule (.ofDepth options hooks bound depth) s = .ok a s') :
    s'.context = s.context :=
  @Script.context_eq_of_ok _ _ _ _ _ _ _ _ _ (.call callee)
    (callee.keepsStrict options hooks bound depth) hok

end

/-- Every rule, in every grammar and from every state, ends in the context that it began in, unless
it fails and leaves that of an arrow function over; then there is exactly one function too many
around the code. A statement list does so too, except that a directive of its own turns strictness
on. Between two parses by one parser the context is the initial one, strictness apart, exactly if
no parse before has left one over; and only then is `return` refused as it is outside functions.
All of this is about runs that end with a value or an error of the source; one that is broken off
gives nothing back. -/
theorem context_kept_iff_not_strands (options : Options) :
    (∀ (bound depth : Nat) {α : Type} {rule : ∀ {σ : Type}, Grammar σ → Parse σ α},
      Grammar.IsRule @rule → ∃ procedure : Procedure α,
        ∀ {σ : Type} (hooks : Hooks σ) (s : ParserState σ),
          rule (.ofDepth options hooks bound depth) s = (procedure.observe hooks options s).1 ∧
          (procedure.observe hooks options s).Returns s.context ∧
          (Completed (outcomeOf (rule (.ofDepth options hooks bound depth) s)) →
            ((finalState (rule (.ofDepth options hooks bound depth) s)).context = s.context ↔
              strands (procedure.observe hooks options s).2 = false))) ∧
    (∀ (bound depth : Nat) {list : ∀ {σ : Type}, Grammar σ → Parse σ (List Statement)}
      {opening : ∀ {σ : Type}, Parse σ Unit} {done : ∀ {σ : Type}, Parse σ Bool},
      Grammar.IsList @list @opening @done → ∃ procedure : Procedure (List Statement),
        ∀ {σ : Type} (hooks : Hooks σ) (s : ParserState σ),
          list (.ofDepth options hooks bound depth) s = (procedure.observe hooks options s).1 ∧
          (procedure.observe hooks options s).Returns s.context ∧
          (Completed (outcomeOf (list (.ofDepth options hooks bound depth) s)) →
            (s.context.Kept (finalState (list (.ofDepth options hooks bound depth) s)).context ↔
              strands (procedure.observe hooks options s).2 = false)) ∧
          (∀ e s', opening s = .error e s' →
            list (.ofDepth options hooks bound depth) s = .error e s' ∧
              s'.context.strict = s.context.strict) ∧
          ∀ start, opening s = .ok () start → start.context.strict = s.context.strict ∧
            Grammar.TurnsStrict (.ofDepth options hooks bound depth) done id start
              (list (.ofDepth options hooks bound depth) s)) ∧
    ∀ (source : String) {σ : Type} (hooks : Hooks σ) (initial : σ) (calls : Nat),
      let parser := Parser.ofSource source options hooks initial
      ((∀ call < calls, Completed (parser.after call).parse.1) →
        (parser.state.context.Kept (parser.after calls).state.context ↔
          ∀ call < calls, strands (parser.after call).run.2 = false) ∧
        ((parser.after calls).state.context.allowsReturn = false ↔
          ∀ call < calls, strands (parser.after call).run.2 = false)) ∧
      Grammar.TurnsStrict (parser.after calls).grammar Grammar.atEndOfSource Program.body
        { (parser.after calls).state with
          hooks := (parser.after calls).hooks.reset (parser.after calls).state.hooks }
        ((parser.after calls).grammar.program (parser.after calls).state) := by
  refine ⟨fun bound depth α rule hrule => ?_, fun bound depth list opening done hlist => ?_,
    fun source σ hooks initial calls => ?_⟩
  · obtain ⟨script, hdenote⟩ := hrule.isScripted.exists_script
    obtain ⟨procedure, hprocedure⟩ := script.exists_returns options bound depth
    refine ⟨procedure, fun {σ} hooks s => ?_⟩
    obtain ⟨hdescribes, hreturns⟩ := hprocedure hooks s
    rw [hdenote] at hdescribes
    refine ⟨hdescribes, hreturns, fun hdone => ?_⟩
    have hkeeps := hrule.isScripted.keepsStrict fun callee =>
      callee.keepsStrict options hooks bound depth
    have hstrict := hkeeps.of_completed hdone
    rw [hdescribes] at hdone
    rw [← hreturns.kept_iff hdone, ← hdescribes]
    exact (Context.Kept.eq_iff hstrict).symm
  · obtain ⟨script, hdenote⟩ := hlist.exists_script
    obtain ⟨procedure, hprocedure⟩ := script.exists_returns options bound depth
    refine ⟨procedure, fun {σ} hooks s => ?_⟩
    obtain ⟨hdescribes, hreturns⟩ := hprocedure hooks s
    rw [hdenote] at hdescribes
    obtain ⟨hunopened, hopened⟩ :=
      hlist.turnsStrict (Recurring.statement.keepsStrict options hooks bound depth) s
    refine ⟨hdescribes, hreturns, fun hdone => ?_, hunopened, hopened⟩
    rw [hdescribes] at hdone
    rw [← hreturns.kept_iff hdone, ← hdescribes]
  · intro parser
    refine ⟨fun hdone => ⟨parser.kept_after_iff calls hdone, ?_⟩,
      (parser.after calls).turnsStrict_program⟩
    have hdepth : (parser.after calls).state.context.functionDepth = parser.strandings calls := by
      rw [parser.functionDepth_after_eq calls hdone]
      exact Nat.zero_add _
    rw [← parser.strandings_eq_zero_iff, Context.allowsReturn, hdepth]
    simp

/-- An arrow function whose body begins with a character that is no token: the parse fails with a
function too many around the code, and the next parse allows `return` outside of any function. -/
theorem return_allowed_after_failure :
    let parser := Parser.ofSource "x => @ return 1;" {} .privateNames {}
    (parser.parse.1 matches .error (.error _)) = true ∧
    ¬parser.state.context.Kept (parser.after 1).state.context ∧
    (parser.after 1).state.context.allowsReturn = true ∧
    (parser.after 1).parse.1.isOk = true := by
  decide +kernel

end EcmaScript
