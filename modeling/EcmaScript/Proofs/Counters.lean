import EcmaScript.Proofs.Progress.Lexer
import EcmaScript.Proofs.Run

/-!
The counters of loops, switches and functions, in one run.

A loop body, a switch body, a function and an arrow function add one to a counter when they are
entered and take one away when they are left. The counter of functions is never at zero then. The
other two are put to zero in front of the body of an arrow function, and stay so if the first token
of the body cannot be scanned; a loop or switch around the arrow function then has nothing to take
away, and the run is broken off there. Nothing else breaks a run off, unless it has no steps left.
-/

namespace EcmaScript

variable {σ α : Type}

namespace Event

/-- If the event takes one from the counter of loops or switches, that counter is not at zero. -/
def LoopInRange : Event → Prop
  | .left .loopBody now => now.loopDepth ≠ 0
  | .left .switchBody now => now.switchDepth ≠ 0
  | _ => True

/-- If the event takes one from the counter of functions, that counter is not at zero. -/
def FunctionInRange : Event → Prop
  | .left (.function _ _ _) now => now.functionDepth ≠ 0
  | .left (.arrow _) now => now.functionDepth ≠ 0
  | _ => True

/-- The counters of a loop or switch around an arrow function are not put back. -/
def LosesDepth : Event → Prop
  | .stranded before => before.loopDepth ≠ 0 ∨ before.switchDepth ≠ 0
  | _ => False

def showsContext : Event → Bool
  | .left _ _ | .stranded _ => true
  | _ => false

@[simp] theorem showsContext_raised (failure : Failure) :
    (raised failure).showsContext = false := rfl

variable {event : Event}

theorem FunctionInRange.of_not_showsContext (h : event.showsContext = false) :
    event.FunctionInRange := by
  cases event <;> trivial

theorem LoopInRange.of_not_showsContext (h : event.showsContext = false) : event.LoopInRange := by
  cases event <;> trivial

theorem not_losesDepth_of_not_showsContext (h : event.showsContext = false) :
    ¬event.LosesDepth := by
  cases event <;> first | exact id | cases h

end Event

def LosesNone (events : List Event) : Prop := ∀ event ∈ events, ¬event.LosesDepth

theorem losesNone_append {first events : List Event} :
    LosesNone (first ++ events) ↔ LosesNone first ∧ LosesNone events :=
  List.forall_mem_append

theorem losesNone_or_exists (events : List Event) :
    LosesNone events ∨ ∃ event ∈ events, event.LosesDepth := by
  by_cases h : LosesNone events
  · exact .inl h
  · simpa [LosesNone] using Or.inr h

/-! ## The way into a region and out of it -/

namespace Context

/-- The same loops and switches, and no function less. -/
structure Counted (before after : Context) : Prop where
  loopDepth : after.loopDepth = before.loopDepth
  switchDepth : after.switchDepth = before.switchDepth
  functionDepth : before.functionDepth ≤ after.functionDepth

/-- The counters of a loop or switch are at zero where they were not, and there is no function
less. -/
structure Cleared (before after : Context) : Prop where
  inside : before.loopDepth ≠ 0 ∨ before.switchDepth ≠ 0
  loopDepth : after.loopDepth = 0
  switchDepth : after.switchDepth = 0
  functionDepth : before.functionDepth ≤ after.functionDepth

variable {before now : Context}

theorem Counted.refl (context : Context) : context.Counted context := ⟨rfl, rfl, Nat.le_refl _⟩

theorem Counted.trans {between after : Context} (h : before.Counted between)
    (h' : between.Counted after) : before.Counted after :=
  ⟨h'.loopDepth.trans h.loopDepth, h'.switchDepth.trans h.switchDepth,
    Nat.le_trans h.functionDepth h'.functionDepth⟩

theorem Counted.cleared {between after : Context} (h : before.Counted between)
    (h' : between.Cleared after) : before.Cleared after := by
  obtain ⟨hinside, hloop, hswitch, hfunction⟩ := h'
  rw [h.loopDepth, h.switchDepth] at hinside
  exact ⟨hinside, hloop, hswitch, Nat.le_trans h.functionDepth hfunction⟩

/-- A region at whose end the counters are what they were at its beginning is left. -/
theorem Counted.leave (region : Region) (h : (region.enter before).Counted now) :
    (∃ after, region.leave before now = some after ∧ before.Counted after) ∧
      (Event.left region now).LoopInRange ∧ (Event.left region now).FunctionInRange := by
  obtain ⟨strict, loopDepth, switchDepth, functionDepth, _, _, _, _⟩ := now
  obtain ⟨hloop, hswitch, hfunction⟩ := h
  cases region with
  | loopBody =>
    obtain rfl : loopDepth = before.loopDepth + 1 := hloop
    exact ⟨⟨_, rfl, rfl, hswitch, hfunction⟩, Nat.succ_ne_zero _, trivial⟩
  | switchBody =>
    obtain rfl : switchDepth = before.switchDepth + 1 := hswitch
    exact ⟨⟨_, rfl, hloop, rfl, hfunction⟩, Nat.succ_ne_zero _, trivial⟩
  | function isAsync isGenerator isMethod =>
    obtain ⟨depth, rfl⟩ := Nat.exists_eq_add_of_le' (Nat.le_trans (Nat.le_add_left 1 _) hfunction)
    exact ⟨⟨_, rfl, rfl, rfl, Nat.le_of_succ_le_succ hfunction⟩, trivial, Nat.succ_ne_zero _⟩
  | arrow isAsync =>
    obtain ⟨depth, rfl⟩ := Nat.exists_eq_add_of_le' (Nat.le_trans (Nat.le_add_left 1 _) hfunction)
    exact ⟨⟨_, rfl, rfl, rfl, Nat.le_of_succ_le_succ hfunction⟩, trivial, Nat.succ_ne_zero _⟩
  | staticBlock => exact ⟨⟨_, rfl, rfl, rfl, Nat.le_refl _⟩, trivial, trivial⟩
  | _ => exact ⟨⟨_, rfl, hloop, hswitch, hfunction⟩, trivial, trivial⟩

/-- Counters that have been put to zero stay so, until a loop or a switch is to be left. A function,
an arrow function and a static block begin with these counters at zero, so nothing that is put to
zero inside them gets out. -/
theorem Cleared.leave (region : Region) (h : (region.enter before).Cleared now) :
    (Event.left region now).FunctionInRange ∧
      (region.leave before now = none ∧ ¬(Event.left region now).LoopInRange ∨
        ∃ after, region.leave before now = some after ∧ before.Cleared after ∧
          (Event.left region now).LoopInRange) := by
  obtain ⟨strict, loopDepth, switchDepth, functionDepth, _, _, _, _⟩ := now
  obtain ⟨hinside, hloop, hswitch, hfunction⟩ := h
  obtain rfl : loopDepth = 0 := hloop
  obtain rfl : switchDepth = 0 := hswitch
  cases region with
  | loopBody => exact ⟨trivial, .inl ⟨rfl, fun h => h rfl⟩⟩
  | switchBody => exact ⟨trivial, .inl ⟨rfl, fun h => h rfl⟩⟩
  | function isAsync isGenerator isMethod =>
    exact absurd hinside (by simp [Region.enter, Grammar.enterFunction])
  | arrow isAsync => exact absurd hinside (by simp [Region.enter, Grammar.enterArrow])
  | staticBlock => exact absurd hinside (by simp [Region.enter, Grammar.enterStaticBlock])
  | _ => exact ⟨trivial, .inr ⟨_, rfl, ⟨hinside, rfl, rfl, hfunction⟩, trivial⟩⟩

end Context

/-! ## Steps of the lexer -/

/-- With rules that advance, a step of the lexer fails with an error of the source at most. -/
theorem LexStep.answers (step : LexStep α) : Lexing.Answers step.run := by
  cases step with
  | peek => exact Lexing.Answers.lookahead.bind fun _ => .pure _
  | next => exact .next
  | peekSecond => exact .peekSecond
  | peekStart => exact Lexing.Answers.lookahead.bind fun _ => .pure _
  | newlineBefore => exact Lexing.Answers.lookahead.bind fun _ => .pure _
  | lastEnd => exact .get fun _ _ => .pure _
  | rescanRegExp => exact .rescanRegExp
  | readTemplateContinuation => exact .readTemplateContinuation
  | regExp => exact Lexing.Answers.next.bind fun _ => .rescanRegExp
  | templateContinuation => exact Lexing.Answers.next.bind fun _ => .readTemplateContinuation

/-! ## Runs -/

namespace Observed

/-- The run is broken off by a step that is out of range. -/
def Overruns (o : Observed σ α) : Prop := o.outcome = .error .overrun

theorem not_overruns_of_ok {a : α} {t : ParserState σ} {events : List Event} :
    ¬Overruns (.ok a t, events) := by
  intro h
  cases h

theorem not_overruns_of_error {d : Diagnostic} {t : ParserState σ} {events : List Event} :
    ¬Overruns ((.error (.error d) t, events) : Observed σ α) := by
  intro h
  cases h

/-- How a run from a state ends. If it loses no counter, all decrements are in range, and what has
been counted is what it was. If it loses one, it breaks off at a decrement, or it fails and has put
the counters to zero. Nothing but a decrement breaks it off. -/
structure Counts (s : ParserState σ) (o : Observed σ α) : Prop where
  rules : (finalState o.1).lexer.rules = s.lexer.rules
  functionInRange : ∀ event ∈ o.2, event.FunctionInRange
  overruns_iff : o.Overruns ↔ ∃ event ∈ o.2, ¬event.LoopInRange
  keeps : LosesNone o.2 → ¬o.Overruns ∧
    (Completed o.outcome → s.context.Counted (finalState o.1).context)
  loses : (∃ event ∈ o.2, event.LosesDepth) → o.Overruns ∨
    (∃ d, o.outcome = .error (.error d)) ∧ s.context.Cleared (finalState o.1).context

namespace Counts

variable {s : ParserState σ} {o : Observed σ α}

/-- A step that shows no context and fails with an error of the source at most. -/
theorem quiet (hrules : (finalState o.1).lexer.rules = s.lexer.rules)
    (hcontext : s.context.Counted (finalState o.1).context) (houtcome : ¬o.Overruns)
    (hevents : ∀ event ∈ o.2, event.showsContext = false) : o.Counts s where
  rules := hrules
  functionInRange event hmem := .of_not_showsContext (hevents event hmem)
  overruns_iff := by
    refine ⟨fun h => absurd h houtcome, ?_⟩
    rintro ⟨event, hmem, hout⟩
    exact absurd (.of_not_showsContext (hevents event hmem)) hout
  keeps _ := ⟨houtcome, fun _ => hcontext⟩
  loses := by
    rintro ⟨event, hmem, hloses⟩
    exact absurd hloses (Event.not_losesDepth_of_not_showsContext (hevents event hmem))

theorem ok (a : α) {t : ParserState σ} (hrules : t.lexer.rules = s.lexer.rules)
    (hcontext : s.context.Counted t.context) : Counts s ((.ok a t, []) : Observed σ α) :=
  .quiet hrules hcontext (by simp [Overruns, Observed.outcome]) (List.forall_mem_nil _)

theorem refused (d : Diagnostic) {t : ParserState σ} (hrules : t.lexer.rules = s.lexer.rules)
    (hcontext : s.context.Counted t.context) :
    Counts s ((.error (.error d) t, [.raised (.error d)]) : Observed σ α) :=
  .quiet hrules hcontext (by simp [Overruns, Observed.outcome]) (by simp [Event.showsContext])

/-- A step in which nothing is out of range. -/
theorem ofResult {r : EStateM.Result Failure (ParserState σ) α}
    (hrules : (finalState r).lexer.rules = s.lexer.rules)
    (hcontext : (finalState r).context = s.context)
    (hfails : ∀ e t, r = .error e t → ∃ d, e = .error d) : (Observed.ofResult r).Counts s := by
  cases r with
  | ok a t => exact .ok a hrules (hcontext ▸ .refl _)
  | error e t =>
    obtain ⟨d, rfl⟩ := hfails e t rfl
    exact .refused d hrules (hcontext ▸ .refl _)

/-- Only the outcome, the context and the events that show one count. -/
theorem congr {β : Type} {o' : Observed σ β} (h : o.Counts s)
    (hrules : (finalState o'.1).lexer.rules = (finalState o.1).lexer.rules)
    (hcontext : (finalState o'.1).context = (finalState o.1).context)
    (hoverruns : o'.Overruns ↔ o.Overruns)
    (hcompleted : Completed o'.outcome → Completed o.outcome)
    (herror : (∃ d, o.outcome = .error (.error d)) → ∃ d, o'.outcome = .error (.error d))
    (hevents : ∀ event : Event, event.showsContext = true → (event ∈ o'.2 ↔ event ∈ o.2)) :
    o'.Counts s := by
  have hall {P : Event → Prop} (hP : ∀ event, event.showsContext = false → P event) :
      (∀ event ∈ o'.2, P event) ↔ ∀ event ∈ o.2, P event := by
    refine forall_congr' fun event => ?_
    cases hshows : event.showsContext with
    | false => exact ⟨fun _ _ => hP event hshows, fun _ _ => hP event hshows⟩
    | true => rw [hevents event hshows]
  have hloop := hall (P := Event.LoopInRange) fun _ => .of_not_showsContext
  have hloses := hall (P := fun event => ¬event.LosesDepth)
    fun _ => Event.not_losesDepth_of_not_showsContext
  refine ⟨hrules.trans h.rules, (hall fun _ => .of_not_showsContext).2 h.functionInRange, ?_, ?_, ?_⟩
  · rw [hoverruns, h.overruns_iff]
    simpa only [Classical.not_forall, exists_prop] using (not_congr hloop).symm
  · intro hnone
    obtain ⟨houtcome, hcounted⟩ := h.keeps (hloses.1 hnone)
    exact ⟨mt hoverruns.1 houtcome, fun hdone => hcontext ▸ hcounted (hcompleted hdone)⟩
  · intro hlost
    have hlost' : ∃ event ∈ o.2, event.LosesDepth := by
      simpa using mt hloses.2 (by simpa using hlost)
    exact (h.loses hlost').imp hoverruns.2 fun ⟨hfailed, hcleared⟩ =>
      ⟨herror hfailed, hcontext ▸ hcleared⟩

/-- An event that shows no context, in front of the run. -/
theorem behind {event : Event} (hevent : event.showsContext = false) (h : o.Counts s) :
    (o.behind event).Counts s := by
  refine h.congr rfl rfl .rfl id id fun other hother => ?_
  have hne : other ≠ event := by
    rintro rfl
    rw [hevent] at hother
    cases hother
  simp [Observed.behind, hne]

/-- A closing step that leaves the context alone and fails with an error of the source at most. -/
theorem closedBy {close : Parse σ Unit} {event : ParserState σ → Event} (h : o.Counts s)
    (hevent : ∀ t, (event t).showsContext = false)
    (hrules : ∀ t, (finalState (close t)).lexer.rules = t.lexer.rules)
    (hcontext : ∀ t, (finalState (close t)).context = t.context)
    (hfails : ∀ e t t', close t = .error e t' → ∃ d, e = .error d) :
    (o.closedBy close event).Counts s := by
  obtain ⟨result, events⟩ := o
  have hclosing (t : ParserState σ) (other : Event) (hother : other.showsContext = true) :
      other ≠ event t ∧ ∀ failure, other ≠ .raised failure := by
    refine ⟨?_, ?_⟩
    · rintro rfl
      rw [hevent] at hother
      cases hother
    · rintro failure rfl
      cases hother
  rcases result with ⟨a, t⟩ | ⟨d | _ | _, t⟩
  · have hend := hrules t
    have hend' := hcontext t
    simp only [Observed.closedBy]
    cases hclose : close t with
    | ok u t' =>
      rw [hclose] at hend hend'
      refine h.congr hend hend' (by simp [Overruns, Observed.outcome]) (fun _ => .ok a)
        (by simp [Observed.outcome]) fun other hother => ?_
      simp [hclosing t other hother]
    | error e t' =>
      rw [hclose] at hend hend'
      obtain ⟨d, rfl⟩ := hfails e t t' hclose
      refine h.congr hend hend' (by simp [Overruns, Observed.outcome]) (fun _ => .ok a)
        (by simp [Observed.outcome]) fun other hother => ?_
      simp [hclosing t other hother]
  · have hend := hrules t
    have hend' := hcontext t
    simp only [Observed.closedBy]
    cases hclose : close t with
    | ok u t' =>
      rw [hclose] at hend hend'
      refine h.congr hend hend' (by simp [Overruns, Observed.outcome]) (fun _ => .error d)
        (fun _ => ⟨d, rfl⟩) fun other hother => ?_
      simp [hclosing t other hother]
    | error e t' =>
      rw [hclose] at hend hend'
      obtain ⟨late, rfl⟩ := hfails e t t' hclose
      refine h.congr hend hend' (by simp [Overruns, Observed.outcome]) (fun _ => .error d)
        (fun _ => ⟨d, rfl⟩) fun other hother => ?_
      simp [hclosing t other hother]
  · exact h
  · exact h

/-- A run that succeeds loses nothing. -/
theorem losesNone_of_ok {a : α} {t : ParserState σ} {events : List Event}
    (h : Counts s (.ok a t, events)) : LosesNone events := by
  refine (losesNone_or_exists events).resolve_right fun hlost => ?_
  rcases h.loses hlost with hover | ⟨⟨d, hfailed⟩, -⟩
  · cases hover
  · cases hfailed

theorem losesNone_snoc {events : List Event} {region : Region} {now : Context} :
    LosesNone (events ++ [.left region now]) ↔ LosesNone events :=
  losesNone_append.trans (and_iff_left (List.forall_mem_singleton.2 id))

variable {inside : ParserState σ} {region : Region}

/-- The way out of a region that loses nothing: there is one, and it is in range. -/
theorem left (hrules : inside.lexer.rules = s.lexer.rules)
    (henter : inside.context = region.enter s.context) (h : o.Counts inside)
    (hnone : LosesNone o.2) (hdone : Completed o.outcome) :
    ∃ after, region.leave s.context (finalState o.1).context = some after ∧
      ∀ o' : Observed σ α, o'.outcome = o.outcome →
        o'.2 = o.2 ++ [.left region (finalState o.1).context] →
        finalState o'.1 = { finalState o.1 with context := after } → o'.Counts s := by
  obtain ⟨hover, hcounted⟩ := h.keeps hnone
  have hinside := hcounted hdone
  rw [henter] at hinside
  obtain ⟨⟨after, hleave, hafter⟩, hloop, hfunction⟩ := hinside.leave region
  refine ⟨after, hleave, fun o' houtcome hevents hfinal => ⟨?_, ?_, ?_, fun _ => ⟨?_, fun _ => ?_⟩, ?_⟩⟩
  · rw [hfinal]
    exact h.rules.trans hrules
  · rw [hevents, List.forall_mem_append]
    exact ⟨h.functionInRange, List.forall_mem_singleton.2 hfunction⟩
  · rw [Overruns, houtcome, hevents]
    refine h.overruns_iff.trans ⟨?_, ?_⟩
    · rintro ⟨event, hmem, hout⟩
      exact ⟨event, List.mem_append_left _ hmem, hout⟩
    · rintro ⟨event, hmem, hout⟩
      rcases List.mem_append.1 hmem with hmem | hmem
      · exact ⟨event, hmem, hout⟩
      · exact absurd (List.mem_singleton.1 hmem ▸ hloop) hout
  · rwa [Overruns, houtcome]
  · rw [hfinal]
    exact hafter
  · rw [hevents]
    rintro ⟨event, hmem, hlost⟩
    exact absurd hlost (losesNone_snoc.2 hnone event hmem)

/-- The way out of a region behind an error with which a counter has been lost. -/
theorem left_cleared {d : Diagnostic} {t : ParserState σ} {events : List Event}
    (hrules : inside.lexer.rules = s.lexer.rules)
    (henter : inside.context = region.enter s.context)
    (h : Counts inside ((.error (.error d) t, events) : Observed σ α))
    (hlost : ∃ event ∈ events, event.LosesDepth) :
    (Observed.leaving region s.context ((.error (.error d) t, events) : Observed σ α)).Counts s := by
  have hcleared := ((h.loses hlost).resolve_left not_overruns_of_error).2
  rw [henter] at hcleared
  have hloop : ∀ event ∈ events, event.LoopInRange := by
    have hrange := mt h.overruns_iff.2 not_overruns_of_error
    simpa using hrange
  obtain ⟨hfunction, ⟨hleave, hout⟩ | ⟨after, hleave, hafter, hin⟩⟩ := hcleared.leave region
  · have hrun : Observed.leaving region s.context ((.error (.error d) t, events) : Observed σ α) =
        (.error .overrun t, events ++ [.left region t.context, .raised .overrun]) := by
      simp only [Observed.leaving, Observed.closedBy, Parse.leaving]
      rw [show region.leave s.context t.context = none from hleave]
    rw [hrun]
    have hleft : Event.left region t.context ∈
        events ++ [.left region t.context, .raised .overrun] := by simp
    refine ⟨h.rules.trans hrules, ?_, ⟨fun _ => ⟨_, hleft, hout⟩, fun _ => rfl⟩, fun hnone => ?_,
      fun _ => .inl rfl⟩
    · refine List.forall_mem_append.2 ⟨h.functionInRange, List.forall_mem_cons.2 ⟨hfunction, ?_⟩⟩
      exact List.forall_mem_singleton.2 trivial
    · obtain ⟨event, hmem, hevent⟩ := hlost
      exact absurd hevent (hnone event (List.mem_append_left _ hmem))
  · have hrun : Observed.leaving region s.context ((.error (.error d) t, events) : Observed σ α) =
        (.error (.error d) { t with context := after }, events ++ [.left region t.context]) := by
      simp only [Observed.leaving, Observed.closedBy, Parse.leaving]
      rw [show region.leave s.context t.context = some after from hleave]
    rw [hrun]
    refine ⟨h.rules.trans hrules, ?_, iff_of_false not_overruns_of_error ?_, fun hnone => ?_,
      fun _ => .inr ⟨⟨d, rfl⟩, hafter⟩⟩
    · exact List.forall_mem_append.2 ⟨h.functionInRange, List.forall_mem_singleton.2 hfunction⟩
    · rintro ⟨event, hmem, hout⟩
      rcases List.mem_append.1 hmem with hmem | hmem
      · exact absurd (hloop event hmem) hout
      · exact absurd (List.mem_singleton.1 hmem ▸ hin) hout
    · obtain ⟨event, hmem, hevent⟩ := hlost
      exact absurd hevent (hnone event (List.mem_append_left _ hmem))

/-- A run that is broken off has no more to count. -/
theorem of_not_completed (hrules : inside.lexer.rules = s.lexer.rules) (h : o.Counts inside)
    (hbroken : ¬Completed o.outcome) : o.Counts s where
  rules := h.rules.trans hrules
  functionInRange := h.functionInRange
  overruns_iff := h.overruns_iff
  keeps hnone := ⟨(h.keeps hnone).1, fun hdone => absurd hdone hbroken⟩
  loses hlost := .inl ((h.loses hlost).resolve_right fun ⟨⟨d, hfailed⟩, _⟩ =>
    hbroken (hfailed ▸ .error d))

/-- Only the rules and the context of the state count. -/
theorem of_same (hrules : inside.lexer.rules = s.lexer.rules)
    (hcontext : inside.context = s.context) (h : o.Counts inside) : o.Counts s where
  rules := h.rules.trans hrules
  functionInRange := h.functionInRange
  overruns_iff := h.overruns_iff
  keeps := hcontext ▸ h.keeps
  loses := hcontext ▸ h.loses

/-- A run inside a region and the way out of it. -/
theorem leaving (hrules : inside.lexer.rules = s.lexer.rules)
    (henter : inside.context = region.enter s.context) (h : o.Counts inside) :
    (o.leaving region s.context).Counts s := by
  obtain ⟨result, events⟩ := o
  rcases result with ⟨a, t⟩ | ⟨d | _ | _, t⟩
  · obtain ⟨after, hleave, hcounts⟩ := h.left hrules henter h.losesNone_of_ok (.ok a)
    have hrun : Observed.leaving region s.context (.ok a t, events) =
        (.ok a { t with context := after }, events ++ [.left region t.context]) := by
      simp only [Observed.leaving, Observed.closedBy, Parse.leaving]
      rw [show region.leave s.context t.context = some after from hleave]
    rw [hrun]
    exact hcounts _ rfl rfl rfl
  · rcases losesNone_or_exists events with hnone | hlost
    · obtain ⟨after, hleave, hcounts⟩ := h.left hrules henter hnone (.error d)
      have hrun : Observed.leaving region s.context ((.error (.error d) t, events) : Observed σ α) =
          (.error (.error d) { t with context := after }, events ++ [.left region t.context]) := by
        simp only [Observed.leaving, Observed.closedBy, Parse.leaving]
        rw [show region.leave s.context t.context = some after from hleave]
      rw [hrun]
      exact hcounts _ rfl rfl rfl
    · exact h.left_cleared hrules henter hlost
  · exact h.of_not_completed hrules not_completed_overrun
  · exact h.of_not_completed hrules not_completed_exhausted

theorem andThen {β : Type} {o : Observed σ β} {next : β → ParserState σ → Observed σ α}
    (h : o.Counts s)
    (hnext : ∀ b t, t.lexer.rules = s.lexer.rules → (next b t).Counts t) :
    (o.andThen next).Counts s := by
  obtain ⟨result, events⟩ := o
  cases result with
  | error e t =>
    refine h.congr rfl rfl ?_ ?_ ?_ fun _ _ => .rfl <;>
      simp [Overruns, Completed, Observed.outcome, Observed.andThen]
  | ok b t =>
    have hnone := h.losesNone_of_ok
    have hcounted := (h.keeps hnone).2 (.ok b)
    have hloop : ∀ event ∈ events, event.LoopInRange := by
      have hrange := mt h.overruns_iff.2 not_overruns_of_ok
      simpa using hrange
    have hrest := hnext b t h.rules
    refine ⟨hrest.rules.trans h.rules, ?_, hrest.overruns_iff.trans ⟨?_, ?_⟩, fun hnone' => ?_, ?_⟩
    · exact List.forall_mem_append.2 ⟨h.functionInRange, hrest.functionInRange⟩
    · rintro ⟨event, hmem, hout⟩
      exact ⟨event, List.mem_append_right _ hmem, hout⟩
    · rintro ⟨event, hmem, hout⟩
      rcases List.mem_append.1 hmem with hmem | hmem
      · exact absurd (hloop event hmem) hout
      · exact ⟨event, hmem, hout⟩
    · obtain ⟨hover, hkeeps⟩ := hrest.keeps (losesNone_append.1 hnone').2
      exact ⟨hover, fun hdone => hcounted.trans (hkeeps hdone)⟩
    · rintro ⟨event, hmem, hlost⟩
      rcases List.mem_append.1 hmem with hmem | hmem
      · exact absurd hlost (hnone event hmem)
      · exact (hrest.loses ⟨event, hmem, hlost⟩).imp_right (.imp_right hcounted.cleared)

/-- An arrow function whose first token cannot be scanned. -/
theorem stranded (isAsync : Bool) (d : Diagnostic) {lexer : Lexer}
    (hrules : lexer.rules = s.lexer.rules) :
    Counts s ((.error (.error d) ⟨lexer, Grammar.enterArrow isAsync s.context, s.hooks⟩,
      [.stranded s.context, .raised (.error d)]) : Observed σ α) where
  rules := hrules
  functionInRange := by simp [Event.FunctionInRange]
  overruns_iff := iff_of_false not_overruns_of_error (by simp [Event.LoopInRange])
  keeps hnone := by
    have hzero : ¬(s.context.loopDepth ≠ 0 ∨ s.context.switchDepth ≠ 0) :=
      hnone (.stranded s.context) List.mem_cons_self
    refine ⟨not_overruns_of_error, fun _ => ⟨?_, ?_, Nat.le_succ _⟩⟩
    · exact (Classical.not_not.1 (not_or.1 hzero).1).symm
    · exact (Classical.not_not.1 (not_or.1 hzero).2).symm
  loses hlost := by
    obtain ⟨event, hmem, hevent⟩ := hlost
    simp only [List.mem_cons, List.not_mem_nil, or_false] at hmem
    rcases hmem with rfl | rfl
    · exact .inr ⟨⟨d, rfl⟩, hevent, rfl, rfl, Nat.le_succ _⟩
    · cases hevent

end Counts

end Observed

/-- Calling a hook fails with an error of the source at most. -/
theorem Parse.error_of_hook {action : Hook σ α} {e : Failure} {s t : ParserState σ}
    (h : Parse.hook action s = .error e t) : ∃ d, e = .error d := by
  unfold Parse.hook at h
  split at h
  · cases h
  · cases h
    exact ⟨_, rfl⟩

theorem Procedure.error_of_askName {question : Hook σ Bool} {name : PrivateName} {e : Failure}
    {s t : ParserState σ} (h : askName question name s = .error e t) : ∃ d, e = .error d := by
  simp only [askName, Bind.bind, EStateM.bind] at h
  cases hasked : Parse.hook question s with
  | ok accepted s' =>
    rw [hasked] at h
    cases accepted <;> cases h
    exact ⟨_, rfl⟩
  | error e' s' =>
    rw [hasked] at h
    cases h
    exact Parse.error_of_hook hasked

/-- A question about a private name. -/
theorem Observed.Counts.asked (question : Hook σ Bool) (name : PrivateName) {event : Event}
    (hevent : event.showsContext = false) (s : ParserState σ) :
    ((Observed.ofResult (Procedure.askName question name s)).behind event).Counts s :=
  .behind hevent (.ofResult (congrArg _ (Procedure.lexer_askName question name s))
    (context_askName question name s) fun _ _ => Procedure.error_of_askName)

/-- A hook without an answer. -/
theorem Observed.Counts.called (action : Hook σ Unit) {event : Event}
    (hevent : event.showsContext = false) (s : ParserState σ) :
    ((Observed.ofResult (Parse.hook action s)).behind event).Counts s :=
  .behind hevent (.ofResult (congrArg _ (Parse.lexer_hook action s)) (context_hook action s)
    fun _ _ => Parse.error_of_hook)

/-- Every run of every procedure counts. -/
theorem Procedure.counts (hooks : Hooks σ) (options : Options) (procedure : Procedure α)
    (s : ParserState σ) (hrules : ∀ rule ∈ s.lexer.rules, rule.Advances) :
    (procedure.observe hooks options s).Counts s := by
  induction procedure generalizing s with
  | pure a => exact .ok a rfl (.refl _)
  | bind first next ihfirst ihnext =>
    rw [Procedure.observe]
    exact (ihfirst s hrules).andThen fun b t ht => ihnext b t (ht ▸ hrules)
  | raise d => exact .refused d rfl (.refl _)
  | exhaust =>
    rw [Procedure.observe]
    exact .quiet rfl (.refl _) (by simp [Observed.Overruns, Observed.outcome])
      (by simp [Event.showsContext])
  | lex step =>
    have hstep := step.answers s.lexer hrules
    rw [Procedure.observe, Parse.lexing]
    cases hresult : step.run s.lexer with
    | ok a lexer =>
      have hend := hstep.of_ok hresult
      exact .ok a hend (.refl _)
    | error e lexer =>
      obtain ⟨hend, d, rfl⟩ := hstep.of_error hresult
      exact .refused d hend (.refl _)
  | context => exact .ok s.context rfl (.refl _)
  | beStrict => exact .ok () rfl ⟨rfl, rfl, Nat.le_refl _⟩
  | within region body ih =>
    rw [Procedure.observe]
    refine .leaving ?_ ?_ (ih { s with context := region.enter s.context } hrules) <;> rfl
  | arrow isAsync body ih =>
    have hstep := LexStep.peek.answers s.lexer hrules
    simp only [Procedure.observe, Parse.nextIs_eq]
    cases hpeek : Lexing.peek s.lexer with
    | ok token lexer =>
      have hend := hstep.of_ok hpeek
      have hbody := ih (token == .punctuator .lBrace)
        ⟨lexer, Grammar.enterArrow isAsync s.context, s.hooks⟩ (hend ▸ hrules)
      exact hbody.leaving hend rfl
    | error e lexer =>
      obtain ⟨hend, d, rfl⟩ := hstep.of_error hpeek
      exact .stranded isAsync d hend
  | declareMember name kind start =>
    rw [Procedure.observe]
    exact .asked _ name rfl s
  | referenceName name =>
    rw [Procedure.observe]
    exact .asked _ name rfl s
  | afterUnary e =>
    rw [Procedure.observe]
    exact .called _ rfl s
  | afterAtom atom next =>
    rw [Procedure.observe]
    exact .called _ rfl s
  | inClass body ih =>
    have hbody := (ih { s with hooks := hooks.enterClass s.hooks } hrules).closedBy
      (fun _ => (rfl : Event.exitClass.showsContext = false))
      (fun t => congrArg Lexer.rules (Parse.lexer_hook hooks.exitClass t))
      (context_hook hooks.exitClass) fun _ _ _ => Parse.error_of_hook
    refine .behind rfl (.of_same ?_ ?_ hbody) <;> rfl
  | inMethod key body ih =>
    let close : Parse σ Unit :=
      Parse.update fun s' => ((), hooks.exitMethod (hooks.enterMethod key s.hooks).1 s')
    have hfails (e : Failure) (t t' : ParserState σ) (h : close t = .error e t') :
        ∃ d, e = .error d := by cases h
    have hbody := (ih { s with hooks := (hooks.enterMethod key s.hooks).2 } hrules).closedBy
      (fun _ => (rfl : (Event.exitMethod (hooks.enterMethod key s.hooks).1).showsContext = false))
      (fun _ => rfl) (fun _ => rfl) hfails
    refine .behind rfl (.of_same ?_ ?_ hbody) <;> rfl

namespace Parser

/-- A parse counts, if the rules of its lexer advance. -/
theorem run_counts (parser : Parser σ)
    (hrules : ∀ rule ∈ parser.state.lexer.rules, rule.Advances) : parser.run.Counts parser.state := by
  refine .of_same ?_ ?_ (Procedure.counts parser.hooks parser.options _
    { parser.state with hooks := parser.hooks.reset parser.state.hooks } hrules) <;> rfl

/-- A parse is broken off exactly where a counter of loops or switches would be taken below zero. -/
theorem overrun_iff (parser : Parser σ)
    (hrules : ∀ rule ∈ parser.state.lexer.rules, rule.Advances) :
    parser.parse.1 = .error .overrun ↔ ∃ event ∈ parser.run.2, ¬event.LoopInRange := by
  rw [outcome_parse]
  exact (parser.run_counts hrules).overruns_iff

end Parser

end EcmaScript
