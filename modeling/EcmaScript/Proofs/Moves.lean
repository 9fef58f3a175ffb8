import EcmaScript.Proofs.Consumed

/-!
The moves of a lexer in a run.

`Procedure.moves` lists what a run asks of its lexer, in order and up to a failure, each with the
lexer that is asked. The lexers form a chain: every move finds the lexer that the one before it has
left. So whatever a single step of the lexer preserves holds during all of a run.
-/

namespace EcmaScript

variable {σ α β : Type}

/-! ## Moves -/

structure LexMove where
  {α : Type}
  step : LexStep α
  lexer : Lexer

def LexMove.behind (move : LexMove) : Lexer := finalState (move.step.run move.lexer)

/-- What a step returns, if it does. -/
def returned {ε S : Type} : EStateM.Result ε S α → Option α
  | .ok a _ => some a
  | .error _ _ => none

/-- The token that the move consumes, or puts in the place of the one consumed last. -/
def LexMove.token? : LexMove → Option Token
  | ⟨.next, lexer⟩ => returned (Lexing.next lexer)
  | ⟨.rescanRegExp, lexer⟩ => returned (Lexing.rescanRegExp lexer)
  | ⟨.readTemplateContinuation, lexer⟩ => returned (Lexing.readTemplateContinuation lexer)
  | _ => none

/-- The moves of a step: a slash and a closing brace are consumed before they are read again. -/
def LexStep.moves : {α : Type} → LexStep α → Lexer → List LexMove
  | _, .regExp, lexer =>
    ⟨.next, lexer⟩ :: match Lexing.next lexer with
      | .ok _ behind => [⟨.rescanRegExp, behind⟩]
      | .error _ _ => []
  | _, .templateContinuation, lexer =>
    ⟨.next, lexer⟩ :: match Lexing.next lexer with
      | .ok _ behind => [⟨.readTemplateContinuation, behind⟩]
      | .error _ _ => []
  | _, step, lexer => [⟨step, lexer⟩]

/-- The moves of a run, also of one that fails. -/
def Procedure.moves (hooks : Hooks σ) (options : Options) :
    {α : Type} → Procedure α → ParserState σ → List LexMove
  | _, .bind first next, s =>
    first.moves hooks options s ++ match (first.observe hooks options s).1 with
      | .ok b s' => (next b).moves hooks options s'
      | .error _ _ => []
  | _, .lex step, s => step.moves s.lexer
  | _, .within region body, s =>
    body.moves hooks options { s with context := region.enter s.context }
  | _, .arrow isAsync body, s =>
    ⟨.peek, s.lexer⟩ ::
      match Parse.nextIs .lBrace { s with context := Grammar.enterArrow isAsync s.context } with
      | .ok isBlock inside => (body isBlock).moves hooks options inside
      | .error _ _ => []
  | _, .inClass body, s => body.moves hooks options { s with hooks := hooks.enterClass s.hooks }
  | _, .inMethod key body, s =>
    body.moves hooks options { s with hooks := (hooks.enterMethod key s.hooks).2 }
  | _, _, _ => []

/-! ## Chains -/

def Lexer.Leads : Lexer → List LexMove → Lexer → Prop
  | lexer, [], last => last = lexer
  | lexer, move :: moves, last => move.lexer = lexer ∧ Leads move.behind moves last

theorem Lexer.Leads.append {lexer middle last : Lexer} {moves more : List LexMove}
    (h : lexer.Leads moves middle) (h' : middle.Leads more last) :
    lexer.Leads (moves ++ more) last := by
  induction moves generalizing lexer with
  | nil => exact (show middle = lexer from h) ▸ h'
  | cons move moves ih => exact ⟨h.1, ih h.2⟩

/-- What every move keeps holds in front of each of them and at the end. -/
theorem Lexer.Leads.invariant {P : Lexer → Prop} (hkeeps : ∀ move : LexMove, P move.lexer → P move.behind)
    {lexer last : Lexer} {moves : List LexMove} (h : lexer.Leads moves last) (hlexer : P lexer) :
    (∀ move ∈ moves, P move.lexer) ∧ P last := by
  induction moves generalizing lexer with
  | nil => exact ⟨by simp, (show last = lexer from h) ▸ hlexer⟩
  | cons move moves ih =>
    obtain ⟨rfl, hrest⟩ := h
    obtain ⟨hmoves, hlast⟩ := ih hrest (hkeeps move hlexer)
    exact ⟨List.forall_mem_cons.2 ⟨hlexer, hmoves⟩, hlast⟩

theorem LexStep.leads_moves (step : LexStep α) (lexer : Lexer) :
    lexer.Leads (step.moves lexer) (finalState (step.run lexer)) := by
  cases step with
  | regExp =>
    refine ⟨rfl, ?_⟩
    simp only [LexMove.behind, LexStep.run, Bind.bind, EStateM.bind]
    cases hnext : Lexing.next lexer with
    | ok token behind => exact ⟨rfl, rfl⟩
    | error e behind => rfl
  | templateContinuation =>
    refine ⟨rfl, ?_⟩
    simp only [LexMove.behind, LexStep.run, Bind.bind, EStateM.bind]
    cases hnext : Lexing.next lexer with
    | ok token behind => exact ⟨rfl, rfl⟩
    | error e behind => rfl
  | _ => exact ⟨rfl, rfl⟩

theorem Parse.lexer_lexing (action : Lexing α) (s : ParserState σ) :
    (finalState (Parse.lexing action s)).lexer = finalState (action s.lexer) := by
  unfold Parse.lexing
  cases action s.lexer <;> rfl

/-- The moves of a run lead from the lexer at its start to the one at its end. -/
theorem Procedure.leads_moves (hooks : Hooks σ) (options : Options) (procedure : Procedure α)
    (s : ParserState σ) : s.lexer.Leads (procedure.moves hooks options s)
      (finalState (procedure.observe hooks options s).1).lexer := by
  induction procedure generalizing s with
  | pure a | raise d | exhaust | context | beStrict => rfl
  | lex step =>
    simp only [observe, Observed.finalState_ofResult, Parse.lexer_lexing]
    exact step.leads_moves s.lexer
  | bind first next ihfirst ihnext =>
    have hfirst := ihfirst s
    simp only [moves, observe]
    rcases hrun : first.observe hooks options s with ⟨result, events⟩
    rw [hrun] at hfirst
    cases result with
    | ok b s' => exact hfirst.append (ihnext b s')
    | error e s' =>
      rw [List.append_nil]
      exact hfirst
  | within region body ih =>
    simp only [observe, Observed.lexer_leaving]
    exact ih { s with context := region.enter s.context }
  | arrow isAsync body ih =>
    simp only [moves, observe, Parse.nextIs_eq]
    refine ⟨rfl, ?_⟩
    simp only [LexMove.behind, LexStep.run]
    cases Lexing.peek s.lexer with
    | ok token lexer =>
      simp only [Observed.lexer_leaving]
      exact ih _ { s with context := Grammar.enterArrow isAsync s.context, lexer }
    | error e lexer => rfl
  | declareMember name kind start =>
    simp only [observe, Observed.behind, Observed.finalState_ofResult, lexer_askName]
    rfl
  | referenceName name =>
    simp only [observe, Observed.behind, Observed.finalState_ofResult, lexer_askName]
    rfl
  | afterUnary e =>
    simp only [observe, Observed.behind, Observed.finalState_ofResult, Parse.lexer_hook]
    rfl
  | afterAtom atom next =>
    simp only [observe, Observed.behind, Observed.finalState_ofResult, Parse.lexer_hook]
    rfl
  | inClass body ih =>
    simp only [observe, Observed.behind]
    rw [Observed.apply_closedBy ParserState.lexer (Parse.lexer_hook hooks.exitClass)]
    exact ih { s with hooks := hooks.enterClass s.hooks }
  | inMethod key body ih =>
    simp only [observe, Observed.behind]
    rw [Observed.apply_closedBy ParserState.lexer fun _ => rfl]
    exact ih { s with hooks := (hooks.enterMethod key s.hooks).2 }

/-! ## The cursor behind the lookahead -/

/-- The cursor of the lexer stands at the end of the token that it holds, if it holds one. -/
def Lexer.IsSettled (lexer : Lexer) : Prop :=
  ∀ next, lexer.lookahead = some next → lexer.cursor.position = next.span.stop

theorem Lexer.isSettled_of_none {lexer : Lexer} (h : lexer.lookahead = none) : lexer.IsSettled :=
  fun next hnext => by
    rw [h] at hnext
    cases hnext

namespace Lexing

variable {lexer behind : Lexer}

/-- A token that is scanned ends at the cursor. -/
theorem stop_of_scanned {rules : List TokenRule} {cursor cursor' : Cursor} {next : Lookahead}
    (h : Scan.lookahead rules cursor = .ok next cursor') : cursor'.position = next.span.stop := by
  rw [Scan.lookahead_eq] at h
  split at h
  · cases h
  · split at h <;> cases h
    rfl

/-- A token that is taken out of the lexer ends at the cursor. -/
theorem rests_of_takeLookahead (hlexer : lexer.IsSettled) {next : Lookahead}
    (h : takeLookahead lexer = .ok next behind) :
    behind.lookahead = none ∧ behind.cursor.position = next.span.stop := by
  cases hknown : lexer.lookahead with
  | some known =>
    rw [takeLookahead_of_some hknown] at h
    cases h
    exact ⟨rfl, hlexer _ hknown⟩
  | none =>
    rw [takeLookahead_of_none hknown, scanToken_eq, scan] at h
    split at h <;> cases h
    rename_i hscan
    exact ⟨hknown, stop_of_scanned hscan⟩

theorem lookahead_of_takeLookahead_error {e : Failure} (h : takeLookahead lexer = .error e behind) :
    behind.lookahead = none := by
  cases hknown : lexer.lookahead with
  | some known =>
    rw [takeLookahead_of_some hknown] at h
    cases h
  | none =>
    rw [takeLookahead_of_none hknown, scanToken_eq, scan] at h
    split at h <;> cases h
    exact hknown

theorem isSettled_bind {p : Lexing α} {q : α → Lexing β} (hp : (finalState (p lexer)).IsSettled)
    (hq : ∀ a behind, behind.IsSettled → (finalState (q a behind)).IsSettled) :
    (finalState ((p >>= q) lexer)).IsSettled := by
  simp only [Bind.bind, EStateM.bind]
  cases hrun : p lexer with
  | ok a behind =>
    rw [hrun] at hp
    exact hq a behind hp
  | error e behind =>
    rw [hrun] at hp
    exact hp

theorem isSettled_lookahead (hlexer : lexer.IsSettled) :
    (finalState (lookahead lexer)).IsSettled := by
  cases htake : takeLookahead lexer with
  | ok next behind =>
    rw [lookahead_of_take htake]
    rintro _ ⟨⟩
    exact (rests_of_takeLookahead hlexer htake).2
  | error e behind =>
    have hlook : lookahead lexer = .error e behind := by
      simp only [lookahead, Bind.bind, EStateM.bind, htake]
    rw [hlook]
    exact Lexer.isSettled_of_none (lookahead_of_takeLookahead_error htake)

/-- Behind a token that has been consumed the cursor stands at its end, and nothing is held. -/
theorem rests_of_next (hlexer : lexer.IsSettled) {token : Token}
    (h : next lexer = .ok token behind) :
    behind.lookahead = none ∧ behind.cursor.position = behind.lastSpan.stop := by
  obtain ⟨taken, middle, htake, rfl, rfl⟩ := of_next h
  obtain ⟨hnone, hstop⟩ := rests_of_takeLookahead hlexer htake
  exact ⟨hnone, hstop⟩

theorem isSettled_next (hlexer : lexer.IsSettled) : (finalState (next lexer)).IsSettled := by
  cases hnext : next lexer with
  | ok token behind => exact Lexer.isSettled_of_none (rests_of_next hlexer hnext).1
  | error e behind =>
    cases htake : takeLookahead lexer with
    | ok taken middle =>
      rw [next_of_take htake] at hnext
      cases hnext
    | error e' middle =>
      simp only [next, Bind.bind, EStateM.bind, htake] at hnext
      cases hnext
      exact Lexer.isSettled_of_none (lookahead_of_takeLookahead_error htake)

theorem isSettled_rescan (lexer : Lexer) (action : Position → Scan Token) :
    (finalState (rescan action lexer)).IsSettled := by
  refine Lexer.isSettled_of_none ?_
  cases haction : action lexer.lastSpan.start lexer.cursor with
  | ok token stop => rw [rescan_of_ok haction]; rfl
  | error e stop => rw [rescan_of_error haction]; rfl

theorem isSettled_peekSecond (hlexer : lexer.IsSettled) :
    (finalState (peekSecond lexer)).IsSettled := by
  change (finalState ((next >>= fun _ => lookahead >>= fun second =>
    restore lexer.toLexerState >>= fun _ => pure (second.token, second.newlineBefore))
      lexer)).IsSettled
  exact isSettled_bind (isSettled_next hlexer) fun _ _ hfirst =>
    isSettled_bind (isSettled_lookahead hfirst) fun _ _ _ => hlexer

theorem isSettled_rescanRegExp (lexer : Lexer) : (finalState (rescanRegExp lexer)).IsSettled :=
  isSettled_rescan lexer fun start => do
    set (cursorBehind lexer.source start)
    Scan.regExp start

end Lexing

/-- Every move keeps the cursor at the end of the token that is held. -/
theorem LexMove.isSettled_behind (move : LexMove) (h : move.lexer.IsSettled) :
    move.behind.IsSettled := by
  obtain ⟨step, lexer⟩ := move
  have hlook {α : Type} (f : Lookahead → α) :
      (finalState ((do return f (← Lexing.lookahead) : Lexing α) lexer)).IsSettled :=
    Lexing.isSettled_bind (Lexing.isSettled_lookahead h) fun _ _ hbehind => hbehind
  cases step with
  | peek => exact hlook Lookahead.token
  | peekStart => exact hlook fun next => next.span.start
  | newlineBefore => exact hlook Lookahead.newlineBefore
  | next => exact Lexing.isSettled_next h
  | peekSecond => exact Lexing.isSettled_peekSecond h
  | lastEnd => exact h
  | rescanRegExp => exact Lexing.isSettled_rescanRegExp lexer
  | readTemplateContinuation => exact Lexing.isSettled_rescan lexer _
  | regExp =>
    exact Lexing.isSettled_bind (Lexing.isSettled_next h) fun _ behind _ =>
      Lexing.isSettled_rescanRegExp behind
  | templateContinuation =>
    exact Lexing.isSettled_bind (Lexing.isSettled_next h) fun _ behind _ =>
      Lexing.isSettled_rescan behind _

theorem Lexer.isSettled_ofSource (source : String) (rules : List TokenRule) :
    (Lexer.ofSource source rules).IsSettled :=
  isSettled_of_none rfl

end EcmaScript
