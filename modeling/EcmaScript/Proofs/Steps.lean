import EcmaScript.Grammar
import EcmaScript.Proofs.Feed

/-!
Steps of a parse from one state to the next.

A step that succeeds leads from one state to one other. Looking at the next token leads to a state
that knows it, `LooksTo`, and every other look there, at the token, its start or the line in front
of it, leads nowhere else; consuming the token leads `behind` it.
-/

namespace EcmaScript

variable {σ α β : Type}

namespace Parse

/-- A rule made of two goes through a state between them. -/
theorem bind_eq_ok {p : Parse σ α} {q : α → Parse σ β} {s s' : ParserState σ} {b : β}
    (h : (p >>= q) s = .ok b s') :
    ∃ a between, p s = .ok a between ∧ q a between = .ok b s' := by
  simp only [Bind.bind, EStateM.bind] at h
  cases hp : p s with
  | ok a between =>
    rw [hp] at h
    exact ⟨a, between, rfl, h⟩
  | error e between =>
    rw [hp] at h
    cases h

/-- A rule made of two is the second one behind the first. -/
theorem bind_of_ok {p : Parse σ α} {q : α → Parse σ β} {s s' : ParserState σ} {a : α}
    (h : p s = .ok a s') : (p >>= q) s = q a s' := by
  simp only [Bind.bind, EStateM.bind, h]

/-- A result has the closing step behind it. -/
theorem closing_eq_ok {close : Parse σ Unit} {p : Parse σ α} {s t : ParserState σ} {a : α}
    (h : closing close p s = .ok a t) :
    ∃ between, p s = .ok a between ∧ close between = .ok () t := by
  unfold closing at h
  rcases hp : p s with ⟨b, between⟩ | ⟨d | _ | _, between⟩ <;> rw [hp] at h <;> dsimp only at h
  · cases hclose : close between with
    | ok _ last =>
      rw [hclose] at h
      cases h
      exact ⟨between, rfl, hclose⟩
    | error e last =>
      rw [hclose] at h
      cases h
  · rcases hclose : close between with ⟨_, _⟩ | ⟨_ | _ | _, _⟩ <;> rw [hclose] at h <;> cases h
  · cases h
  · cases h

theorem closing_of_ok {close : Parse σ Unit} {p : Parse σ α} {s between t : ParserState σ} {a : α}
    (hp : p s = .ok a between) (hclose : close between = .ok () t) :
    closing close p s = .ok a t := by
  simp only [closing, hp, hclose]

theorem leaving_eq_ok {leave : Context → Option Context} {s t : ParserState σ}
    (h : leaving leave s = .ok () t) :
    ∃ context, leave s.context = some context ∧ t = { s with context } := by
  unfold leaving at h
  cases hleave : leave s.context with
  | some context =>
    rw [hleave] at h
    cases h
    exact ⟨context, rfl, rfl⟩
  | none =>
    rw [hleave] at h
    cases h

theorem leaving_of_some {leave : Context → Option Context} {s : ParserState σ} {context : Context}
    (h : leave s.context = some context) : leaving leave s = .ok () { s with context } := by
  simp only [leaving, h]

theorem ensure_eq_ok {check : Except Diagnostic α} {s s' : ParserState σ} {a : α}
    (h : ensure check s = .ok a s') : check = .ok a ∧ s' = s := by
  cases check with
  | ok b =>
    cases h
    exact ⟨rfl, rfl⟩
  | error d => cases h

theorem ensure_of_ok {check : Except Diagnostic α} {a : α} (h : check = .ok a)
    (s : ParserState σ) : ensure check s = .ok a s := by
  subst h
  rfl

/-- A token that has been looked at is the next one. -/
theorem peek_of_lookahead {s : ParserState σ} {next : Lookahead}
    (h : s.lexer.lookahead = some next) : peek s = .ok next.token s := by
  obtain ⟨⟨⟨cursor, lookahead, lastSpan⟩, source, rules⟩, context, hooks⟩ := s
  cases h
  rfl

end Parse

/-- Taking the next token out of the lexer changes what has been scanned alone. -/
theorem Lexing.exists_cursor_of_takeLookahead {lexer lexer' : Lexer} {next : Lookahead}
    (h : takeLookahead lexer = .ok next lexer') :
    ∃ cursor, lexer' = { lexer with cursor, lookahead := none } := by
  cases hnext : lexer.lookahead with
  | some known =>
    rw [takeLookahead_of_some hnext] at h
    cases h
    exact ⟨lexer.cursor, rfl⟩
  | none =>
    rw [takeLookahead_of_none hnext, scanToken_eq, scan] at h
    cases hscan : Scan.lookahead lexer.rules lexer.cursor with
    | ok known cursor =>
      rw [hscan] at h
      cases h
      refine ⟨cursor, ?_⟩
      rw [← hnext]
    | error e cursor =>
      rw [hscan] at h
      cases h

namespace ParserState

/-- Looking at the next token leads to the state, which knows the token. -/
def LooksTo (s : ParserState σ) (next : Lookahead) (s' : ParserState σ) : Prop :=
  Parse.lexing Lexing.lookahead s = .ok next s'

def behind (s : ParserState σ) (next : Lookahead) : ParserState σ :=
  { s with lexer := { s.lexer with lookahead := none, lastSpan := next.span } }

namespace LooksTo

variable {s s' t t' : ParserState σ} {next other : Lookahead}

theorem unique (h : s.LooksTo next t) (h' : s.LooksTo other t') : next = other ∧ t = t' := by
  unfold LooksTo at h h'
  rw [h] at h'
  cases h'
  exact ⟨rfl, rfl⟩

/-- What the lexer does to look at the next token. -/
theorem cases (h : s.LooksTo next t) : ∃ behind, Lexing.takeLookahead s.lexer = .ok next behind ∧
    t = { s with lexer := { behind with lookahead := some next } } := by
  unfold LooksTo Parse.lexing at h
  cases htake : Lexing.takeLookahead s.lexer with
  | error e lexer =>
    have hfail : Lexing.lookahead s.lexer = .error e lexer := by
      change (Lexing.takeLookahead >>= fun _ => _) s.lexer = _
      simp only [Bind.bind, EStateM.bind, htake]
    rw [hfail] at h
    cases h
  | ok known lexer =>
    rw [Lexing.lookahead_of_take htake] at h
    cases h
    exact ⟨lexer, rfl, rfl⟩

theorem again (h : s.LooksTo next t) : t.LooksTo next t := by
  obtain ⟨behind, htake, rfl⟩ := h.cases
  unfold LooksTo Parse.lexing
  rw [Lexing.lookahead_of_take (Lexing.takeLookahead_again htake)]

/-- The next token is that of the lexer. -/
theorem of_lexer (h : s.LooksTo next t) (hlexer : s'.lexer = s.lexer) :
    s'.LooksTo next { s' with lexer := t.lexer } := by
  obtain ⟨behind, htake, rfl⟩ := h.cases
  unfold LooksTo Parse.lexing
  rw [hlexer, Lexing.lookahead_of_take htake]

theorem context_eq (h : s.LooksTo next t) : t.context = s.context := by
  obtain ⟨behind, htake, rfl⟩ := h.cases
  rfl

theorem hooks_eq (h : s.LooksTo next t) : t.hooks = s.hooks := by
  obtain ⟨behind, htake, rfl⟩ := h.cases
  rfl

/-- Looking at the next token changes what has been scanned alone. -/
theorem exists_cursor (h : s.LooksTo next t) :
    ∃ cursor, t = { s with lexer := { s.lexer with cursor, lookahead := some next } } := by
  obtain ⟨behind, htake, rfl⟩ := h.cases
  obtain ⟨cursor, rfl⟩ := Lexing.exists_cursor_of_takeLookahead htake
  exact ⟨cursor, rfl⟩

theorem lastSpan_eq (h : s.LooksTo next t) : t.lexer.lastSpan = s.lexer.lastSpan := by
  obtain ⟨cursor, rfl⟩ := h.exists_cursor
  rfl

theorem look {f : Lookahead → α} (h : s.LooksTo next t) :
    Parse.lexing (do return f (← Lexing.lookahead)) s = .ok (f next) t := by
  obtain ⟨behind, htake, rfl⟩ := h.cases
  simp only [Parse.lexing, Bind.bind, EStateM.bind, Lexing.lookahead_of_take htake]
  rfl

theorem peek (h : s.LooksTo next t) : Parse.peek s = .ok next.token t := h.look

theorem startPosition (h : s.LooksTo next t) : Parse.startPosition s = .ok next.span.start t :=
  h.look

theorem newlineBefore (h : s.LooksTo next t) : Parse.newlineBefore s = .ok next.newlineBefore t :=
  h.look

theorem nextIs (h : s.LooksTo next t) (symbol : Punctuator) :
    Parse.nextIs symbol s = .ok (next.token == .punctuator symbol) t := by
  unfold Parse.nextIs
  rw [Parse.bind_of_ok h.peek]
  rfl

theorem nextIsWord (h : s.LooksTo next t) (word : Keyword) :
    Parse.nextIsWord word s = .ok (next.token == .keyword word) t := by
  unfold Parse.nextIsWord
  rw [Parse.bind_of_ok h.peek]
  rfl

theorem next_eq (h : s.LooksTo next t) : Parse.next s = .ok next.token (t.behind next) := by
  obtain ⟨behind, htake, rfl⟩ := h.cases
  unfold Parse.next Parse.lexing
  rw [Lexing.next_of_take htake]
  obtain ⟨⟨cursor, lookahead, lastSpan⟩, source, rules⟩ := behind
  obtain rfl : lookahead = none := Lexing.lookahead_of_takeLookahead htake
  rfl

theorem skip (h : s.LooksTo next t) : Parse.skip s = .ok () (t.behind next) := by
  unfold Parse.skip
  rw [Parse.bind_of_ok h.next_eq]
  rfl

/-- Looking at the second token leads nowhere. -/
theorem peekSecond (h : s.LooksTo next s) (h' : (s.behind next).LooksTo other t) :
    Parse.peekSecond s = .ok (other.token, other.newlineBefore) s := by
  have hnext : Lexing.next s.lexer = .ok next.token (s.behind next).lexer := by
    have hnext := h.next_eq
    unfold Parse.next Parse.lexing at hnext
    cases hlex : Lexing.next s.lexer with
    | ok token lexer =>
      rw [hlex] at hnext
      cases hnext
      rfl
    | error e lexer =>
      rw [hlex] at hnext
      cases hnext
  have hother : Lexing.lookahead (s.behind next).lexer = .ok other t.lexer := by
    unfold LooksTo Parse.lexing at h'
    cases hlex : Lexing.lookahead (s.behind next).lexer with
    | ok known lexer =>
      rw [hlex] at h'
      cases h'
      rfl
    | error e lexer =>
      rw [hlex] at h'
      cases h'
  have hrun : Lexing.peekSecond s.lexer = (do
      let _ ← Lexing.next
      let second ← Lexing.lookahead
      Lexing.restore s.lexer.toLexerState
      return (second.token, second.newlineBefore)) s.lexer := rfl
  obtain ⟨cursor, rfl⟩ := h'.exists_cursor
  unfold Parse.peekSecond Parse.lexing
  rw [hrun]
  simp only [Bind.bind, EStateM.bind, hnext, hother]
  rfl

theorem accept (h : s.LooksTo next t) {symbol : Punctuator}
    (htoken : next.token = .punctuator symbol) :
    Parse.accept symbol s = .ok true (t.behind next) := by
  unfold Parse.accept
  rw [Parse.bind_of_ok (h.nextIs symbol), htoken, beq_self_eq_true, if_pos rfl,
    Parse.bind_of_ok h.again.skip]
  rfl

theorem declines (h : s.LooksTo next t) {symbol : Punctuator}
    (htoken : next.token ≠ .punctuator symbol) : Parse.accept symbol s = .ok false t := by
  unfold Parse.accept
  rw [Parse.bind_of_ok (h.nextIs symbol), beq_false_of_ne htoken, if_neg Bool.false_ne_true]
  rfl

theorem expect (h : s.LooksTo next t) {symbol : Punctuator}
    (htoken : next.token = .punctuator symbol) :
    Parse.expect symbol s = .ok () (t.behind next) := by
  unfold Parse.expect
  rw [Parse.bind_of_ok (h.accept htoken)]
  rfl

end LooksTo

end ParserState

/-! ## Steps that have succeeded -/

namespace Parse

variable {s t : ParserState σ}

theorem exists_of_look {f : Lookahead → α} {a : α}
    (h : lexing (do return f (← Lexing.lookahead)) s = .ok a t) :
    ∃ next, s.LooksTo next t ∧ a = f next := by
  unfold lexing at h
  cases hlook : Lexing.lookahead s.lexer with
  | ok next lexer =>
    simp only [Bind.bind, EStateM.bind, hlook] at h
    cases h
    refine ⟨next, ?_, rfl⟩
    unfold ParserState.LooksTo lexing
    rw [hlook]
  | error e lexer =>
    simp only [Bind.bind, EStateM.bind, hlook] at h
    cases h

theorem peek_eq_ok {token : Token} (h : peek s = .ok token t) :
    ∃ next, s.LooksTo next t ∧ token = next.token :=
  exists_of_look h

theorem startPosition_eq_ok {start : Position} (h : startPosition s = .ok start t) :
    ∃ next, s.LooksTo next t ∧ start = next.span.start :=
  exists_of_look h

theorem nextIs_eq_ok {symbol : Punctuator} {b : Bool} (h : nextIs symbol s = .ok b t) :
    ∃ next, s.LooksTo next t ∧ b = (next.token == .punctuator symbol) := by
  obtain ⟨token, between, hpeek, hpure⟩ := bind_eq_ok h
  obtain ⟨next, hlook, rfl⟩ := peek_eq_ok hpeek
  cases hpure
  exact ⟨next, hlook, rfl⟩

/-- Asking for a punctuator consumes it or leaves another token there. -/
theorem accept_eq_ok {symbol : Punctuator} {b : Bool} (h : accept symbol s = .ok b t) :
    ∃ next s', s.LooksTo next s' ∧
      (b = true ∧ next.token = .punctuator symbol ∧ t = s'.behind next ∨
        b = false ∧ next.token ≠ .punctuator symbol ∧ t = s') := by
  obtain ⟨isNext, s', hnext, -⟩ := bind_eq_ok h
  obtain ⟨next, hlook, rfl⟩ := nextIs_eq_ok hnext
  refine ⟨next, s', hlook, ?_⟩
  by_cases htoken : next.token = .punctuator symbol
  · rw [hlook.accept htoken] at h
    cases h
    exact .inl ⟨rfl, htoken, rfl⟩
  · rw [hlook.declines htoken] at h
    cases h
    exact .inr ⟨rfl, htoken, rfl⟩

theorem expect_eq_ok {symbol : Punctuator} (h : expect symbol s = .ok () t) :
    ∃ next s', s.LooksTo next s' ∧ next.token = .punctuator symbol ∧ t = s'.behind next := by
  obtain ⟨accepted, s', haccept, hrest⟩ := bind_eq_ok h
  obtain ⟨next, s'', hlook, ⟨rfl, htoken, rfl⟩ | ⟨rfl, -, rfl⟩⟩ := accept_eq_ok haccept
  · cases hrest
    exact ⟨next, s'', hlook, htoken, rfl⟩
  · obtain ⟨start, between, -, hfail⟩ := bind_eq_ok hrest
    cases hfail

end Parse

end EcmaScript
