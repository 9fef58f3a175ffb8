import EcmaScript.Lexer

/-!
The lexer's steps in closed form, in the state that they are taken in.
-/

namespace EcmaScript

/-- The rule goes by the next character alone: it declines, or it claims the token, and what it then
reads is as `P` says. -/
def TokenRule.Reads (rule : TokenRule) (P : Char → Scan Token → Prop) : Prop :=
  ∀ first, rule first = pure none ∨ ∃ p, rule first = some <$> p ∧ P first p

/-- What a rule for private names reads behind its mark. -/
theorem TokenRule.reads_sigil {mark : Char} {P : Char → Scan Token → Prop}
    (h : P mark do
      let _ ← Scan.bump
      return .privateName (String.ofList (← Scan.word))) : (sigil mark).Reads P := by
  intro first
  by_cases hfirst : first = mark
  · subst hfirst
    exact .inr ⟨_, by simp [sigil], h⟩
  · exact .inl (by simp [sigil, hfirst])

theorem TokenRule.reads_refuse {mark : Char} {text : String} {P : Char → Scan Token → Prop}
    (h : P mark do
      let _ ← Scan.bump
      throw (.error (.located (.custom .syntaxError text) (← Scan.here)))) :
    (refuse mark text).Reads P := by
  intro first
  by_cases hfirst : first = mark
  · subst hfirst
    refine .inr ⟨_, ?_, h⟩
    simp only [refuse, beq_self_eq_true, if_true, map_bind]
    rfl
  · exact .inl (by simp [refuse, hfirst])

namespace Scan

variable {rules : List TokenRule} {P : Char → Scan Token → Prop}

/-- Either no rule claims the token or the first one to claim it reads it. -/
theorem claimed_cases (hrules : ∀ rule ∈ rules, rule.Reads P) (first : Char) :
    (claimed first rules = pure none ∧ ∀ rule ∈ rules, rule first = pure none) ∨
      ∃ rule ∈ rules, ∃ p, claimed first rules = some <$> p ∧ rule first = some <$> p ∧
        P first p := by
  induction rules with
  | nil => exact .inl ⟨rfl, nofun⟩
  | cons rule rules ih =>
    rcases hrules rule List.mem_cons_self first with hdeclines | ⟨p, hclaims, hp⟩
    · have hrest : claimed first (rule :: rules) = claimed first rules := by
        simp [claimed, hdeclines]
      rw [hrest]
      rcases ih fun rule hrule => hrules rule (List.mem_cons_of_mem _ hrule) with
        ⟨hnone, hall⟩ | ⟨other, hother, h⟩
      · exact .inl ⟨hnone, List.forall_mem_cons.2 ⟨hdeclines, hall⟩⟩
      · exact .inr ⟨other, List.mem_cons_of_mem _ hother, h⟩
    · exact .inr ⟨rule, List.mem_cons_self, p, by simp [claimed, hclaims], hclaims, hp⟩

/-- In front of a character the token is read by the language, if no rule claims it, or by the first
rule to claim it. -/
theorem token_cases (hrules : ∀ rule ∈ rules, rule.Reads P) (first : Char) :
    ((∀ rule ∈ rules, rule first = pure none) ∧ ∀ rest position,
        token rules ⟨first :: rest, position⟩ =
          languageToken first position ⟨first :: rest, position⟩) ∨
      ∃ rule ∈ rules, ∃ p, rule first = some <$> p ∧ P first p ∧ ∀ rest position,
        token rules ⟨first :: rest, position⟩ = p ⟨first :: rest, position⟩ := by
  rcases claimed_cases hrules first with ⟨hnone, hall⟩ | ⟨rule, hrule, p, hclaimed, hfirst, hp⟩
  · refine .inl ⟨hall, fun rest position => ?_⟩
    change (claimed first rules >>= _) _ = _
    rw [hnone]
    rfl
  · refine .inr ⟨rule, hrule, p, hfirst, hp, fun rest position => ?_⟩
    change (claimed first rules >>= _) _ = _
    rw [hclaimed, bind_map_left]
    exact congrFun (bind_pure p) _

/-- Where no rule claims the token it is read by the language. -/
theorem token_eq_languageToken {first : Char} (h : ∀ rule ∈ rules, rule first = pure none)
    (rest : List Char) (position : Position) :
    token rules ⟨first :: rest, position⟩ =
      languageToken first position ⟨first :: rest, position⟩ := by
  have hnone : claimed first rules = pure none := by
    induction rules with
    | nil => rfl
    | cons rule rules ih =>
      rw [List.forall_mem_cons] at h
      simp [claimed, h.1, ih h.2]
  change (claimed first rules >>= _) _ = _
  rw [hnone]
  rfl

/-- A rule that reads a token does not decline it. -/
theorem map_some_ne_declined {p : Scan Token} {c c' : Cursor} {token : Token}
    (h : p c = .ok token c') : some <$> p ≠ pure none := by
  intro hdeclined
  have hresult := congrFun hdeclined c
  rw [map_eq_pure_bind] at hresult
  simp only [Bind.bind, EStateM.bind, h] at hresult
  cases hresult

/-- The next token behind the trivia in front of it. -/
def lookahead (rules : List TokenRule) : Scan Lookahead := do
  let before ← here
  skipTrivia
  let start ← here
  let token ← token rules
  return { token, span := ⟨start, ← here⟩, newlineBefore := before.line < start.line }

/-- Scanning the next token is skipping the trivia and then reading the token. -/
theorem lookahead_eq (rules : List TokenRule) (cursor : Cursor) :
    lookahead rules cursor =
      match skipTrivia cursor with
      | .error e stopped => .error e stopped
      | .ok _ start =>
        match token rules start with
        | .error e stopped => .error e stopped
        | .ok token stop => .ok
            { token
              span := ⟨start.position, stop.position⟩
              newlineBefore := cursor.position.line < start.position.line } stop := by
  change (skipTrivia >>= fun _ => _) cursor = _
  simp only [Bind.bind, EStateM.bind]
  cases skipTrivia cursor with
  | error e stopped => rfl
  | ok _ start =>
    change (token rules >>= fun _ => _) start = _
    simp only [Bind.bind, EStateM.bind]
    cases token rules start <;> rfl

end Scan

namespace Lexing

theorem scanToken_eq (lexer : Lexer) :
    scanToken lexer = scan (Scan.lookahead lexer.rules) lexer := rfl

theorem takeLookahead_of_some {lexer : Lexer} {next : Lookahead}
    (h : lexer.lookahead = some next) :
    takeLookahead lexer = .ok next { lexer with lookahead := none } := by
  obtain ⟨⟨cursor, lookahead, lastSpan⟩, source, rules⟩ := lexer
  cases h
  rfl

theorem takeLookahead_of_none {lexer : Lexer} (h : lexer.lookahead = none) :
    takeLookahead lexer = scanToken lexer := by
  obtain ⟨⟨cursor, lookahead, lastSpan⟩, source, rules⟩ := lexer
  cases h
  rfl

/-- What consuming a token does to a lexer that has not looked ahead. -/
theorem next_of_returns {lexer : Lexer} {start stop : Cursor} {t : Token}
    (hnone : lexer.lookahead = none) (hskip : Scan.skipTrivia lexer.cursor = .ok () start)
    (htoken : Scan.token lexer.rules start = .ok t stop) :
    next lexer =
      .ok t { lexer with cursor := stop, lastSpan := ⟨start.position, stop.position⟩ } := by
  change (takeLookahead >>= fun _ => _) lexer = _
  simp only [Bind.bind, EStateM.bind, takeLookahead_of_none hnone, scanToken_eq, scan,
    Scan.lookahead_eq, hskip, htoken]
  rfl

/-- Reading the last token again, where that succeeds. -/
theorem rescan_of_ok {lexer : Lexer} {action : Position → Scan Token} {token : Token}
    {stop : Cursor} (h : action lexer.lastSpan.start lexer.cursor = .ok token stop) :
    rescan action lexer = .ok token { lexer with
      cursor := stop, lookahead := none, lastSpan := ⟨lexer.lastSpan.start, stop.position⟩ } := by
  change (scan (action lexer.lastSpan.start) >>= fun _ => _) { lexer with lookahead := none } = _
  simp only [Bind.bind, EStateM.bind, scan]
  rw [h]
  rfl

/-- Reading the last token again, where that fails. -/
theorem rescan_of_error {lexer : Lexer} {action : Position → Scan Token} {e : Failure}
    {stop : Cursor} (h : action lexer.lastSpan.start lexer.cursor = .error e stop) :
    rescan action lexer = .error e { lexer with cursor := stop, lookahead := none } := by
  change (scan (action lexer.lastSpan.start) >>= fun _ => _) { lexer with lookahead := none } = _
  simp only [Bind.bind, EStateM.bind, scan]
  rw [h]

end Lexing

end EcmaScript
