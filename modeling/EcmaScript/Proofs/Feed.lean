import EcmaScript.Grammar
import EcmaScript.Proofs.Procedure
import EcmaScript.Proofs.Reading

/-!
What a parser is fed.

A parser meets its source as a sequence of tokens, each with the information whether a line
terminator stands in front of it; a slash or a closing brace may be read again. `Feeds` says so of
a lexer, and `Spells` of a text, wherever it stands: a lexer in front of a text that spells some
tokens feeds them. `Parses` says what a rule makes of the tokens that it is fed.
-/

namespace EcmaScript

/-- A token in front of a parser. -/
structure Lexeme where
  token : Token
  /-- Whether a line terminator stands between the token and the one in front of it. -/
  newlineBefore : Bool := false
  /-- What the token, a slash or a closing brace, is read again as, if it is. -/
  reread : Option Token := none
deriving DecidableEq

namespace Lexeme

/-- How the token is read again: a closing brace as the continuation of a template, a slash as a
regular expression. -/
def rereading (lexeme : Lexeme) : LexerStep :=
  if lexeme.token = .punctuator .rBrace then .template else .regExp

end Lexeme

/-- The next tokens of the lexer are the given ones. -/
def Lexer.Feeds : List Lexeme → Lexer → Prop
  | [], _ => True
  | lexeme :: lexemes, lexer => ∃ next behind, Lexing.takeLookahead lexer = .ok next behind ∧
    next.token = lexeme.token ∧ next.newlineBefore = lexeme.newlineBefore ∧
      match lexeme.reread with
      | none => Feeds lexemes { behind with lastSpan := next.span }
      | some token => ∃ behind',
        lexeme.rereading.run { behind with lastSpan := next.span } = .ok token behind' ∧
          Feeds lexemes behind'

namespace Lexing

variable {lexer lexer' : Lexer} {next : Lookahead}

/-- Behind the lookahead there is none. -/
theorem lookahead_of_takeLookahead (h : takeLookahead lexer = .ok next lexer') :
    lexer'.lookahead = none := by
  cases hnext : lexer.lookahead with
  | some known =>
    rw [takeLookahead_of_some hnext] at h
    cases h
    rfl
  | none =>
    rw [takeLookahead_of_none hnext, scanToken_eq, scan] at h
    cases hscan : Scan.lookahead lexer.rules lexer.cursor with
    | ok known cursor =>
      rw [hscan] at h
      cases h
      exact hnext
    | error e cursor =>
      rw [hscan] at h
      cases h

/-- A token that has been looked at is there again. -/
theorem takeLookahead_again (h : takeLookahead lexer = .ok next lexer') :
    takeLookahead { lexer' with lookahead := some next } = .ok next lexer' := by
  rw [takeLookahead_of_some rfl]
  obtain ⟨⟨cursor, lookahead, lastSpan⟩, source, rules⟩ := lexer'
  obtain rfl : lookahead = none := lookahead_of_takeLookahead h
  rfl

theorem lookahead_of_take (h : takeLookahead lexer = .ok next lexer') :
    lookahead lexer = .ok next { lexer' with lookahead := some next } := by
  change (takeLookahead >>= fun _ => _) lexer = _
  simp only [Bind.bind, EStateM.bind, h]
  rfl

theorem next_of_take (h : takeLookahead lexer = .ok next lexer') :
    Lexing.next lexer = .ok next.token { lexer' with lastSpan := next.span } := by
  change (takeLookahead >>= fun _ => _) lexer = _
  simp only [Bind.bind, EStateM.bind, h]
  rfl

end Lexing

namespace Lexer.Feeds

variable {lexeme : Lexeme} {lexemes : List Lexeme} {lexer : Lexer}

/-- Looking at the next token shows the first one, which stays. -/
theorem lookahead (h : lexer.Feeds (lexeme :: lexemes)) : ∃ next lexer',
    Lexing.lookahead lexer = .ok next lexer' ∧ next.token = lexeme.token ∧
      next.newlineBefore = lexeme.newlineBefore ∧ lexer'.Feeds (lexeme :: lexemes) := by
  obtain ⟨next, behind, htake, htoken, hnewline, hrest⟩ := h
  refine ⟨next, _, Lexing.lookahead_of_take htake, htoken, hnewline, ?_⟩
  exact ⟨next, behind, Lexing.takeLookahead_again htake, htoken, hnewline, hrest⟩

/-- Consuming the next token takes the first one. -/
theorem next (h : lexer.Feeds (lexeme :: lexemes)) (hkept : lexeme.reread = none) : ∃ lexer',
    Lexing.next lexer = .ok lexeme.token lexer' ∧ lexer'.Feeds lexemes := by
  obtain ⟨next, behind, htake, htoken, hnewline, hrest⟩ := h
  rw [hkept] at hrest
  refine ⟨_, ?_, hrest⟩
  rw [Lexing.next_of_take htake, htoken]

end Lexer.Feeds

/-! ## Texts that spell tokens -/

def Lexeme.IsReadFrom (rules : List TokenRule) (lexeme : Lexeme) (text rest : List Char) : Prop :=
  match lexeme.reread with
  | none => Scan.Reads (Scan.token rules) text lexeme.token rest
  | some token => ∃ behind, Scan.Reads (Scan.token rules) text lexeme.token behind ∧
    match lexeme.rereading with
    | .template => ∀ start, Scan.Reads (Scan.templateContinuation start) behind token rest
    | _ => ∀ start, Scan.Reads (Scan.regExp start) text.tail token rest

/-- The text begins with the given tokens, and trivia in front of each. -/
def Spells (rules : List TokenRule) : List Lexeme → List Char → Prop
  | [], _ => True
  | lexeme :: lexemes, text => ∃ gap tokens rest, text = gap ++ tokens ∧ Trivia tokens gap ∧
    opensTrivia tokens = false ∧ gap.any isLineTerminator = lexeme.newlineBefore ∧
      lexeme.IsReadFrom rules tokens rest ∧ Spells rules lexemes rest

/-- A lexer in front of a text feeds the tokens that the text spells. -/
theorem Lexer.feeds_of_spells {source : List Char} {lexemes : List Lexeme} {lexer : Lexer}
    (htracks : lexer.Tracks source) (hnone : lexer.lookahead = none)
    (hspells : Spells lexer.rules lexemes lexer.cursor.rest) : lexer.Feeds lexemes := by
  induction lexemes generalizing lexer with
  | nil => trivial
  | cons lexeme lexemes ih =>
    obtain ⟨gap, tokens, rest, htext, htrivia, hstop, hnewline, hread, hspells⟩ := hspells
    obtain ⟨position, hskip⟩ := Scan.reads_skipTrivia htrivia hstop lexer.cursor.position
    rw [← htext] at hskip
    have hat := htracks.cursor
    have hstart : (⟨tokens, position⟩ : Cursor).At source :=
      (Scan.Exact.skipTrivia.exact _ hat).of_ok hskip
    obtain ⟨hle, -⟩ := hat.extract_eq hstart htext rfl
    have hline : decide (lexer.cursor.position.line < position.line) = lexeme.newlineBefore := by
      have hplace : position.offset = lexer.cursor.position.offset + gap.length := by
        have htotal := hat.total_eq
        have htotal' := hstart.total_eq
        rw [htext, List.length_append] at htotal
        change position.offset + tokens.length = source.length at htotal'
        omega
      have hlines := (line_le_and_lt_iff gap (hat.rest_eq.symm.trans htext)
        (ne_lineFeed_of_not_opensTrivia hstop)).2
      rw [← hplace, ← hat.position.line_column, ← hstart.position.line_column] at hlines
      rw [← hnewline, Bool.eq_iff_iff, decide_eq_true_iff]
      exact hlines
    -- Both kinds of token are scanned first.
    have htake {token : Token} {behind : List Char}
        (hscan : Scan.Reads (Scan.token lexer.rules) tokens token behind) : ∃ stop,
        Lexing.takeLookahead lexer = .ok
          { token, span := ⟨position, stop⟩, newlineBefore := lexeme.newlineBefore }
          { lexer with cursor := ⟨behind, stop⟩ } := by
      obtain ⟨stop, hstop⟩ := hscan position
      refine ⟨stop, ?_⟩
      rw [Lexing.takeLookahead_of_none hnone, Lexing.scanToken_eq, Lexing.scan, Scan.lookahead_eq,
        hskip]
      dsimp only
      rw [hstop, ← hline]
    unfold Lexeme.IsReadFrom at hread
    unfold Feeds
    cases hreread : lexeme.reread with
    | none =>
      rw [hreread] at hread
      obtain ⟨stop, htake⟩ := htake hread
      obtain ⟨htracks', -⟩ := (Lexing.next_tracks htracks).of_ok (Lexing.next_of_take htake)
      exact ⟨_, _, htake, rfl, rfl, ih htracks' hnone hspells⟩
    | some token =>
      rw [hreread] at hread
      obtain ⟨behind, hscan, hagain⟩ := hread
      obtain ⟨stop, htake⟩ := htake hscan
      obtain ⟨htracks', -, -, -, hchar, -⟩ :=
        (Lexing.next_tracks htracks).of_ok (Lexing.next_of_take htake)
      refine ⟨_, _, htake, rfl, rfl, ?_⟩
      by_cases hbrace : lexeme.token = .punctuator .rBrace
      · simp only [Lexeme.rereading, if_pos hbrace] at hagain ⊢
        obtain ⟨last, hlast⟩ := hagain position stop
        have hcontinues := @Lexing.rescan_of_ok
          { lexer with cursor := ⟨behind, stop⟩, lastSpan := ⟨position, stop⟩ }
          Scan.templateContinuation _ _ hlast
        have htracks'' := (Lexing.readTemplateContinuation_tracks htracks').of_ok hcontinues
        exact ⟨_, hcontinues, ih htracks''.1 rfl hspells⟩
      · simp only [Lexeme.rereading, if_neg hbrace] at hagain ⊢
        have hdrop : lexer.source.drop (position.offset + 1) = tokens.tail := by
          rw [htracks.inSource.source_eq, ← List.tail_drop, ← hstart.rest_eq]
        have hless : position.offset < source.length := by
          cases tokens with
          | nil =>
            obtain ⟨_, hnothing⟩ := hagain position position
            cases hnothing
          | cons first tokens =>
            have htotal : position.offset + (first :: tokens).length = source.length :=
              hstart.total_eq
            rw [List.length_cons] at htotal
            omega
        obtain ⟨last, hlast⟩ :=
          hagain position ⟨position.line, position.column + 1, position.offset + 1⟩
        rw [← hdrop] at hlast
        have hcontinues := @Lexing.rescan_of_ok
          { lexer with cursor := ⟨behind, stop⟩, lastSpan := ⟨position, stop⟩ }
          (fun start => do
            set (Lexing.cursorBehind lexer.source start)
            Scan.regExp start) _ _ hlast
        have htracks'' := (Lexing.rescanRegExp_tracks htracks' hless hchar).of_ok hcontinues
        exact ⟨_, hcontinues, ih htracks''.1 rfl hspells⟩

/-! ## Rules that are fed -/

/-- Where the lexer feeds `lexemes` and the hooks are at rest, the rule returns a value with the
property `P` in front of `rest`, leaves the context as it is and the hooks at rest, unless its depth
or its rounds run out. -/
def Parses {σ α : Type} (atRest : σ → Prop) (p : Parse σ α) (context : Context)
    (lexemes : List Lexeme) (P : α → Prop) (rest : List Lexeme) : Prop :=
  ∀ s, s.context = context → atRest s.hooks → s.lexer.Feeds lexemes →
    Ends (fun e _ => e = .exhausted) p s fun a s' =>
      P a ∧ s'.context = context ∧ atRest s'.hooks ∧ s'.lexer.Feeds rest

namespace Parses

variable {σ α β : Type} {atRest : σ → Prop} {context : Context} {lexeme : Lexeme}
  {lexemes middle rest : List Lexeme} {P : β → Prop} {Q : α → Prop}

theorem pure {b : β} (h : P b) :
    Parses atRest (Pure.pure b : Parse σ β) context lexemes P lexemes :=
  fun _ hcontext hrest hfeeds => ⟨h, hcontext, hrest, hfeeds⟩

theorem exhausted : Parses atRest (throw .exhausted : Parse σ β) context lexemes P rest :=
  fun _ _ _ _ => rfl

theorem bind {p : Parse σ α} {q : α → Parse σ β} (hp : Parses atRest p context lexemes Q middle)
    (hq : ∀ a, Q a → Parses atRest (q a) context middle P rest) :
    Parses atRest (p >>= q) context lexemes P rest :=
  fun s hcontext hhooks hfeeds =>
    (hp s hcontext hhooks hfeeds).bind fun a s' ⟨ha, hcontext', hhooks', hfeeds'⟩ =>
      hq a ha s' hcontext' hhooks' hfeeds'

theorem mono {p : Parse σ α} {Q' : α → Prop} (h : Parses atRest p context lexemes Q rest)
    (hQ : ∀ a, Q a → Q' a) : Parses atRest p context lexemes Q' rest :=
  fun s hcontext hhooks hfeeds =>
    (h s hcontext hhooks hfeeds).mono (fun a _ ⟨ha, hrest⟩ => ⟨hQ a ha, hrest⟩) fun _ _ he => he

theorem forget {p : Parse σ α} (h : Parses atRest p context lexemes Q rest) :
    Parses atRest p context lexemes (fun _ => True) rest :=
  h.mono fun _ _ => trivial

/-- Sequencing, behind a rule whose value is known. -/
theorem seq {p : Parse σ α} {q : α → Parse σ β} {a : α}
    (hp : Parses atRest p context lexemes (· = a) middle)
    (hq : Parses atRest (q a) context middle P rest) :
    Parses atRest (p >>= q) context lexemes P rest :=
  hp.bind fun _ ha => ha ▸ hq

/-- Sequencing, behind a rule of whose value nothing is known. -/
theorem step {p : Parse σ α} {q : α → Parse σ β}
    (hp : Parses atRest p context lexemes (fun _ => True) middle)
    (hq : ∀ a, Parses atRest (q a) context middle P rest) :
    Parses atRest (p >>= q) context lexemes P rest :=
  hp.bind fun a _ => hq a

/-- A loop whose first round goes on or stops. -/
theorem rounds {round : α → Parse σ (Round α β)} {a : α} {bound : Nat}
    (hround : ∀ m, Parses atRest (round a >>= fun
      | .again a' => repeatRounds round m a'
      | .stop b => Pure.pure b) context lexemes P rest) :
    Parses atRest (repeatRounds round bound a) context lexemes P rest := by
  cases bound with
  | zero => exact exhausted
  | succ m => exact hround m

/-! ## Steps of the lexer -/

/-- A step of the lexer that succeeds. -/
theorem lexing {step : Lexing α} (hstep : ∀ lexer : Lexer, lexer.Feeds lexemes →
    ∃ a lexer', step lexer = .ok a lexer' ∧ Q a ∧ lexer'.Feeds rest) :
    Parses atRest (Parse.lexing step : Parse σ α) context lexemes Q rest := by
  intro s hcontext hhooks hfeeds
  obtain ⟨a, lexer', ha, hQ, hrest⟩ := hstep s.lexer hfeeds
  simp only [Ends, Parse.lexing, ha]
  exact ⟨hQ, hcontext, hhooks, hrest⟩

/-- A step that looks at the next token. -/
theorem looking {f : Lookahead → α} {a : α}
    (hf : ∀ next : Lookahead, next.token = lexeme.token →
      next.newlineBefore = lexeme.newlineBefore → f next = a) :
    Parses atRest (Parse.lexing (do return f (← Lexing.lookahead)) : Parse σ α) context
      (lexeme :: lexemes) (· = a) (lexeme :: lexemes) :=
  lexing fun lexer hfeeds => by
    obtain ⟨next, lexer', hlook, htoken, hnewline, hfeeds'⟩ := hfeeds.lookahead
    refine ⟨f next, lexer', ?_, hf next htoken hnewline, hfeeds'⟩
    simp only [Bind.bind, EStateM.bind, hlook]
    rfl

theorem peek : Parses atRest (Parse.peek : Parse σ Token) context (lexeme :: lexemes)
    (· = lexeme.token) (lexeme :: lexemes) :=
  looking fun _ htoken _ => htoken

theorem newlineBefore : Parses atRest (Parse.newlineBefore : Parse σ Bool) context
    (lexeme :: lexemes) (· = lexeme.newlineBefore) (lexeme :: lexemes) :=
  looking fun _ _ hnewline => hnewline

theorem startPosition : Parses atRest (Parse.startPosition : Parse σ Position) context
    (lexeme :: lexemes) (fun _ => True) (lexeme :: lexemes) :=
  lexing fun lexer hfeeds => by
    obtain ⟨next, lexer', hlook, -, -, hfeeds'⟩ := hfeeds.lookahead
    refine ⟨next.span.start, lexer', ?_, trivial, hfeeds'⟩
    change (Lexing.lookahead >>= fun _ => _) lexer = _
    simp only [Bind.bind, EStateM.bind, hlook]
    rfl

theorem next (hkept : lexeme.reread = none) :
    Parses atRest (Parse.next : Parse σ Token) context (lexeme :: lexemes) (· = lexeme.token)
      lexemes :=
  lexing fun _ hfeeds => by
    obtain ⟨lexer', hnext, hfeeds'⟩ := hfeeds.next hkept
    exact ⟨lexeme.token, lexer', hnext, rfl, hfeeds'⟩

theorem skip (hkept : lexeme.reread = none) :
    Parses atRest (Parse.skip : Parse σ Unit) context (lexeme :: lexemes) (fun _ => True)
      lexemes :=
  (next hkept).forget.step fun _ => pure trivial

theorem lastEnd : Parses atRest (Parse.lastEnd : Parse σ Position) context lexemes (fun _ => True)
    lexemes :=
  fun _ hcontext hhooks hfeeds => ⟨trivial, hcontext, hhooks, hfeeds⟩

theorem spanFrom (start : Position) :
    Parses atRest (Parse.spanFrom start : Parse σ Span) context lexemes (fun _ => True) lexemes :=
  lastEnd.step fun _ => pure trivial

theorem nextIs (symbol : Punctuator) :
    Parses atRest (Parse.nextIs symbol : Parse σ Bool) context (lexeme :: lexemes)
      (· = (lexeme.token == .punctuator symbol)) (lexeme :: lexemes) :=
  peek.seq (pure rfl)

theorem nextIsWord (word : Keyword) :
    Parses atRest (Parse.nextIsWord word : Parse σ Bool) context (lexeme :: lexemes)
      (· = (lexeme.token == .keyword word)) (lexeme :: lexemes) :=
  peek.seq (pure rfl)

theorem accept {symbol : Punctuator} (htoken : lexeme.token = .punctuator symbol)
    (hkept : lexeme.reread = none) :
    Parses atRest (Parse.accept symbol : Parse σ Bool) context (lexeme :: lexemes) (· = true)
      lexemes :=
  (nextIs symbol).seq <| by
    rw [htoken, beq_self_eq_true, if_pos rfl]
    exact (skip hkept).step fun _ => pure rfl

theorem declines {symbol : Punctuator} (htoken : lexeme.token ≠ .punctuator symbol) :
    Parses atRest (Parse.accept symbol : Parse σ Bool) context (lexeme :: lexemes) (· = false)
      (lexeme :: lexemes) :=
  (nextIs symbol).seq <| by
    rw [beq_false_of_ne htoken]
    exact pure rfl

theorem expect {symbol : Punctuator} (htoken : lexeme.token = .punctuator symbol)
    (hkept : lexeme.reread = none) :
    Parses atRest (Parse.expect symbol : Parse σ Unit) context (lexeme :: lexemes) (fun _ => True)
      lexemes :=
  (accept htoken hkept).seq (pure trivial)

/-! ## The context -/

theorem context_eq : Parses atRest (Parse.context : Parse σ Context) context lexemes (· = context)
    lexemes :=
  fun _ hcontext hhooks hfeeds => ⟨hcontext, hcontext, hhooks, hfeeds⟩

theorem nameRules (g : Grammar σ) :
    Parses atRest g.nameRules context lexemes (· = ⟨context.strict, g.options.goal⟩) lexemes :=
  context_eq.seq (pure rfl)

/-- Brackets change nothing where `in` is an operator already. -/
theorem allowingIn {p : Parse σ β} (hin : context.inForInit = false)
    (hp : Parses atRest p context lexemes P rest) :
    Parses atRest (Parse.allowingIn p) context lexemes P rest := by
  intro s hcontext hhooks hfeeds
  have henter : { s.context with inForInit := false } = context := by
    rw [hcontext, ← hin]
  have hinside :=
    hp { s with context := { s.context with inForInit := false } } henter hhooks hfeeds
  refine hinside.within (fun b s' hs' => ?_) fun _ _ hfails => nomatch hfails
  obtain ⟨hb, hcontext', hhooks', hfeeds'⟩ := hs'
  refine ⟨hb, ?_, hhooks', hfeeds'⟩
  change { s'.context with inForInit := s.context.inForInit } = context
  rw [hcontext', hcontext]

end Parses

end EcmaScript
