import EcmaScript.Proofs.Progress.Lexer
import EcmaScript.Proofs.Wording

/-!
Sessions of a lexer.

A session calls a lexer in any order, whether the calls fail or not, and may go back to any state
that it has kept. The cursor may get past the end of the source on the way: the last token may be
read again as a regular expression whatever it is, also if it is the end of the source. Still the
cursor always has the rest of the source from its offset on (`Lexer.Fits`), so that no call reads
past the end or goes back past the start of a line: what fails is an error of the source.
-/

namespace EcmaScript

variable {α : Type} {source : List Char}

/-! ## Calls -/

/-- What may be asked of a lexer. -/
inductive LexerCall where
  | next
  | peek
  | peekSpan
  | peekStart
  | newlineBefore
  /-- Moves the cursor by a character. -/
  | bump
  /-- Reads a word at the cursor. -/
  | word
  | rescanRegExp
  | readTemplateContinuation
  | snapshot
  /-- Returns to a state that has been kept, by its number. -/
  | restore (index : Nat)

/-- A lexer in use, and the states that have been kept. -/
structure Session where
  lexer : Lexer
  kept : List LexerState

namespace Session

/-- A session at the start of a source. -/
def start (source : String) (rules : List TokenRule) : Session := ⟨.ofSource source rules, []⟩

def ask (action : Lexing α) : EStateM Failure Session Unit := fun s =>
  match action s.lexer with
  | .ok _ lexer => .ok () { s with lexer }
  | .error e lexer => .error e { s with lexer }

/-- Keeps the state of the lexer. -/
def keep : EStateM Failure Session Unit :=
  modify fun s => { s with kept := s.kept ++ [s.lexer.toLexerState] }

/-- Goes back to the state that has been kept under the number, if one has. -/
def goBack (index : Nat) : EStateM Failure Session Unit := fun s =>
  match s.kept[index]? with
  | some state => ask (Lexing.restore state) s
  | none => .ok () s

def answer : LexerCall → EStateM Failure Session Unit
  | .next => ask Lexing.next
  | .peek => ask Lexing.peek
  | .peekSpan => ask Lexing.peekSpan
  | .peekStart => ask Lexing.peekStart
  | .newlineBefore => ask Lexing.newlineBefore
  | .bump => ask (Lexing.scan Scan.bump)
  | .word => ask (Lexing.scan Scan.word)
  | .rescanRegExp => ask Lexing.rescanRegExp
  | .readTemplateContinuation => ask Lexing.readTemplateContinuation
  | .snapshot => keep
  | .restore index => goBack index

def after (s : Session) (call : LexerCall) : Session :=
  match answer call s with
  | .ok _ s' => s'
  | .error _ s' => s'

/-- The session behind calls in a row. -/
def afterAll (s : Session) (calls : List LexerCall) : Session := calls.foldl after s

end Session

/-! ## Cursors -/

/-- The cursor has what the source holds from its offset on, which is nothing past the end. -/
def Cursor.In (source : List Char) (c : Cursor) : Prop := c.rest = source.drop c.position.offset

theorem Cursor.In.leads {c c' : Cursor} (h : c.In source) (hlead : c.Leads c') : c'.In source := by
  obtain ⟨read, hread⟩ := hlead.suffix
  have htotal := hlead.total_eq
  rw [← hread, List.length_append] at htotal
  have hoffset : c'.position.offset = c.position.offset + read.length := by omega
  rw [Cursor.In, hoffset, ← List.drop_drop, ← h, ← hread, List.drop_left]

/-- What a cursor has in front of another one that it leads to stands between them. -/
theorem Cursor.In.extract_eq {c c' : Cursor} (h : c.In source) (hlead : c.Leads c')
    {text : List Char} (htext : c.rest = text ++ c'.rest) :
    source.extract c.position.offset c'.position.offset = text := by
  have htotal := hlead.total_eq
  rw [htext, List.length_append] at htotal
  have hlength : c'.position.offset - c.position.offset = text.length := by omega
  rw [List.extract_eq_take_drop, ← h, htext, hlength, List.take_left]

/-- A scan that goes on leaves the cursor in the source. -/
theorem Scan.Goes.keepsIn {p : Scan α} {c : Cursor} {Q : α → Cursor → Prop} (hp : Goes p c Q)
    (h : c.In source) :
    Ends (fun e c' => c'.In source ∧ ∃ d, e = .error d) p c fun a c' => c'.In source ∧ Q a c' :=
  Ends.mono hp (fun _ _ ⟨hlead, ha⟩ => ⟨h.leads hlead, ha⟩) fun _ _ ⟨hlead, hd⟩ =>
    ⟨h.leads hlead, hd⟩

theorem Scan.Goes.bumpAny {c : Cursor} : Scan.GoesOn Scan.bump c := by
  refine Goes.peek ?_
  cases hnext : c.rest.head? with
  | none => exact Goes.pure trivial
  | some x =>
    have hadvance := Goes.advance (Goes.length_pos_of_peek hnext)
    exact Goes.map (hadvance.mono fun _ _ _ _ => trivial)

/-! ## Lexers -/

def Token.IsSpelled (source : List Char) (token : Token) (span : Span) : Prop :=
  token.WrittenAs (source.extract span.start.offset span.stop.offset)
    (source.drop span.stop.offset)

/-- A punctuator stands where it starts. -/
theorem Token.IsSpelled.begins {symbol : Punctuator} {span : Span}
    (h : (Token.punctuator symbol).IsSpelled source span) :
    symbol.spelling.toList <+: source.drop span.start.offset := by
  rw [h.symbol_eq symbol rfl, List.extract_eq_take_drop]
  exact List.take_prefix _ _

/-- The cursor is in the source, and so is the lookahead. -/
structure LexerState.Fits (source : List Char) (state : LexerState) : Prop where
  cursor : state.cursor.In source
  lookahead : ∀ next, state.lookahead = some next → next.token.IsSpelled source next.span

/-- The lexer reads the source, and its state is a state in it. -/
structure Lexer.Fits (source : List Char) (lexer : Lexer) : Prop where
  source_eq : lexer.source = source
  advances : ∀ rule ∈ lexer.rules, rule.Advances
  wordless : ∀ rule ∈ lexer.rules, rule.IsWordless
  spares : ∀ rule ∈ lexer.rules, rule.SparesWords
  state : lexer.toLexerState.Fits source

/-- The state of a lexer may be any other state in the source. -/
theorem Lexer.Fits.moved {lexer : Lexer} (h : lexer.Fits source) {state : LexerState}
    (hstate : state.Fits source) : { lexer with toLexerState := state }.Fits source :=
  ⟨h.source_eq, h.advances, h.wordless, h.spares, hstate⟩

namespace Lexing

variable {lexer : Lexer}

def Declined (source : List Char) (e : Failure) (lexer : Lexer) : Prop :=
  lexer.Fits source ∧ ∃ d, e = .error d

theorem scan_fits {p : Scan α} {Q : α → Cursor → Prop} (hp : Scan.Goes p lexer.cursor Q)
    (h : lexer.Fits source) :
    Ends (Declined source) (scan p) lexer fun _ lexer' => lexer'.Fits source := by
  have hmoved {c : Cursor} (hc : c.In source) : { lexer with cursor := c }.Fits source :=
    h.moved ⟨hc, h.state.lookahead⟩
  refine ends_scan ((hp.keepsIn h.state.cursor).mono ?_ ?_)
  · exact fun _ _ ⟨hc, _⟩ => hmoved hc
  · exact fun _ _ ⟨hc, hd⟩ => ⟨hmoved hc, hd⟩

/-- What is scanned is spelled where it starts. -/
theorem scanToken_fits (h : lexer.Fits source) :
    Ends (Declined source) scanToken lexer fun next lexer' =>
      lexer'.Fits source ∧ next.token.IsSpelled source next.span := by
  have hmoved {c : Cursor} (hc : c.In source) : { lexer with cursor := c }.Fits source :=
    h.moved ⟨hc, h.state.lookahead⟩
  have htrivia := Scan.Goes.skipTrivia.keepsIn h.state.cursor
  rw [Ends, scanToken_eq, scan, Scan.lookahead_eq]
  cases hskip : Scan.skipTrivia lexer.cursor with
  | error e stopped =>
    obtain ⟨hstopped, hd⟩ := htrivia.of_error hskip
    exact ⟨hmoved hstopped, hd⟩
  | ok _ start =>
    have hstart := (htrivia.of_ok hskip).1
    have hends := (Scan.Goes.token h.advances start).keepsIn hstart
    dsimp only
    cases htoken : Scan.token lexer.rules start with
    | error e stopped =>
      obtain ⟨hstopped, hd⟩ := hends.of_error htoken
      exact ⟨hmoved hstopped, hd⟩
    | ok token stop =>
      have hstop := (hends.of_ok htoken).1
      have hlead := ((Scan.Goes.token h.advances start).of_ok htoken).1
      obtain ⟨text, htext⟩ := hlead.suffix
      refine ⟨hmoved hstop, ?_⟩
      rw [Token.IsSpelled, hstart.extract_eq hlead htext.symm, ← hstop]
      exact Scan.writtenAs_of_token h.wordless h.spares htoken htext.symm

theorem takeLookahead_fits (h : lexer.Fits source) :
    Ends (Declined source) takeLookahead lexer fun next lexer' =>
      lexer'.Fits source ∧ next.token.IsSpelled source next.span := by
  cases hnext : lexer.lookahead with
  | some next =>
    rw [Ends, takeLookahead_of_some hnext]
    exact ⟨h.moved ⟨h.state.cursor, by rintro _ ⟨⟩⟩, h.state.lookahead next hnext⟩
  | none =>
    rw [Ends, takeLookahead_of_none hnext]
    exact scanToken_fits h

theorem lookahead_fits (h : lexer.Fits source) :
    Ends (Declined source) lookahead lexer fun next lexer' =>
      lexer'.Fits source ∧ next.token.IsSpelled source next.span := by
  refine (takeLookahead_fits h).bind fun next lexer' ⟨hfits, hspelled⟩ => ?_
  refine ⟨hfits.moved ⟨hfits.state.cursor, ?_⟩, hspelled⟩
  rintro _ ⟨⟩
  exact hspelled

/-- Looking at the next token, for something about it. -/
theorem look_fits (f : Lookahead → α) (h : lexer.Fits source) :
    Ends (Declined source) (do return f (← lookahead)) lexer fun _ lexer' => lexer'.Fits source :=
  (lookahead_fits h).bind fun _ _ hfits => hfits.1

/-- What is consumed is spelled where the last token starts. -/
theorem next_fits (h : lexer.Fits source) :
    Ends (Declined source) next lexer fun token lexer' =>
      lexer'.Fits source ∧ token.IsSpelled source lexer'.lastSpan :=
  (takeLookahead_fits h).bind fun _ _ ⟨hfits, hspelled⟩ =>
    ⟨hfits.moved ⟨hfits.state.cursor, hfits.state.lookahead⟩, hspelled⟩

/-- The last token is read again from a place in the source. -/
theorem rescan_fits {action : Position → Scan Token} (h : lexer.Fits source)
    (haction : Ends (fun e c => c.In source ∧ ∃ d, e = .error d) (action lexer.lastSpan.start)
      lexer.cursor fun _ c => c.In source) :
    Ends (Declined source) (rescan action) lexer fun _ lexer' => lexer'.Fits source := by
  have hmoved {c : Cursor} (hc : c.In source) (span : Span) :
      { lexer with lookahead := none, cursor := c, lastSpan := span }.Fits source :=
    h.moved ⟨hc, nofun⟩
  change Ends _ (scan (action lexer.lastSpan.start) >>= fun _ => _)
    { lexer with lookahead := none } _
  refine Ends.bind (Q := fun _ lexer' => ∃ c, c.In source ∧
    lexer' = { lexer with lookahead := none, cursor := c }) ?_ ?_
  · refine ends_scan (haction.mono (fun _ c hc => ⟨c, hc, rfl⟩) fun e c hrefused => ?_)
    exact ⟨hmoved hrefused.1 _, hrefused.2⟩
  · rintro token _ ⟨c, hc, rfl⟩
    exact hmoved hc _

/-- The cursor behind the start of the last token is in the source wherever that token starts. -/
theorem rescanRegExp_fits (h : lexer.Fits source) :
    Ends (Declined source) rescanRegExp lexer fun _ lexer' => lexer'.Fits source := by
  have hbehind : (cursorBehind lexer.source lexer.lastSpan.start).In source := by
    rw [h.source_eq]
    rfl
  change Ends _ (rescan fun start => do
    set (cursorBehind lexer.source start)
    Scan.regExp start) lexer _
  refine rescan_fits h ?_
  exact ((Scan.Goes.regExp lexer.lastSpan.start).keepsIn hbehind).mono
    (fun _ _ ⟨hc, _⟩ => hc) fun _ _ hrefused => hrefused

theorem readTemplateContinuation_fits (h : lexer.Fits source) :
    Ends (Declined source) readTemplateContinuation lexer fun _ lexer' => lexer'.Fits source :=
  rescan_fits h (((Scan.Goes.templateContinuation lexer.lastSpan.start).keepsIn h.state.cursor).mono
    (fun _ _ ⟨hc, _⟩ => hc) fun _ _ hrefused => hrefused)

end Lexing

theorem Lexer.fits_ofSource (source : String) {rules : List TokenRule}
    (hadvances : ∀ rule ∈ rules, rule.Advances) (hwordless : ∀ rule ∈ rules, rule.IsWordless)
    (hspares : ∀ rule ∈ rules, rule.SparesWords) : (ofSource source rules).Fits source.toList := by
  refine ⟨rfl, hadvances, hwordless, hspares, ?_, nofun⟩
  have hin : (Cursor.ofSource source.toList).In source.toList := rfl
  have hline := (Scan.Goes.skipHashbang (c := .ofSource source.toList)).keepsIn hin
  change (initialCursor source.toList).In source.toList
  unfold initialCursor
  cases hresult : Scan.skipHashbang (.ofSource source.toList) with
  | ok _ c => exact (hline.of_ok hresult).1
  | error e c => exact (hline.of_error hresult).1

/-! ## Runs -/

/-- The lexer of the session reads the source, and so it did wherever a state has been kept. -/
structure Session.Fits (source : List Char) (s : Session) : Prop where
  lexer : s.lexer.Fits source
  kept : ∀ state ∈ s.kept, state.Fits source

/-- The rules with which a lexer is used: for private names, for decorators, and one that refuses
what the first one reads. -/
inductive TokenRule.IsSigil : TokenRule → Prop where
  | privateName : IsSigil .privateName
  | decorator : IsSigil (.sigil '@')
  | refused (text : String) : IsSigil (.refuse '#' text)

namespace TokenRule.IsSigil

variable {rule : TokenRule}

theorem advances (h : rule.IsSigil) : rule.Advances := by
  cases h with
  | privateName => exact advances_privateName
  | decorator => exact advances_sigil '@'
  | refused text => exact advances_refuse '#' text

theorem isWordless (h : rule.IsSigil) : rule.IsWordless := by
  cases h with
  | privateName => exact isWordless_privateName
  | decorator => exact isWordless_sigil '@'
  | refused text => exact isWordless_refuse '#' text

theorem sparesWords (h : rule.IsSigil) : rule.SparesWords := by
  cases h with
  | privateName => exact sparesWords_sigil (by decide)
  | decorator => exact sparesWords_sigil (by decide)
  | refused text => exact sparesWords_refuse (by decide) text

end TokenRule.IsSigil

namespace Session

variable {s : Session}

/-- A session asks its lexer as the lexer is asked alone. -/
theorem ask_fits {action : Lexing α} {Q : α → Lexer → Prop} (h : s.Fits source)
    (haction : Ends (Lexing.Declined source) action s.lexer Q)
    (hQ : ∀ a lexer, Q a lexer → lexer.Fits source) :
    Ends (fun e s' => s'.Fits source ∧ ∃ d, e = .error d) (ask action) s
      fun _ s' => s'.Fits source := by
  unfold Ends ask
  cases hresult : action s.lexer with
  | ok a lexer => exact ⟨hQ a lexer (haction.of_ok hresult), h.kept⟩
  | error e lexer =>
    obtain ⟨hfits, hd⟩ := haction.of_error hresult
    exact ⟨⟨hfits, h.kept⟩, hd⟩

/-- A call leaves the session in the source. It fails, if it does, with an error of the source. -/
theorem answer_fits (call : LexerCall) (h : s.Fits source) :
    Ends (fun e s' => s'.Fits source ∧ ∃ d, e = .error d) (answer call) s
      fun _ s' => s'.Fits source := by
  cases call with
  | next => exact ask_fits h (Lexing.next_fits h.lexer) fun _ _ hfits => hfits.1
  | peek => exact ask_fits h (Lexing.look_fits _ h.lexer) fun _ _ hfits => hfits
  | peekSpan => exact ask_fits h (Lexing.look_fits _ h.lexer) fun _ _ hfits => hfits
  | peekStart => exact ask_fits h (Lexing.look_fits _ h.lexer) fun _ _ hfits => hfits
  | newlineBefore => exact ask_fits h (Lexing.look_fits _ h.lexer) fun _ _ hfits => hfits
  | bump => exact ask_fits h (Lexing.scan_fits .bumpAny h.lexer) fun _ _ hfits => hfits
  | word => exact ask_fits h (Lexing.scan_fits .word h.lexer) fun _ _ hfits => hfits
  | rescanRegExp => exact ask_fits h (Lexing.rescanRegExp_fits h.lexer) fun _ _ hfits => hfits
  | readTemplateContinuation =>
    exact ask_fits h (Lexing.readTemplateContinuation_fits h.lexer) fun _ _ hfits => hfits
  | snapshot =>
    change Session.Fits source ⟨s.lexer, s.kept ++ [s.lexer.toLexerState]⟩
    refine ⟨h.lexer, fun state hstate => ?_⟩
    rcases List.mem_append.1 hstate with hkept | hnew
    · exact h.kept state hkept
    · rw [List.mem_singleton.1 hnew]
      exact h.lexer.state
  | restore index =>
    simp only [Ends, answer, goBack]
    cases hstate : s.kept[index]? with
    | none => exact h
    | some state =>
      have hfits := h.kept state (List.mem_of_getElem? hstate)
      exact ⟨h.lexer.moved hfits, h.kept⟩

theorem after_fits (call : LexerCall) (h : s.Fits source) : (s.after call).Fits source := by
  unfold after
  cases hanswer : answer call s with
  | ok _ s' => exact (answer_fits call h).of_ok hanswer
  | error e s' => exact ((answer_fits call h).of_error hanswer).1

theorem afterAll_fits (calls : List LexerCall) (h : s.Fits source) :
    (s.afterAll calls).Fits source := by
  induction calls generalizing s with
  | nil => exact h
  | cons call calls ih => exact ih (after_fits call h)

theorem start_fits (source : String) {rules : List TokenRule}
    (hrules : ∀ rule ∈ rules, rule.IsSigil) : (start source rules).Fits source.toList :=
  ⟨Lexer.fits_ofSource source (fun rule hrule => (hrules rule hrule).advances)
    (fun rule hrule => (hrules rule hrule).isWordless)
    fun rule hrule => (hrules rule hrule).sparesWords, nofun⟩

/-- Whatever has been called before, no call reads past the end of the source or goes back past the
start of a line: a call that fails is refused with an error of the source. What the cursor has in
front of it is what the source holds from its offset on. -/
theorem error_of_answer (source : String) {rules : List TokenRule}
    (hrules : ∀ rule ∈ rules, rule.IsSigil) (calls : List LexerCall) (call : LexerCall) :
    let s := (start source rules).afterAll calls
    s.lexer.cursor.rest = source.toList.drop s.lexer.cursor.position.offset ∧
      ∀ e s', answer call s = .error e s' → e ≠ .overrun ∧ ∃ d, e = .error d := by
  intro s
  have hfits : s.Fits source.toList := afterAll_fits calls (start_fits source hrules)
  refine ⟨hfits.lexer.state.cursor, fun e s' hanswer => ?_⟩
  obtain ⟨-, d, rfl⟩ := (answer_fits call hfits).of_error hanswer
  exact ⟨nofun, d, rfl⟩

/-- The end of the source, read again as a regular expression, leaves the cursor behind it. -/
theorem error_of_answer_behindEnd :
    let s := (start "a" [.refuse '#' "Claimed", .sigil '@', .privateName]).afterAll
      [.snapshot, .next, .next, .rescanRegExp]
    s.lexer.cursor = ⟨[], ⟨1, 2, 2⟩⟩ ∧
      ∀ e s', answer .readTemplateContinuation s = .error e s' →
        e ≠ .overrun ∧ ∃ d, e = .error d := by
  have hrules : ∀ rule ∈ [.refuse '#' "Claimed", .sigil '@', .privateName],
      TokenRule.IsSigil rule := by
    simp only [List.forall_mem_cons]
    exact ⟨.refused _, .decorator, .privateName, nofun⟩
  exact ⟨by decide +kernel, (error_of_answer "a" hrules [.snapshot, .next, .next, .rescanRegExp]
    .readTemplateContinuation).2⟩

/-! ## Words -/

/-- Whatever has been called before, a token that is consumed or looked at is written as the text of
its span: a name whose flag is not raised and a keyword letter by letter, and the flag of a name is
raised exactly if there is a backslash in its text or right behind it. So a keyword that is written
out is this keyword, unless a backslash stands right behind it. -/
theorem isSpelled_of_next (source : String) {rules : List TokenRule}
    (hrules : ∀ rule ∈ rules, rule.IsSigil) (calls : List LexerCall) :
    let lexer := ((start source rules).afterAll calls).lexer
    (∀ token lexer', Lexing.next lexer = .ok token lexer' →
        token.IsSpelled source.toList lexer'.lastSpan) ∧
      ∀ next lexer', Lexing.lookahead lexer = .ok next lexer' →
        next.token.IsSpelled source.toList next.span := by
  intro lexer
  have hfits : lexer.Fits source.toList :=
    (afterAll_fits calls (start_fits source hrules)).lexer
  exact ⟨fun _ _ hnext => ((Lexing.next_fits hfits).of_ok hnext).2,
    fun _ _ hlook => ((Lexing.lookahead_fits hfits).of_ok hlook).2⟩

/-- Whether the outcome of a call is the token, and the span that of the last token. -/
def readsAt (token : Token) (span : Span) : EStateM.Result Failure Lexer Token → Bool
  | .ok token' lexer => decide (token' = token ∧ lexer.lastSpan = span)
  | .error _ _ => false

theorem exists_of_readsAt {token : Token} {span : Span}
    {result : EStateM.Result Failure Lexer Token} (h : readsAt token span result = true) :
    ∃ lexer, result = .ok token lexer ∧ lexer.lastSpan = span := by
  unfold readsAt at h
  split at h
  · next token' lexer =>
    obtain ⟨rfl, hspan⟩ := of_decide_eq_true h
    exact ⟨lexer, rfl, hspan⟩
  · cases h

/-- An escaped keyword, and one written out behind a comment. -/
theorem isSpelled_of_next_escaped :
    (∃ lexer, Lexing.next ((start "\\u0069f /**/ if" []).afterAll [.peek]).lexer =
        .ok (.identifier "if" true) lexer ∧
      (Token.identifier "if" true).WrittenAs "\\u0069f".toList " /**/ if".toList) ∧
    ∃ lexer, Lexing.next ((start "\\u0069f /**/ if" []).afterAll [.peek, .next]).lexer =
        .ok (.keyword .if_) lexer ∧
      (Token.keyword .if_).WrittenAs "if".toList "".toList := by
  have hspelled := isSpelled_of_next "\\u0069f /**/ if" (List.forall_mem_nil _)
  obtain ⟨lexer, hnext, hspan⟩ := exists_of_readsAt (show readsAt (.identifier "if" true)
    ⟨.start, ⟨1, 7, 7⟩⟩ (Lexing.next ((start "\\u0069f /**/ if" []).afterAll [.peek]).lexer) = true
    by decide +kernel)
  obtain ⟨lexer', hnext', hspan'⟩ := exists_of_readsAt (show readsAt (.keyword .if_)
    ⟨⟨1, 13, 13⟩, ⟨1, 15, 15⟩⟩
    (Lexing.next ((start "\\u0069f /**/ if" []).afterAll [.peek, .next]).lexer) = true
    by decide +kernel)
  have hfirst := (hspelled [.peek]).1 _ _ hnext
  have hsecond := (hspelled [.peek, .next]).1 _ _ hnext'
  rw [hspan] at hfirst
  rw [hspan'] at hsecond
  exact ⟨⟨lexer, hnext, hfirst⟩, lexer', hnext', hsecond⟩

/-- A keyword without an escape is a name, as if it had one, in front of a backslash. -/
theorem escaped_by_backslash_behind :
    ∃ lexer, Lexing.next (start "if\\b" []).lexer = .ok (.identifier "if" true) lexer ∧
      "if\\b".toList.extract lexer.lastSpan.start.offset lexer.lastSpan.stop.offset =
        "if".toList := by
  obtain ⟨lexer, hnext, hspan⟩ := exists_of_readsAt (show readsAt (.identifier "if" true)
    ⟨.start, ⟨1, 2, 2⟩⟩ (Lexing.next (start "if\\b" []).lexer) = true by decide +kernel)
  refine ⟨lexer, hnext, ?_⟩
  rw [hspan]
  decide

end Session

end EcmaScript
