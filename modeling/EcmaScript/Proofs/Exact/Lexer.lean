import EcmaScript.Proofs.Progress.Lexer
import EcmaScript.Proofs.Wording

/-!
The lexer at exact positions.

A lexer tracks its source if the cursor, the last token and the token ahead are at exact positions,
one behind the other with nothing but trivia in between, and the token ahead is written where it
says. Every step of the lexer keeps it so. A slash is read again as a regular expression from the
character behind it, whose position is made up without reading the slash: that is exact since no
token starts with a line terminator.
-/

namespace EcmaScript

variable {σ α : Type}

/-- Two things that hold of the end of a computation. -/
theorem Ends.and {E E' : Failure → σ → Prop} {p : EStateM Failure σ α} {s : σ}
    {Q Q' : α → σ → Prop} (h : Ends E p s Q) (h' : Ends E' p s Q') :
    Ends E' p s fun a s' => Q a s' ∧ Q' a s' := by
  unfold Ends
  cases hp : p s with
  | ok a s' => exact ⟨h.of_ok hp, h'.of_ok hp⟩
  | error e s' => exact h'.of_error hp

namespace Position.IsExact

variable {source : List Char} {p : Position}

/-- Behind a character that is no line terminator the column is one more. -/
theorem behind (h : p.IsExact source) (hless : p.offset < source.length)
    (hnext : ∀ x, (source.drop p.offset).head? = some x → isLineTerminator x = false) :
    (⟨p.line, p.column + 1, p.offset + 1⟩ : Position).IsExact source := by
  cases hrest : source.drop p.offset with
  | nil =>
    have hlength := congrArg List.length hrest
    rw [List.length_drop, List.length_nil] at hlength
    omega
  | cons x rest =>
    have hx : isLineTerminator x = false := hnext x (by rw [hrest]; rfl)
    have hpast := h.past hrest
    unfold Position.past at hpast
    rw [hx] at hpast
    cases hpair : x == '\r' && rest.head? == some '\n' <;> rw [hpair] at hpast <;> exact hpast

end Position.IsExact

theorem Cursor.At.total_eq {source : List Char} {c : Cursor} (h : c.At source) :
    c.position.offset + c.rest.length = source.length := by
  have hle := h.position.offset_le
  rw [h.rest_eq, List.length_drop]
  omega

/-- The token starts at an exact position that is no line terminator, and is written there. -/
structure Lookahead.IsExact (source : List Char) (next : Lookahead) : Prop where
  start : next.span.start.IsExact source
  start_char : ∀ x, (source.drop next.span.start.offset).head? = some x →
    isLineTerminator x = false
  written : next.token.IsWritten source next.span.start.offset next.span.stop.offset

/-- Nothing but trivia stands between the offset and the token, and the token says whether a line
terminator is there. -/
structure Lookahead.Follows (source : List Char) (offset : Nat) (next : Lookahead) : Prop where
  gap : Gap source offset next.span.start.offset
  onLine : next.newlineBefore = false → OnLine source offset

/-- The lexer is at exact positions: the cursor, the last token, and a token ahead between the last
one and the cursor. In front of the first token there is no last one, and maybe a hashbang. -/
structure Lexer.Tracks (source : List Char) (lexer : Lexer) : Prop where
  inSource : lexer.InSource source
  rules : ∀ rule ∈ lexer.rules, rule.IsExact source
  wordless : ∀ rule ∈ lexer.rules, rule.IsWordless
  cursor : lexer.cursor.At source
  last_start : lexer.lastSpan.start.IsExact source
  last_stop : lexer.lastSpan.stop.IsExact source
  last_cursor : lexer.lookahead = none →
    lexer.lastSpan.stop.offset = lexer.cursor.position.offset ∨ lexer.lastSpan.stop.offset = 0
  next : ∀ next, lexer.lookahead = some next → next.IsExact source
  follows : ∀ next, lexer.lookahead = some next → 0 < lexer.lastSpan.stop.offset →
    next.Follows source lexer.lastSpan.stop.offset
  last_le_next : ∀ next, lexer.lookahead = some next →
    lexer.lastSpan.stop.offset ≤ next.span.start.offset
  next_stop : ∀ next, lexer.lookahead = some next → next.span.stop = lexer.cursor.position

namespace Lexer.Tracks

variable {source : List Char} {lexer : Lexer}

theorem last_le_cursor (h : lexer.Tracks source) (hnone : lexer.lookahead = none) :
    lexer.lastSpan.stop.offset ≤ lexer.cursor.position.offset := by
  have hlast := h.last_cursor hnone
  omega

/-- The last token ends in front of the next one. -/
theorem last_le_nextStart (h : lexer.Tracks source) :
    lexer.lastSpan.stop.offset ≤ lexer.nextStart := by
  cases hnext : lexer.lookahead with
  | some next =>
    rw [Lexer.nextStart_of_some hnext]
    exact h.last_le_next next hnext
  | none => exact Nat.le_trans (h.last_le_cursor hnext) (Lexer.nextStart_of_none hnext).1

/-- The last token ends in front of the cursor. -/
theorem last_le (h : lexer.Tracks source) :
    lexer.lastSpan.stop.offset ≤ lexer.cursor.position.offset := by
  cases hnext : lexer.lookahead with
  | some next =>
    exact Nat.le_trans (h.last_le_next next hnext) (h.inSource.start_le next hnext)
  | none => exact h.last_le_cursor hnext

/-- A lexer in front of the next token, with the cursor behind the last one. -/
theorem at_cursor (h : lexer.Tracks source) {c : Cursor} {last : Span} (hc : c.At source)
    (hstart : last.start.IsExact source) (hstop : last.stop.IsExact source)
    (heq : last.stop.offset = c.position.offset) :
    ({ lexer with cursor := c, lookahead := none, lastSpan := last } : Lexer).Tracks source where
  inSource := ⟨h.inSource.source_eq, h.inSource.advances, hc.total_eq, by rintro _ ⟨⟩,
    by rintro _ ⟨⟩⟩
  rules := h.rules
  wordless := h.wordless
  cursor := hc
  last_start := hstart
  last_stop := hstop
  last_cursor _ := .inl heq
  next := by rintro _ ⟨⟩
  follows := by rintro _ ⟨⟩
  last_le_next := by rintro _ ⟨⟩
  next_stop := by rintro _ ⟨⟩

end Lexer.Tracks

/-- The next token starts and ends at exact positions, behind the trivia in front of it. -/
theorem Scan.Exact.lookahead {source : List Char} {rules : List TokenRule}
    (hrules : ∀ rule ∈ rules, rule.IsExact source) (hwordless : ∀ rule ∈ rules, rule.IsWordless)
    {c : Cursor} (hc : c.At source) :
    Ends (fun e _ => e.IsExact source) (Scan.lookahead rules) c fun next c' =>
      c'.At source ∧ next.IsExact source ∧ next.Follows source c.position.offset ∧
        next.span.stop = c'.position := by
  unfold Ends
  rw [lookahead_eq]
  cases hstart : Scan.skipTrivia c with
  | error e stopped => exact ((skipTrivia.exact c hc).of_error hstart).2
  | ok _ start =>
    have hat : start.At source := (skipTrivia.exact c hc).of_ok hstart
    have hchar := (not_lineTerminator_of_skipTrivia c).of_ok hstart
    dsimp only
    cases hresult : Scan.token rules start with
    | error e stopped => exact (((token hrules).exact start hat).of_error hresult).2
    | ok t stop =>
      have hstop : stop.At source := ((token hrules).exact start hat).of_ok hresult
      obtain ⟨hgap, honLine⟩ := Gap.of_skipTrivia hc hat hstart
      refine ⟨hstop, ⟨hat.position, ?_, isWritten_of_token hwordless hat hstop hresult⟩,
        ⟨hgap, fun hline => honLine (of_decide_eq_false hline)⟩, rfl⟩
      dsimp only
      rw [← hat.rest_eq]
      exact hchar

namespace Lexing

variable {source : List Char} {lexer : Lexer}

theorem takeLookahead_tracks (h : lexer.Tracks source) :
    Ends (fun e _ => e.IsExact source) takeLookahead lexer fun next lexer' =>
      next.span.start.offset = lexer.nextStart ∧
        { lexer' with lookahead := some next }.Tracks source ∧ lexer'.lookahead = none ∧
        lexer'.lastSpan = lexer.lastSpan ∧
        (∀ known, lexer.lookahead = some known → next = known) := by
  -- What is new about the lexer; where it is in the source is known.
  have hexact : Ends (fun e _ => e.IsExact source) takeLookahead lexer fun next lexer' =>
      next.IsExact source ∧ lexer'.cursor.At source ∧ next.span.stop = lexer'.cursor.position ∧
        lexer'.rules = lexer.rules ∧ lexer'.lastSpan = lexer.lastSpan ∧
        (0 < lexer.lastSpan.stop.offset → next.Follows source lexer.lastSpan.stop.offset) := by
    cases hnext : lexer.lookahead with
    | some known =>
      unfold Ends
      rw [takeLookahead_of_some hnext]
      exact ⟨h.next known hnext, h.cursor, h.next_stop known hnext, rfl, rfl, h.follows known hnext⟩
    | none =>
      unfold Ends
      rw [takeLookahead_of_none hnext, scanToken_eq]
      refine ends_scan ((Scan.Exact.lookahead h.rules h.wordless h.cursor).mono ?_ fun _ _ he => he)
      rintro next c ⟨hc, hexact, hfollows, hstop⟩
      refine ⟨hexact, hc, hstop, rfl, rfl, fun hpositive => ?_⟩
      rwa [(h.last_cursor hnext).resolve_right (Nat.ne_of_gt hpositive)]
  refine ((takeLookahead_ends h.inSource).and hexact).mono ?_ fun _ _ he => he
  rintro next lexer' ⟨⟨hstart, hsource, hnone, hknown⟩, hnext, hcursor, hstop, hrules, hlast,
    hfollows⟩
  have hle := h.last_le_nextStart
  refine ⟨hstart, ⟨hsource, ?_, ?_, hcursor, ?_, ?_, by rintro ⟨⟩, ?_, ?_, ?_, ?_⟩, hnone, hlast,
    hknown⟩
  · rw [hrules]
    exact h.rules
  · rw [hrules]
    exact h.wordless
  · rw [hlast]
    exact h.last_start
  · rw [hlast]
    exact h.last_stop
  · rintro _ ⟨⟩
    exact hnext
  · rintro _ ⟨⟩
    rw [hlast]
    exact hfollows
  · rintro _ ⟨⟩
    rw [hlast, hstart]
    exact hle
  · rintro _ ⟨⟩
    exact hstop

/-- Looking at the next token changes nothing but the lookahead. -/
theorem lookahead_tracks (h : lexer.Tracks source) :
    Ends (fun e _ => e.IsExact source) lookahead lexer fun next lexer' =>
      lexer'.Tracks source ∧ lexer'.lookahead = some next ∧ lexer'.nextStart = lexer.nextStart ∧
        lexer'.lastSpan = lexer.lastSpan ∧
        (∀ known, lexer.lookahead = some known → next = known) := by
  refine (takeLookahead_tracks h).bind fun next lexer' ⟨hstart, htracks, _, hlast, hknown⟩ => ?_
  exact ⟨htracks, rfl, (Lexer.nextStart_of_some rfl).trans hstart, hlast, hknown⟩

/-- Consuming the next token makes it the last one. -/
theorem next_tracks (h : lexer.Tracks source) :
    Ends (fun e _ => e.IsExact source) next lexer fun token lexer' =>
      lexer'.Tracks source ∧ lexer'.lastSpan.start.offset = lexer.nextStart ∧
        lexer.nextStart ≤ lexer'.lastSpan.stop.offset ∧
        (token ≠ .endOfInput → lexer.nextStart < lexer'.lastSpan.stop.offset) ∧
        (∀ x, (source.drop lexer'.lastSpan.start.offset).head? = some x →
          isLineTerminator x = false) ∧
        token.IsWritten source lexer.nextStart lexer'.lastSpan.stop.offset ∧
        ∀ known, lexer.lookahead = some known → lexer'.lastSpan = known.span := by
  refine (takeLookahead_tracks h).bind fun next lexer' ⟨hstart, htracks, hnone, _, hknown⟩ => ?_
  have hstop : next.span.stop = lexer'.cursor.position := htracks.next_stop next rfl
  have hexact : next.IsExact source := htracks.next next rfl
  have hle : next.span.start.offset ≤ lexer'.cursor.position.offset :=
    htracks.inSource.start_le next rfl
  have hless : next.token ≠ .endOfInput →
      next.span.start.offset < lexer'.cursor.position.offset := htracks.inSource.start_lt next rfl
  have hbehind := htracks.at_cursor htracks.cursor hexact.start
    (by rw [hstop]; exact htracks.cursor.position) (congrArg Position.offset hstop)
  refine ⟨?_, hstart, ?_, ?_, hexact.start_char, ?_, ?_⟩
  · change ({ lexer' with lastSpan := next.span } : Lexer).Tracks source
    rw [hnone]
    exact hbehind
  · change lexer.nextStart ≤ next.span.stop.offset
    rw [← hstart, hstop]
    exact hle
  · intro htoken
    change lexer.nextStart < next.span.stop.offset
    rw [← hstart, hstop]
    exact hless htoken
  · rw [← hstart]
    exact hexact.written
  · intro known hsome
    rw [← hknown known hsome]

/-- Looking at two tokens leaves the lexer as it was, and says whether there is a line terminator in
between. -/
theorem peekSecond_tracks (h : lexer.Tracks source) :
    Ends (fun e _ => e.IsExact source) peekSecond lexer fun ahead lexer' =>
      lexer'.Tracks source ∧ lexer'.toLexerState = lexer.toLexerState ∧
        ∀ known, lexer.lookahead = some known → 0 < known.span.stop.offset → ahead.2 = false →
          OnLine source known.span.stop.offset := by
  change Ends _ (next >>= fun _ => _) lexer _
  refine (next_tracks h).bind fun _ first ⟨hfirst, _, _, _, _, _, hspan⟩ => ?_
  refine (lookahead_tracks hfirst).bind fun next second ⟨hsecond, hnext, _, hlast, _⟩ => ?_
  refine ⟨⟨?_, hsecond.rules, hsecond.wordless, h.cursor, h.last_start, h.last_stop, h.last_cursor,
    h.next, h.follows, h.last_le_next, h.next_stop⟩, rfl, fun known hknown hpositive hline => ?_⟩
  · exact ⟨hsecond.inSource.source_eq, hsecond.inSource.advances, h.inSource.total_eq,
      h.inSource.start_le, h.inSource.start_lt⟩
  · have hfollows := hsecond.follows next hnext
    rw [hlast, hspan known hknown] at hfollows
    exact (hfollows hpositive).onLine hline

/-- What is read again becomes the last token, which starts where it did. -/
theorem rescan_tracks {action : Position → Scan Token} {least : Nat} (h : lexer.Tracks source)
    (haction : Ends (fun e _ => e.IsExact source) (action lexer.lastSpan.start) lexer.cursor
      fun _ c => c.At source ∧ least ≤ c.position.offset) :
    Ends (fun e _ => e.IsExact source) (rescan action) lexer fun _ lexer' =>
      lexer'.Tracks source ∧ lexer'.lastSpan.start = lexer.lastSpan.start ∧
        least ≤ lexer'.lastSpan.stop.offset := by
  change Ends _ (scan (action lexer.lastSpan.start) >>= fun _ => _)
    { lexer with lookahead := none } _
  refine Ends.bind (Q := fun _ lexer' => ∃ c, (c.At source ∧ least ≤ c.position.offset) ∧
    lexer' = { lexer with lookahead := none, cursor := c }) ?_ ?_
  · exact ends_scan (haction.mono (fun _ c hc => ⟨c, hc, rfl⟩) fun _ _ he => he)
  · rintro token _ ⟨c, ⟨hc, hle⟩, rfl⟩
    exact ⟨h.at_cursor hc h.last_start hc.position rfl, rfl, hle⟩

theorem rescanRegExp_tracks (h : lexer.Tracks source)
    (hless : lexer.lastSpan.start.offset < source.length)
    (hchar : ∀ x, (source.drop lexer.lastSpan.start.offset).head? = some x →
      isLineTerminator x = false) :
    Ends (fun e _ => e.IsExact source) rescanRegExp lexer fun _ lexer' =>
      lexer'.Tracks source ∧ lexer'.lastSpan.start = lexer.lastSpan.start ∧
        lexer.lastSpan.start.offset + 1 ≤ lexer'.lastSpan.stop.offset := by
  change Ends _ (rescan fun start => do
    set (cursorBehind lexer.source start)
    Scan.regExp start) lexer _
  have hstart := h.last_start
  have hbehind : (cursorBehind lexer.source lexer.lastSpan.start).At source := by
    rw [h.inSource.source_eq]
    exact ⟨rfl, hstart.behind hless hchar⟩
  have hread := (Scan.Exact.regExp lexer.lastSpan.start).exact _ hbehind
  have hmoves : Scan.GoesOn (Scan.regExp lexer.lastSpan.start)
      (cursorBehind lexer.source lexer.lastSpan.start) := .regExp _
  refine rescan_tracks h ((Ends.and hmoves hread).mono ?_ fun _ _ he => he.2)
  rintro _ c ⟨⟨hlead, -⟩, hc⟩
  have htotal := hlead.total_eq
  have hlength := hlead.length_le
  refine ⟨hc, ?_⟩
  simp only [cursorBehind] at htotal hlength
  omega

theorem readTemplateContinuation_tracks (h : lexer.Tracks source) :
    Ends (fun e _ => e.IsExact source) readTemplateContinuation lexer fun _ lexer' =>
      lexer'.Tracks source ∧ lexer'.lastSpan.start = lexer.lastSpan.start ∧
        lexer.lastSpan.stop.offset ≤ lexer'.lastSpan.stop.offset := by
  have hstart := h.last_start
  have hle := h.last_le
  have hread := (Scan.Exact.templateContinuation lexer.lastSpan.start).exact _ h.cursor
  have hmoves : Scan.GoesOn (Scan.templateContinuation lexer.lastSpan.start) lexer.cursor :=
    .templateContinuation _
  refine rescan_tracks h ((Ends.and hmoves hread).mono ?_ fun _ _ he => he.2)
  rintro _ c ⟨⟨hlead, -⟩, hc⟩
  have htotal := hlead.total_eq
  have hlength := hlead.length_le
  exact ⟨hc, by omega⟩

end Lexing

/-- A lexer at the start of a source. -/
theorem Lexer.tracks_ofSource (source : String) {rules : List TokenRule}
    (hadvances : ∀ rule ∈ rules, rule.Advances)
    (hexact : ∀ rule ∈ rules, rule.IsExact source.toList)
    (hwordless : ∀ rule ∈ rules, rule.IsWordless) :
    (ofSource source rules).Tracks source.toList where
  inSource := inSource_ofSource source hadvances
  rules := hexact
  wordless := hwordless
  cursor := by
    change (initialCursor source.toList).At source.toList
    have hline := Scan.Exact.skipHashbang.exact _ (Cursor.At.ofSource source.toList)
    unfold initialCursor
    cases hresult : Scan.skipHashbang (.ofSource source.toList) with
    | ok _ c => exact hline.of_ok hresult
    | error e c => exact (hline.of_error hresult).1
  last_start := .start
  last_stop := .start
  last_cursor _ := .inr rfl
  next := by rintro _ ⟨⟩
  follows := by rintro _ ⟨⟩
  last_le_next := by rintro _ ⟨⟩
  next_stop := by rintro _ ⟨⟩

end EcmaScript
