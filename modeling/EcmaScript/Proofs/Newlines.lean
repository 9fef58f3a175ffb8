import EcmaScript.Proofs.Reading

/-!
Line terminators between tokens.

A token says whether a line terminator stands in front of it. The lexer tells that from the numbers
of the lines where it begins and stops to skip trivia, so it is to be seen that nothing else ends a
line there: where a token is scanned the lexer is right behind the last one, whether that has been
read again or not, or behind a `#!` line in which no line ends.
-/

namespace EcmaScript

/-- A run of the lexer that may look at the next token at any time, and consume the end of the source
more than once: the token it has consumed last, if any, with its span, and the lexer behind it. -/
inductive Lexer.Walk (source : String) (rules : List TokenRule) :
    Option (Token × Span) → Lexer → Prop where
  | start : Walk source rules none (.ofSource source rules)
  | look {last : Option (Token × Span)} {lexer lexer' : Lexer} {next : Lookahead}
      (walk : Walk source rules last lexer) (hlook : Lexing.lookahead lexer = .ok next lexer') :
      Walk source rules last lexer'
  | step (reading : LexerStep) {last : Option (Token × Span)} {lexer lexer' : Lexer} {token : Token}
      (walk : Walk source rules last lexer)
      (hallowed : reading = .next ∨ reading.isAllowed last.toList = true)
      (hread : reading.run lexer = .ok token lexer') :
      Walk source rules (some (token, lexer'.lastSpan)) lexer'

/-- Every run is one without looks ahead. -/
theorem Lexer.Run.walk {source : String} {rules : List TokenRule} {read : List (Token × Span)}
    {lexer : Lexer} (h : Run source rules read lexer) : Walk source rules read.head? lexer := by
  induction h with
  | start => exact .start
  | @step reading read _ _ _ _ hallowed hread ih =>
    refine .step reading ih (.inr ?_) hread
    cases read <;> exact hallowed

def EndsLine (text : List Char) : Prop := ∃ c ∈ text, isLineTerminator c = true

namespace EndsLine

theorem append {text text' : List Char} : EndsLine (text ++ text') ↔ EndsLine text ∨ EndsLine text' := by
  simp only [EndsLine, List.mem_append, or_and_right, exists_or]

/-- Where a line ends between two places of the source, one that is in between. -/
theorem extract_iff {source : List Char} {low middle high : Nat} (hlow : low ≤ middle)
    (hhigh : middle ≤ high) : EndsLine (source.extract low high) ↔
      EndsLine (source.extract low middle) ∨ EndsLine (source.extract middle high) := by
  have hsplit : source.extract low high =
      source.extract low middle ++ source.extract middle high := by
    have hlength : high - low = (middle - low) + (high - middle) := by omega
    have hdrop : low + (middle - low) = middle := by omega
    simp only [List.extract_eq_take_drop]
    rw [hlength, List.take_add, List.drop_drop, hdrop]
  rw [hsplit, append]

end EndsLine

/-- In a `#!` line no line ends. -/
theorem IsHashbang.not_endsLine {source line : List Char} (h : IsHashbang source line) :
    ¬EndsLine line := by
  rintro ⟨c, hc, hterminator⟩
  rcases h with rfl | ⟨body, rfl, hbody, -⟩
  · cases hc
  · rcases List.mem_cons.1 hc with rfl | hc
    · cases hterminator
    rcases List.mem_cons.1 hc with rfl | hc
    · cases hterminator
    · rw [hbody c hc] at hterminator
      cases hterminator

/-- A token is scanned behind trivia, in which a line ends exactly if it says so. -/
theorem Scan.exists_gap_of_lookahead {source : List Char} {rules : List TokenRule} {c d : Cursor}
    {next : Lookahead} (hc : c.At source) (h : Returns (lookahead rules) c next d) :
    ∃ gap start, c.rest = gap ++ start.rest ∧ Trivia start.rest gap ∧
      opensTrivia start.rest = false ∧ gap.any isLineTerminator = next.newlineBefore ∧
      start.At source ∧ Returns (token rules) start next.token d ∧
      next.span = ⟨start.position, d.position⟩ := by
  rw [Returns, lookahead_eq] at h
  split at h
  · cases h
  next start hskip =>
  split at h
  · cases h
  next htoken =>
  cases h
  have hstart : start.At source := (Scan.Exact.skipTrivia.exact _ hc).of_ok hskip
  obtain ⟨gap, htext, htrivia, hstop⟩ := trivia_of_skipTrivia hskip
  refine ⟨gap, start, htext, htrivia, hstop, ?_, hstart, htoken, rfl⟩
  have hoffset : start.position.offset = c.position.offset + gap.length := by
    have htotal := hc.total_eq
    rw [htext, List.length_append] at htotal
    have htotal' := hstart.total_eq
    omega
  have hlines := (line_le_and_lt_iff gap (hc.rest_eq.symm.trans htext)
    (ne_lineFeed_of_not_opensTrivia hstop)).2
  rw [← hoffset, ← hc.position.line_column, ← hstart.position.line_column] at hlines
  rw [Bool.eq_iff_iff, decide_eq_true_iff]
  exact hlines.symm

/-- What is scanned says whether a line ends in the trivia in front of it. -/
theorem Scan.newlineBefore_iff {source : List Char} {rules : List TokenRule} {c d : Cursor}
    {next : Lookahead} (hc : c.At source) (h : Returns (lookahead rules) c next d) :
    c.position.offset ≤ next.span.start.offset ∧
      (next.newlineBefore = true ↔
        EndsLine (source.extract c.position.offset next.span.start.offset)) := by
  obtain ⟨gap, start, htext, -, -, hnewline, hstart, -, hspan⟩ := exists_gap_of_lookahead hc h
  obtain ⟨hle, hextract⟩ := hc.extract_eq hstart htext rfl
  rw [hspan]
  exact ⟨hle, by rw [hextract, ← hnewline, List.any_eq_true, EndsLine]⟩

namespace Lexing

variable {lexer lexer' : Lexer} {next : Lookahead}

/-- Where no token is ahead one is scanned at the cursor. -/
theorem exists_of_takeLookahead (hnone : lexer.lookahead = none)
    (h : takeLookahead lexer = .ok next lexer') :
    ∃ stop, Scan.Returns (Scan.lookahead lexer.rules) lexer.cursor next stop ∧
      lexer' = { lexer with cursor := stop } := by
  rw [takeLookahead_of_none hnone, scanToken_eq, scan] at h
  cases hscan : Scan.lookahead lexer.rules lexer.cursor with
  | error e stop =>
    rw [hscan] at h
    cases h
  | ok next stop =>
    rw [hscan] at h
    cases h
    exact ⟨stop, hscan, rfl⟩

theorem exists_of_lookahead (hnone : lexer.lookahead = none)
    (h : lookahead lexer = .ok next lexer') :
    ∃ stop, Scan.Returns (Scan.lookahead lexer.rules) lexer.cursor next stop := by
  change (takeLookahead >>= fun _ => _) lexer = _ at h
  simp only [Bind.bind, EStateM.bind] at h
  cases htake : takeLookahead lexer with
  | error e stop =>
    rw [htake] at h
    cases h
  | ok taken behind =>
    rw [htake] at h
    cases h
    obtain ⟨stop, hscan, -⟩ := exists_of_takeLookahead hnone htake
    exact ⟨stop, hscan⟩

theorem newlineBefore_eq_ok {newline : Bool} (h : newlineBefore lexer = .ok newline lexer') :
    ∃ next, lookahead lexer = .ok next lexer' ∧ next.newlineBefore = newline := by
  change (lookahead >>= fun next => pure next.newlineBefore) lexer = _ at h
  simp only [Bind.bind, EStateM.bind] at h
  cases hlook : lookahead lexer with
  | error e stop =>
    rw [hlook] at h
    cases h
  | ok next stop =>
    rw [hlook] at h
    cases h
    exact ⟨next, rfl, rfl⟩

/-- Behind a token that is consumed the lexer rests. -/
theorem next_rests {source : List Char} (h : lexer.Tracks source) :
    Ends (fun e _ => e.IsExact source) Lexing.next lexer fun _ lexer' =>
      lexer'.lookahead = none ∧ lexer'.lastSpan.stop = lexer'.cursor.position :=
  (takeLookahead_tracks h).bind fun next _ ⟨_, htracks, hnone, _⟩ =>
    ⟨hnone, htracks.next_stop next rfl⟩

end Lexing

/-- Behind the last token, of which something is known, no line ends up to the cursor; and the token
ahead says whether a line ends in front of it. -/
structure Lexer.Watches (source : List Char) (last : Option (Token × Span)) (lexer : Lexer) :
    Prop where
  tracks : lexer.Tracks source
  lastSpan_eq : lexer.lastSpan = (last.map (·.2)).getD (.empty .start)
  last_first : ∀ t ∈ last, t.1 ≠ .endOfInput → lexer.lastSpan.start.offset < source.length ∧
    ∀ x, (source.drop lexer.lastSpan.start.offset).head? = some x → isLineTerminator x = false
  resting : lexer.lookahead = none →
    ¬EndsLine (source.extract lexer.lastSpan.stop.offset lexer.cursor.position.offset)
  ahead : ∀ next, lexer.lookahead = some next → (next.newlineBefore = true ↔
    EndsLine (source.extract lexer.lastSpan.stop.offset next.span.start.offset))

namespace Lexer.Watches

variable {source : List Char} {last : Option (Token × Span)} {lexer lexer' : Lexer}
  {token : Token}

theorem start (source : String) {rules : List TokenRule}
    (hrules : rules = [] ∨ rules = [TokenRule.privateName]) :
    Watches source.toList none (.ofSource source rules) where
  tracks := (Lexer.Rests.start source hrules).tracks
  lastSpan_eq := rfl
  last_first := by rintro _ ⟨⟩
  resting _ := (isHashbang_initialCursor source.toList).not_endsLine
  ahead := by rintro _ ⟨⟩

/-- Looking ahead scans a token, if none is ahead yet. -/
theorem look {next : Lookahead} (h : Watches source last lexer)
    (hlook : Lexing.lookahead lexer = .ok next lexer') :
    Watches source last lexer' ∧ lexer'.lookahead = some next := by
  obtain ⟨htracks, hnext, -, hlast, hknown⟩ := (Lexing.lookahead_tracks h.tracks).of_ok hlook
  refine ⟨⟨htracks, hlast.trans h.lastSpan_eq, ?_, ?_, ?_⟩, hnext⟩
  · rw [hlast]
    exact h.last_first
  · rw [hnext]
    rintro ⟨⟩
  · rw [hnext, hlast]
    rintro _ ⟨⟩
    cases hahead : lexer.lookahead with
    | some known =>
      rw [hknown known hahead]
      exact h.ahead known hahead
    | none =>
      obtain ⟨stop, hscan⟩ := Lexing.exists_of_lookahead hahead hlook
      obtain ⟨hle, hnewline⟩ := Scan.newlineBefore_iff h.tracks.cursor hscan
      rw [hnewline, EndsLine.extract_iff (h.tracks.last_le_cursor hahead) hle]
      exact (or_iff_right (h.resting hahead)).symm

/-- A token that is consumed leaves nothing between it and the cursor. -/
theorem of_resting (htracks : lexer.Tracks source) (hnone : lexer.lookahead = none)
    (hstop : lexer.lastSpan.stop = lexer.cursor.position)
    (hfirst : token ≠ .endOfInput → lexer.lastSpan.start.offset < source.length ∧
      ∀ x, (source.drop lexer.lastSpan.start.offset).head? = some x →
        isLineTerminator x = false) : Watches source (some (token, lexer.lastSpan)) lexer where
  tracks := htracks
  lastSpan_eq := rfl
  last_first := by
    rintro _ ⟨⟩
    exact hfirst
  resting _ := by
    rintro ⟨c, hc, -⟩
    rw [hstop, List.extract_eq_take_drop, Nat.sub_self, List.take_zero] at hc
    cases hc
  ahead := by
    rw [hnone]
    rintro _ ⟨⟩

theorem next (h : Watches source last lexer) (hread : Lexing.next lexer = .ok token lexer') :
    Watches source (some (token, lexer'.lastSpan)) lexer' := by
  obtain ⟨htracks, hstart, -, hless, hchar, -⟩ := (Lexing.next_tracks h.tracks).of_ok hread
  obtain ⟨hnone, hstop⟩ := (Lexing.next_rests h.tracks).of_ok hread
  refine .of_resting htracks hnone hstop fun hmore => ⟨?_, hchar⟩
  have hle := htracks.last_stop.offset_le
  have := hless hmore
  omega

/-- What is read again begins where the last token did. -/
theorem reread (h : Watches source last lexer) (hmore : ∀ t ∈ last, t.1 ≠ .endOfInput)
    (hlast : last.isSome = true) (htracks : lexer'.Tracks source) {stop : Cursor}
    (hend : lexer' = { lexer with
      cursor := stop, lookahead := none, lastSpan := ⟨lexer.lastSpan.start, stop.position⟩ }) :
    Watches source (some (token, lexer'.lastSpan)) lexer' := by
  obtain ⟨t, rfl⟩ := Option.isSome_iff_exists.1 hlast
  subst hend
  exact .of_resting htracks rfl rfl fun _ => h.last_first t rfl (hmore t rfl)

theorem regExp (h : Watches source last lexer) (hmore : ∀ t ∈ last, t.1 ≠ .endOfInput)
    (hlast : last.isSome = true) (hread : Lexing.rescanRegExp lexer = .ok token lexer') :
    Watches source (some (token, lexer'.lastSpan)) lexer' := by
  obtain ⟨t, rfl⟩ := Option.isSome_iff_exists.1 hlast
  obtain ⟨hless, hchar⟩ := h.last_first t rfl (hmore t rfl)
  obtain ⟨htracks, -, -⟩ := (Lexing.rescanRegExp_tracks h.tracks hless hchar).of_ok hread
  have hrescan : Lexing.rescan (fun start => do
      set (Lexing.cursorBehind lexer.source start)
      Scan.regExp start) lexer = .ok token lexer' := hread
  obtain ⟨stop, -, hend⟩ := Lexing.rescan_ok hrescan
  exact h.reread hmore rfl htracks hend

theorem template (h : Watches source last lexer) (hmore : ∀ t ∈ last, t.1 ≠ .endOfInput)
    (hlast : last.isSome = true)
    (hread : Lexing.readTemplateContinuation lexer = .ok token lexer') :
    Watches source (some (token, lexer'.lastSpan)) lexer' := by
  obtain ⟨htracks, -, -⟩ := (Lexing.readTemplateContinuation_tracks h.tracks).of_ok hread
  obtain ⟨stop, -, hend⟩ := Lexing.rescan_ok hread
  exact h.reread hmore hlast htracks hend

/-- A step that replaces the last token does so behind one that is not the end of the source. -/
theorem last_of_isAllowed {reading : LexerStep} (hreading : reading ≠ .next)
    (h : reading.isAllowed last.toList = true) :
    last.isSome = true ∧ ∀ t ∈ last, t.1 ≠ .endOfInput := by
  cases last with
  | none => cases reading <;> cases h; exact absurd rfl hreading
  | some t =>
    refine ⟨rfl, ?_⟩
    rintro _ ⟨⟩ hend
    cases reading
    · exact hreading rfl
    all_goals simp [LexerStep.isAllowed, hend] at h

theorem step (h : Watches source last lexer) (reading : LexerStep)
    (hallowed : reading = .next ∨ reading.isAllowed last.toList = true)
    (hread : reading.run lexer = .ok token lexer') :
    Watches source (some (token, lexer'.lastSpan)) lexer' := by
  cases reading with
  | next => exact h.next hread
  | regExp =>
    obtain ⟨hlast, hmore⟩ := last_of_isAllowed (by rintro ⟨⟩) (hallowed.resolve_left (by rintro ⟨⟩))
    exact h.regExp hmore hlast hread
  | template =>
    obtain ⟨hlast, hmore⟩ := last_of_isAllowed (by rintro ⟨⟩) (hallowed.resolve_left (by rintro ⟨⟩))
    exact h.template hmore hlast hread

end Lexer.Watches

theorem Lexer.Walk.watches {source : String} {rules : List TokenRule}
    (hrules : rules = [] ∨ rules = [TokenRule.privateName]) {last : Option (Token × Span)}
    {lexer : Lexer} (h : Walk source rules last lexer) : Watches source.toList last lexer := by
  induction h with
  | start => exact .start source hrules
  | look _ hlook ih => exact (ih.look hlook).1
  | step reading _ hallowed hread ih => exact ih.step reading hallowed hread

/-- At any time the next token is preceded by a line terminator exactly if one stands in the source
between the last token, or the start of the source, and the next one. -/
theorem Lexer.newlineBefore_iff_endsLine (source : String) (rules : List TokenRule)
    (hrules : rules = [] ∨ rules = [TokenRule.privateName]) (last : Option (Token × Span))
    (lexer lexer' : Lexer) (newline : Bool) (h : Walk source rules last lexer)
    (hnewline : Lexing.newlineBefore lexer = .ok newline lexer') :
    ∃ next, Lexing.lookahead lexer = .ok next lexer' ∧
      let low := (last.map (·.2.stop.offset)).getD 0
      low ≤ next.span.start.offset ∧
        (newline = true ↔ ∃ c ∈ source.toList.extract low next.span.start.offset,
          isLineTerminator c = true) := by
  obtain ⟨next, hlook, rfl⟩ := Lexing.newlineBefore_eq_ok hnewline
  obtain ⟨hwatches, hnext⟩ := (h.watches hrules).look hlook
  have hlow : lexer'.lastSpan.stop.offset = (last.map (·.2.stop.offset)).getD 0 := by
    rw [hwatches.lastSpan_eq]
    cases last <;> rfl
  refine ⟨next, hlook, ?_⟩
  rw [← hlow]
  exact ⟨hwatches.tracks.last_le_next next hnext, hwatches.ahead next hnext⟩

/-- The line terminator at the end of a template, which is read again behind a brace, is not in front
of the next token. -/
theorem Lexer.newlineBefore_iff_endsLine_of_template :
    ∃ last lexer lexer' next, Walk "\x60\n$\x7ba\x7d\n\x60 b" [] last lexer ∧
      Lexing.newlineBefore lexer = .ok false lexer' ∧ Lexing.lookahead lexer = .ok next lexer' ∧
      ¬∃ c ∈ "\x60\n$\x7ba\x7d\n\x60 b".toList.extract ((last.map (·.2.stop.offset)).getD 0)
        next.span.start.offset, isLineTerminator c = true := by
  have hevaluated : (follow "\x60\n$\x7ba\x7d\n\x60 b" [] [.template, .next, .next, .next]).bind
      (Lexing.newlineBefore.run' ·.2) = some false := by
    decide +kernel
  obtain ⟨⟨read, lexer⟩, hfollow, hflag⟩ := Option.bind_eq_some_iff.1 hevaluated
  have hwalk := (Run.of_follow hfollow).walk
  unfold EStateM.run' at hflag
  split at hflag
  · next newline lexer' hnewline =>
    cases hflag
    obtain ⟨next, hlook, -, hiff⟩ :=
      newlineBefore_iff_endsLine _ _ (.inl rfl) _ _ _ _ hwalk hnewline
    exact ⟨_, lexer, lexer', next, hwalk, hnewline, hlook, fun hends => Bool.false_ne_true
      (hiff.2 hends)⟩
  · cases hflag

end EcmaScript
