import EcmaScript.Proofs.Exact.Lexer
import EcmaScript.Proofs.Lexer
import EcmaScript.Proofs.Trivia
import Mathlib.Data.List.Chain

/-!
Runs of the lexer over a source.

A run consumes one token after the other. A slash may be read again as a regular expression, and a
closing brace as the continuation of a template, right after it has been consumed: then what is read
replaces it. The tokens of a run tile the source: they stand one behind the other, and what stands
between them is trivia. So no character is dropped or belongs to two tokens, and a source has at
most as many tokens as characters.
-/

namespace EcmaScript

/-- The ways to consume a token. -/
inductive LexerStep where
  | next
  /-- Reads the last token, a slash or a slash with an equals sign, as a regular expression. -/
  | regExp
  /-- Reads on in a template behind the last token, a closing brace. -/
  | template
deriving DecidableEq

namespace LexerStep

def run : LexerStep → Lexing Token
  | .next => Lexing.next
  | .regExp => Lexing.rescanRegExp
  | .template => Lexing.readTemplateContinuation

/-- Whether the step may be taken behind the tokens, of which the last one comes first: nothing is
consumed behind the end of the source. -/
def isAllowed (reading : LexerStep) (read : List (Token × Span)) : Bool :=
  match reading, read.head?.map (·.1) with
  | .next, last => last != some .endOfInput
  | .regExp, last => last == some (.punctuator .slash) || last == some (.punctuator .slashEq)
  | .template, last => last == some (.punctuator .rBrace)

/-- The tokens that stay: what is read again replaces the last one. -/
def kept : LexerStep → List (Token × Span) → List (Token × Span)
  | .next, read => read
  | .regExp, read | .template, read => read.tail

end LexerStep

/-- A run of the lexer over the source: the tokens it has consumed, last one first, with their
spans, and the lexer behind them. -/
inductive Lexer.Run (source : String) (rules : List TokenRule) :
    List (Token × Span) → Lexer → Prop where
  | start : Run source rules [] (.ofSource source rules)
  | step (reading : LexerStep) {read : List (Token × Span)} {lexer lexer' : Lexer} {token : Token}
      (run : Run source rules read lexer) (hallowed : reading.isAllowed read = true)
      (hread : reading.run lexer = .ok token lexer') :
      Run source rules ((token, lexer'.lastSpan) :: reading.kept read) lexer'

/-- The run that takes the given steps, the last one first, if they are allowed and succeed. -/
def Lexer.follow (source : String) (rules : List TokenRule) :
    List LexerStep → Option (List (Token × Span) × Lexer)
  | [] => some ([], .ofSource source rules)
  | reading :: earlier =>
    match follow source rules earlier with
    | none => none
    | some (read, lexer) =>
      if reading.isAllowed read then
        match reading.run lexer with
        | .ok token lexer' => some ((token, lexer'.lastSpan) :: reading.kept read, lexer')
        | .error _ _ => none
      else
        none

theorem Lexer.Run.of_follow {source : String} {rules : List TokenRule} {readings : List LexerStep}
    {read : List (Token × Span)} {lexer : Lexer}
    (h : follow source rules readings = some (read, lexer)) : Run source rules read lexer := by
  induction readings generalizing read lexer with
  | nil =>
    cases h
    exact .start
  | cons reading earlier ih =>
    unfold follow at h
    split at h
    · cases h
    · next before middle hearlier =>
      split at h
      · next hallowed =>
        split at h
        · next token lexer' hread =>
          cases h
          exact .step reading (ih hearlier) hallowed hread
        · cases h
      · cases h

/-! ## What the tokens cover -/

/-- The span of the token covers a part of the source, the end of the source an empty one. -/
structure Covers (source : List Char) (t : Token × Span) : Prop where
  nonempty : t.1 ≠ .endOfInput → t.2.start.offset < t.2.stop.offset
  atEnd : t.1 = .endOfInput →
    t.2.start.offset = source.length ∧ t.2.stop.offset = source.length
  stop_le : t.2.stop.offset ≤ source.length

/-- The second token stands behind the first one, with nothing but trivia between them. -/
structure ComesBehind (source : List Char) (t u : Token × Span) : Prop where
  more : t.1 ≠ .endOfInput
  le : t.2.stop.offset ≤ u.2.start.offset
  trivia : Trivia (source.drop u.2.start.offset)
    (source.extract t.2.stop.offset u.2.start.offset)

/-- The text is a line that begins with `#!`, without its line terminator, or there is no such
line. -/
def IsHashbang (source line : List Char) : Prop :=
  line = [] ∨ ∃ body, line = '#' :: '!' :: body ∧ (∀ c ∈ body, isLineTerminator c = false) ∧
    (source.drop line.length).head?.all isLineTerminator = true

/-- The token is the first one, with nothing but a `#!` line and trivia in front of it. -/
def Leads (source : List Char) (t : Token × Span) : Prop :=
  ∃ line gap, source.take t.2.start.offset = line ++ gap ∧ IsHashbang source line ∧
    Trivia (source.drop t.2.start.offset) gap

/-- The tokens, in their order, tile the source from its start to the end of the last one. -/
structure Tiles (source : List Char) (tokens : List (Token × Span)) : Prop where
  covers : ∀ t ∈ tokens, Covers source t
  leads : ∀ t ∈ tokens.head?, Leads source t
  follows : tokens.IsChain (ComesBehind source)

theorem Covers.start_le_stop {source : List Char} {t : Token × Span} (h : Covers source t) :
    t.2.start.offset ≤ t.2.stop.offset := by
  by_cases hend : t.1 = .endOfInput
  · have := h.atEnd hend
    omega
  · exact Nat.le_of_lt (h.nonempty hend)

namespace Tiles

variable {source : List Char} {tokens : List (Token × Span)}

/-- Of two tokens the earlier one begins, and ends, in front of the later one. -/
theorem ordered (h : Tiles source tokens) : tokens.Pairwise fun t u =>
    t.2.start.offset < u.2.start.offset ∧ t.2.stop.offset ≤ u.2.start.offset := by
  obtain ⟨hcovers, -, hfollows⟩ := h
  induction tokens with
  | nil => exact .nil
  | cons t tokens ih =>
    cases tokens with
    | nil => exact List.pairwise_singleton _ t
    | cons u tokens =>
      obtain ⟨htu, hrest⟩ := List.isChain_cons_cons.1 hfollows
      have hordered := ih (fun v hv => hcovers v (List.mem_cons_of_mem t hv)) hrest
      have ht := (hcovers t List.mem_cons_self).nonempty htu.more
      have hle := htu.le
      refine hordered.cons fun v hv => ?_
      rcases List.mem_cons.1 hv with rfl | hv
      · omega
      · have huv := (List.pairwise_cons.1 hordered).1 v hv
        omega

/-- Every token but the end of the source takes a character of its own. -/
theorem length_le (h : Tiles source tokens) :
    (tokens.filter (·.1 ≠ .endOfInput)).length ≤ source.length := by
  -- The tokens from a place on take the characters from there on.
  have hfrom (tokens : List (Token × Span)) (low : Nat) (hlow : low ≤ source.length)
      (hcovers : ∀ t ∈ tokens, Covers source t) (hstart : ∀ t ∈ tokens, low ≤ t.2.start.offset)
      (hordered : tokens.Pairwise fun t u =>
        t.2.start.offset < u.2.start.offset ∧ t.2.stop.offset ≤ u.2.start.offset) :
      low + (tokens.filter (·.1 ≠ .endOfInput)).length ≤ source.length := by
    induction tokens generalizing low with
    | nil => exact hlow
    | cons t tokens ih =>
      obtain ⟨hbehind, hordered⟩ := List.pairwise_cons.1 hordered
      have ht := hcovers t List.mem_cons_self
      have hrest := ih t.2.stop.offset ht.stop_le
        (fun u hu => hcovers u (List.mem_cons_of_mem t hu)) (fun u hu => (hbehind u hu).2) hordered
      have hle := hstart t List.mem_cons_self
      by_cases hend : t.1 = .endOfInput
      · have := ht.start_le_stop
        rw [List.filter_cons_of_neg (by simpa using hend)]
        omega
      · have := ht.nonempty hend
        rw [List.filter_cons_of_pos (by simpa using hend), List.length_cons]
        omega
  simpa using hfrom tokens 0 (Nat.zero_le _) h.covers (fun _ _ => Nat.zero_le _) h.ordered

end Tiles

/-! ## Steps of a run -/

theorem Scan.yields_token_of_cons {rules : List TokenRule}
    (hrules : rules = [] ∨ rules = [TokenRule.privateName]) {first : Char} {rest : List Char}
    {position : Position} {t : Token} {c : Cursor}
    (h : Returns (token rules) ⟨first :: rest, position⟩ t c) : t ≠ .endOfInput := by
  have hlanguage {c' : Cursor} (h : Returns (languageToken first position) c' t c) :
      t ≠ .endOfInput := by
    rintro rfl
    have hkind := yields_languageToken first position _ _ _ h
    cases hkind
  have hreads : ∀ rule ∈ rules, rule.Reads fun _ p => Yields (· ≠ .endOfInput) p := by
    intro rule hrule
    rw [ClaimPrivateNames.of_eq hrules rule hrule]
    exact TokenRule.reads_sigil (.step fun _ => .step fun _ => .done (by simp))
  rw [Returns] at h
  rcases token_cases hreads first with ⟨-, htoken⟩ | ⟨-, -, p, -, hp, htoken⟩
  · rw [htoken] at h
    exact hlanguage h
  · rw [htoken] at h
    exact hp _ _ _ h

namespace Lexing

variable {lexer lexer' : Lexer} {t : Token}

/-- What consuming a token does to a lexer that has not looked ahead. -/
theorem next_of_none (hnone : lexer.lookahead = none) (h : next lexer = .ok t lexer') :
    ∃ start stop, Scan.Returns Scan.skipTrivia lexer.cursor () start ∧
      Scan.Returns (Scan.token lexer.rules) start t stop ∧
      lexer' = { lexer with cursor := stop, lastSpan := ⟨start.position, stop.position⟩ } := by
  change (takeLookahead >>= fun _ => _) lexer = _ at h
  simp only [Bind.bind, EStateM.bind, takeLookahead_of_none hnone, scanToken_eq, scan,
    Scan.lookahead_eq] at h
  cases hskip : Scan.skipTrivia lexer.cursor with
  | error e stopped =>
    rw [hskip] at h
    cases h
  | ok _ start =>
    rw [hskip] at h
    cases htoken : Scan.token lexer.rules start with
    | error e stopped =>
      simp only [htoken] at h
      cases h
    | ok t' stop =>
      simp only [htoken] at h
      cases h
      exact ⟨start, stop, hskip, htoken, rfl⟩

/-- What reading the last token again does to a lexer. -/
theorem rescan_ok {action : Position → Scan Token} (h : rescan action lexer = .ok t lexer') :
    ∃ stop, Scan.Returns (action lexer.lastSpan.start) lexer.cursor t stop ∧
      lexer' = { lexer with
        cursor := stop, lookahead := none, lastSpan := ⟨lexer.lastSpan.start, stop.position⟩ } := by
  change (scan (action lexer.lastSpan.start) >>= fun _ => _)
    { lexer with lookahead := none } = _ at h
  simp only [Bind.bind, EStateM.bind, scan] at h
  cases hread : action lexer.lastSpan.start lexer.cursor with
  | error e stopped =>
    rw [hread] at h
    cases h
  | ok t' stop =>
    rw [hread] at h
    cases h
    exact ⟨stop, hread, rfl⟩

end Lexing

/-! ## The invariant of a run -/

theorem Cursor.At.extract_eq {source gap rest : List Char} {c c' : Cursor} (hc : c.At source)
    (hc' : c'.At source) (hgap : c.rest = gap ++ rest) (hrest : c'.rest = rest) :
    c.position.offset ≤ c'.position.offset ∧
      source.extract c.position.offset c'.position.offset = gap := by
  have htotal := hc.total_eq
  have htotal' := hc'.total_eq
  rw [hgap, List.length_append] at htotal
  rw [hrest] at htotal'
  have hlength : c'.position.offset - c.position.offset = gap.length := by omega
  refine ⟨by omega, ?_⟩
  rw [List.extract_eq_take_drop, ← hc.rest_eq, hgap, hlength, List.take_left]

/-- A line is skipped at the start of a source that begins with `#!`. -/
theorem Scan.skipHashbang_ofSource (source : List Char) : skipHashbang (.ofSource source) =
    if source.head? = some '#' ∧ source.tail.head? = some '!' then skipLine (.ofSource source)
    else .ok () (.ofSource source) := by
  change (if (source.head? == some '#' && source.tail.head? == some '!') = true then
    skipLine else pure ()) (.ofSource source) = _
  simp only [Bool.and_eq_true, beq_iff_eq]
  split <;> rfl

/-- A source without a `#!` line is read from its first character on. -/
theorem Lexer.initialCursor_eq {source : List Char} (h : source.take 2 ≠ ['#', '!']) :
    initialCursor source = .ofSource source := by
  rw [initialCursor, Scan.skipHashbang_ofSource, if_neg]
  rintro ⟨hfirst, hsecond⟩
  obtain ⟨source, rfl⟩ := List.head?_eq_some_iff.1 hfirst
  obtain ⟨source, rfl⟩ := List.head?_eq_some_iff.1 hsecond
  exact h rfl

/-- What a new lexer has skipped is a `#!` line, or nothing. -/
theorem Lexer.isHashbang_initialCursor (source : List Char) :
    IsHashbang source (source.take (initialCursor source).position.offset) := by
  have hstart := Scan.skipHashbang_ofSource source
  have hexact := Scan.Exact.skipHashbang.exact _ (Cursor.At.ofSource source)
  unfold initialCursor
  rw [hstart]
  by_cases hmark : source.head? = some '#' ∧ source.tail.head? = some '!'
  · rw [if_pos hmark] at hstart ⊢
    obtain ⟨tail, rfl⟩ := List.head?_eq_some_iff.1 hmark.1
    obtain ⟨rest, rfl⟩ := List.head?_eq_some_iff.1 hmark.2
    obtain ⟨stop, hline⟩ := Scan.reads_skipLine ('#' :: '!' :: rest) .start
    have hat := hexact.of_ok (hstart.trans hline)
    change Scan.skipLine (.ofSource _) = _ at hline
    rw [hline]
    simp only
    -- What is left begins with the line terminator, so what is gone is the line.
    have hgone : ('#' :: '!' :: rest).take stop.offset =
        '#' :: '!' :: rest.takeWhile (!isLineTerminator ·) := by
      have hrest : ('#' :: '!' :: rest).dropWhile (!isLineTerminator ·) = _ := hat.rest_eq
      have hwhole := List.takeWhile_append_dropWhile (p := (!isLineTerminator ·))
        (l := '#' :: '!' :: rest)
      rw [hrest] at hwhole
      have hsplit := hwhole.trans (List.take_append_drop stop.offset ('#' :: '!' :: rest)).symm
      exact (List.append_cancel_right hsplit).symm
    rw [hgone]
    refine .inr ⟨_, rfl, fun c hc => ?_, ?_⟩
    · simpa using List.all_eq_true.1 (List.all_takeWhile (p := (!isLineTerminator ·))) c hc
    · have hdrop : ('#' :: '!' :: rest).drop
          ('#' :: '!' :: rest.takeWhile (!isLineTerminator ·)).length =
          rest.dropWhile (!isLineTerminator ·) := by
        simp only [List.length_cons, List.drop_succ_cons]
        conv => lhs; arg 2; rw [← List.takeWhile_append_dropWhile (p := (!isLineTerminator ·))
          (l := rest)]
        exact List.drop_left
      rw [hdrop]
      cases hhead : (rest.dropWhile (!isLineTerminator ·)).head? with
      | none => rfl
      | some c =>
        have hc := List.head?_dropWhile_not (!isLineTerminator ·) rest
        rw [hhead] at hc
        simpa using hc
  · rw [if_neg hmark]
    exact .inl rfl

/-- The lexer has looked at nothing behind the last token, and the tokens, the last one first, tile
the source up to there. -/
structure Lexer.Rests (source : List Char) (rules : List TokenRule) (read : List (Token × Span))
    (lexer : Lexer) : Prop where
  tracks : lexer.Tracks source
  rules_eq : lexer.rules = rules
  resting : lexer.lookahead = none
  tiles : Tiles source read.reverse
  last : ∀ t ∈ read.head?, t.2 = lexer.lastSpan ∧ t.2.stop = lexer.cursor.position ∧
    ∀ c, (source.drop t.2.start.offset).head? = some c → isLineTerminator c = false
  initial : read = [] → IsHashbang source (source.take lexer.cursor.position.offset)

namespace Tiles

variable {source : List Char} {read : List (Token × Span)} {t : Token × Span}

/-- One more token behind the others. -/
theorem snoc (h : Tiles source read.reverse) (hcovers : Covers source t)
    (hleads : read = [] → Leads source t) (hfollows : ∀ u ∈ read.head?, ComesBehind source u t) :
    Tiles source (t :: read).reverse := by
  rw [List.reverse_cons]
  refine ⟨?_, ?_, ?_⟩
  · intro u hu
    rcases List.mem_append.1 hu with hu | hu
    · exact h.covers u hu
    · rw [List.mem_singleton.1 hu]
      exact hcovers
  · cases read with
    | nil =>
      rintro u ⟨⟩
      exact hleads rfl
    | cons v read =>
      intro u hu
      rw [List.head?_append_of_ne_nil _ (by simp)] at hu
      exact h.leads u hu
  · refine List.isChain_append.2 ⟨h.follows, List.isChain_singleton t, ?_⟩
    rintro u hu _ ⟨⟩
    rw [List.getLast?_reverse] at hu
    exact hfollows u hu

/-- The tokens in front of the last one, and how that one stands behind them. -/
theorem of_snoc (h : Tiles source (t :: read).reverse) :
    Tiles source read.reverse ∧ Covers source t ∧ (read = [] → Leads source t) ∧
      ∀ u ∈ read.head?, ComesBehind source u t := by
  rw [List.reverse_cons] at h
  obtain ⟨hcovers, hleads, hfollows⟩ := h
  obtain ⟨hread, -, hlast⟩ := List.isChain_append.1 hfollows
  refine ⟨⟨fun u hu => hcovers u (List.mem_append_left _ hu), ?_, hread⟩,
    hcovers t (by simp), ?_, fun u hu => hlast u (by rwa [List.getLast?_reverse]) t rfl⟩
  · intro u hu
    refine hleads u ?_
    rw [List.head?_append_of_ne_nil _ (by rintro hnil; rw [hnil] at hu; cases hu)]
    exact hu
  · rintro rfl
    exact hleads t rfl

/-- The last token read again, from where it begins. -/
theorem reread {u : Token × Span} (h : Tiles source (t :: read).reverse)
    (hstart : u.2.start = t.2.start) (hcovers : Covers source u) :
    Tiles source (u :: read).reverse := by
  obtain ⟨hread, -, hleads, hfollows⟩ := h.of_snoc
  refine hread.snoc hcovers ?_ fun v hv => ?_
  · unfold Leads
    rw [hstart]
    exact hleads
  · obtain ⟨hmore, hle, htrivia⟩ := hfollows v hv
    exact ⟨hmore, by rwa [hstart], by rwa [hstart]⟩

end Tiles

namespace Lexer.Rests

variable {source : List Char} {rules : List TokenRule} {read : List (Token × Span)}
  {lexer lexer' : Lexer} {t : Token × Span} {token : Token}

theorem start (source : String) (hrules : rules = [] ∨ rules = [TokenRule.privateName]) :
    Rests source.toList rules [] (.ofSource source rules) where
  tracks := by
    rcases hrules with rfl | rfl
    · exact tracks_ofSource source nofun nofun nofun
    · exact tracks_ofSource source (List.forall_mem_singleton.2 TokenRule.advances_privateName)
        (List.forall_mem_singleton.2 (TokenRule.isExact_privateName _))
        (List.forall_mem_singleton.2 TokenRule.isWordless_privateName)
  rules_eq := rfl
  resting := rfl
  tiles := ⟨nofun, nofun, .nil⟩
  last := nofun
  initial _ := isHashbang_initialCursor source.toList

/-- Consuming a token puts it behind the others, with nothing but trivia between. -/
theorem next (hrules : rules = [] ∨ rules = [TokenRule.privateName])
    (h : Rests source rules read lexer) (hmore : ∀ t ∈ read.head?, t.1 ≠ .endOfInput)
    (hnext : Lexing.next lexer = .ok token lexer') :
    Rests source rules ((token, lexer'.lastSpan) :: read) lexer' := by
  obtain ⟨htracks, hstart, -, hless, hchar, -⟩ := (Lexing.next_tracks h.tracks).of_ok hnext
  obtain ⟨start, stop, hskip, htoken, rfl⟩ := Lexing.next_of_none h.resting hnext
  have hat := h.tracks.cursor
  have hstartAt : start.At source := (Scan.Exact.skipTrivia.exact _ hat).of_ok hskip
  obtain ⟨gap, hgap, htrivia, hstop⟩ := Scan.trivia_of_skipTrivia hskip
  obtain ⟨hle, hextract⟩ := hat.extract_eq hstartAt hgap rfl
  rw [hstartAt.rest_eq] at htrivia
  have hcovers : Covers source (token, ⟨start.position, stop.position⟩) := by
    refine ⟨fun hmore => ?_, fun hend => ?_, htracks.cursor.position.offset_le⟩
    · have := hless hmore
      rwa [← hstart] at this
    · obtain rfl : token = .endOfInput := hend
      obtain ⟨rest, position⟩ := start
      cases rest with
      | nil =>
        cases htoken
        have htotal : position.offset + 0 = source.length := hstartAt.total_eq
        exact ⟨htotal, htotal⟩
      | cons first rest =>
        rw [h.rules_eq] at htoken
        exact absurd rfl (Scan.yields_token_of_cons hrules htoken)
  refine ⟨htracks, h.rules_eq, h.resting, h.tiles.snoc hcovers ?_ ?_, ?_, nofun⟩
  · intro hread
    refine ⟨_, gap, ?_, h.initial hread, htrivia⟩
    change source.take start.position.offset = _
    rw [← hextract, List.extract_eq_take_drop]
    rw [← List.take_add, Nat.add_sub_cancel' hle]
  · intro u hu
    have hu' := (h.last u hu).2.1
    refine ⟨hmore u hu, ?_, ?_⟩
    · rw [hu']
      exact hle
    · rw [hu', hextract]
      exact htrivia
  · rintro u ⟨⟩
    exact ⟨rfl, rfl, hchar⟩

/-- Reading the last token again replaces it. -/
theorem reread (h : Rests source rules (t :: read) lexer) (hkind : token ≠ .endOfInput)
    {stop : Cursor} (hend : lexer' = { lexer with
      cursor := stop, lookahead := none, lastSpan := ⟨lexer.lastSpan.start, stop.position⟩ })
    (htracks : lexer'.Tracks source)
    (hless : lexer.lastSpan.start.offset < lexer'.lastSpan.stop.offset) :
    Rests source rules ((token, lexer'.lastSpan) :: read) lexer' := by
  obtain ⟨hlast, -, hchar⟩ := h.last t rfl
  subst hend
  refine ⟨htracks, h.rules_eq, rfl, h.tiles.reread (by rw [hlast]) ⟨fun _ => hless, ?_, ?_⟩, ?_,
    nofun⟩
  · exact fun hend => absurd hend hkind
  · exact htracks.cursor.position.offset_le
  · rintro u ⟨⟩
    rw [hlast] at hchar
    exact ⟨rfl, rfl, hchar⟩

theorem regExp (h : Rests source rules (t :: read) lexer) (hmore : t.1 ≠ .endOfInput)
    (hread : Lexing.rescanRegExp lexer = .ok token lexer') :
    Rests source rules ((token, lexer'.lastSpan) :: read) lexer' := by
  obtain ⟨hlast, hstop, hchar⟩ := h.last t rfl
  have hcovers := h.tiles.of_snoc.2.1
  have hless := hcovers.nonempty hmore
  have hle := hcovers.stop_le
  rw [hlast] at hchar hless hle
  obtain ⟨htracks, -, hpast⟩ :=
    (Lexing.rescanRegExp_tracks h.tracks (by omega) hchar).of_ok hread
  have hkind : Scan.Yields (· ≠ .endOfInput) (do
      set (Lexing.cursorBehind lexer.source lexer.lastSpan.start)
      Scan.regExp lexer.lastSpan.start) :=
    .step fun _ => .step fun _ => .step fun _ => .done (by simp)
  have hrescan : Lexing.rescan (fun start => do
      set (Lexing.cursorBehind lexer.source start)
      Scan.regExp start) lexer = .ok token lexer' := hread
  obtain ⟨stop, hreturns, hend⟩ := Lexing.rescan_ok hrescan
  exact h.reread (hkind _ _ _ hreturns) hend htracks (by omega)

theorem template (h : Rests source rules (t :: read) lexer) (hmore : t.1 ≠ .endOfInput)
    (hread : Lexing.readTemplateContinuation lexer = .ok token lexer') :
    Rests source rules ((token, lexer'.lastSpan) :: read) lexer' := by
  obtain ⟨hlast, hstop, hchar⟩ := h.last t rfl
  have hless := h.tiles.of_snoc.2.1.nonempty hmore
  rw [hlast] at hless
  obtain ⟨htracks, -, hpast⟩ := (Lexing.readTemplateContinuation_tracks h.tracks).of_ok hread
  have hkind : Scan.Yields (· ≠ .endOfInput)
      (Scan.templateContinuation lexer.lastSpan.start) := by
    unfold Scan.templateContinuation
    refine .step fun part => ?_
    obtain ⟨cooked, ending⟩ := part
    cases ending <;> exact .done (by simp)
  obtain ⟨stop, hreturns, hend⟩ := Lexing.rescan_ok hread
  exact h.reread (hkind _ _ _ hreturns) hend htracks (by omega)

end Lexer.Rests

/-- Behind every run the lexer rests, and the tokens tile the source. -/
theorem Lexer.Run.rests {source : String} {rules : List TokenRule}
    (hrules : rules = [] ∨ rules = [TokenRule.privateName]) {read : List (Token × Span)}
    {lexer : Lexer} (h : Run source rules read lexer) :
    Rests source.toList rules read lexer := by
  induction h with
  | start => exact .start source hrules
  | @step reading read lexer lexer' token _ hallowed hread ih =>
    cases reading with
    | next =>
      refine ih.next hrules (fun t ht hend => ?_) hread
      have hlast : read.head? = some t := ht
      simp [LexerStep.isAllowed, hlast, hend] at hallowed
    | regExp =>
      cases read with
      | nil => cases hallowed
      | cons t read =>
        refine ih.regExp (fun hend => ?_) hread
        simp [LexerStep.isAllowed, hend] at hallowed
    | template =>
      cases read with
      | nil => cases hallowed
      | cons t read =>
        refine ih.template (fun hend => ?_) hread
        simp [LexerStep.isAllowed, hend] at hallowed

/-- The tokens of every run tile the source: none is empty but the end of the source, they stand in
their order, nothing but a `#!` line and trivia stands in front of and between them, and there are
at most as many as characters. Behind them the lexer consumes another token or finds an error. -/
theorem Lexer.run_tiles_source (source : String) (rules : List TokenRule)
    (hrules : rules = [] ∨ rules = [TokenRule.privateName]) (read : List (Token × Span))
    (lexer : Lexer) (h : Run source rules read lexer) :
    Tiles source.toList read.reverse ∧
      (read.reverse.Pairwise fun t u =>
        t.2.start.offset < u.2.start.offset ∧ t.2.stop.offset ≤ u.2.start.offset) ∧
      (read.filter (·.1 ≠ .endOfInput)).length ≤ source.toList.length ∧
      ((∃ token lexer', Lexing.next lexer = .ok token lexer') ∨
        ∃ d lexer', Lexing.next lexer = .error (.error d) lexer') := by
  have hrests := h.rests hrules
  have hlength := hrests.tiles.length_le
  rw [List.filter_reverse, List.length_reverse] at hlength
  refine ⟨hrests.tiles, hrests.tiles.ordered, hlength, ?_⟩
  have hends := Lexing.next_ends hrests.tracks.inSource
  cases hnext : Lexing.next lexer with
  | ok token lexer' => exact .inl ⟨token, lexer', rfl⟩
  | error e lexer' =>
    obtain ⟨-, d, rfl⟩ := hends.of_error hnext
    exact .inr ⟨d, lexer', rfl⟩

/-- A `#!` line, comments, a slash that is read as a regular expression, a brace that continues a
template, and the end of the source. -/
theorem Lexer.run_tiles_source_of_reread :
    ∃ read lexer, Run "#!a\nb /*c*/ = /d/+\x60e$\x7bf\x7dg\x60 // h" [TokenRule.privateName] read
        lexer ∧
      read.reverse.map (·.1) = [.identifier "b" false, .punctuator .assign, .regExp "d" "",
        .punctuator .plus, .templateHead "e", .identifier "f" false, .templateTail "g",
        .endOfInput] ∧
      Tiles "#!a\nb /*c*/ = /d/+\x60e$\x7bf\x7dg\x60 // h".toList read.reverse := by
  have htokens : (follow "#!a\nb /*c*/ = /d/+\x60e$\x7bf\x7dg\x60 // h" [TokenRule.privateName]
      [.next, .template, .next, .next, .next, .next, .regExp, .next, .next, .next]).map
        (fun run => run.1.reverse.map (·.1)) =
      some [.identifier "b" false, .punctuator .assign, .regExp "d" "", .punctuator .plus,
        .templateHead "e", .identifier "f" false, .templateTail "g", .endOfInput] := by
    decide +kernel
  obtain ⟨⟨read, lexer⟩, hfollow, htokens⟩ := Option.map_eq_some_iff.1 htokens
  have hrun := Run.of_follow hfollow
  exact ⟨read, lexer, hrun, htokens, (run_tiles_source _ _ (.inr rfl) read lexer hrun).1⟩

end EcmaScript
