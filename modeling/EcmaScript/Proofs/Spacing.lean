import EcmaScript.Proofs.Consumed
import EcmaScript.Proofs.Literal.RegExp
import EcmaScript.Proofs.Newlines

/-!
Tokens with other layout around them.

A token that has been read in front of some text is read as well in front of another one that does
not go on with it (`Lexeme.Occupies`). Words are the delicate case, since a backslash behind them is
told apart from layout only by what follows it; but a backslash that begins a token begins an escape,
with which the word would have gone on. So the layout between two tokens may change: what a lexer
feeds up to the end of the source stands in the text, token by token (`Stand`), and a text in which
one gap holds other layout spells the same tokens.
-/

namespace EcmaScript

namespace Scan

variable {first : Char} {rest : List Char} {start position : Position} {t : Token}
  {rules : List TokenRule}

/-- A loop whose first round stops returns what that does. -/
theorem Returns.of_first_round {α β : Type} {round : α → Scan (Round α β)} {a : α} {b b' : β}
    {c c' d : Cursor} (h : Returns (loop round a) c b d)
    (hstop : Returns (round a) c (.stop b') c') : b = b' ∧ d = c' := by
  change repeatAlong round c.rest a c = _ at h
  rw [repeatAlong_eq] at h
  obtain ⟨next, middle, hround, hrest⟩ := Returns.of_bind h
  cases hstop.symm.trans hround
  exact hrest.of_pure

/-- With a character that begins a word, the language reads one. -/
theorem languageToken_of_beginsWord (h : beginsWord first = true) :
    languageToken first start ⟨first :: rest, position⟩ =
      identifier first start ⟨first :: rest, position⟩ := by
  have hcandidates : Punctuator.candidates first = [] := by
    unfold Punctuator.candidates
    split <;> first | rfl | exact absurd h (by decide +kernel)
  have hne (other : Char) (hother : beginsWord other = false) : (first == other) = false := by
    refine beq_false_of_ne ?_
    rintro rfl
    rw [h] at hother
    cases hother
  have hdigit : isDecimalDigit first = false := by
    refine Bool.eq_false_iff.2 fun hdigit => ?_
    have hnone := of_isDecimalDigit (p := (!beginsWord ·)) (by decide +kernel) hdigit
    rw [h] at hnone
    cases hnone
  rw [languageToken_eq, tokenOf, hne '.' (by decide +kernel), Bool.false_and,
    if_neg Bool.false_ne_true, Punctuator.ofText?_eq_none hcandidates]
  dsimp only
  rw [plainToken, hdigit, hne '"' (by decide +kernel), hne '\'' (by decide +kernel),
    hne '\x60' (by decide +kernel), Bool.or_self, if_neg Bool.false_ne_true,
    if_neg Bool.false_ne_true, if_neg Bool.false_ne_true,
    if_pos (show (isIdStart first || first == '\\') = true from h)]

/-- A backslash begins a token only with an escape. -/
theorem escape_of_token (hrules : ClaimPrivateNames rules) {stop : Cursor}
    (h : Returns (Scan.token rules) ⟨'\\' :: rest, position⟩ t stop) :
    rest.head? = some 'u' := by
  rw [Returns, hrules.token_eq (by decide)] at h
  rw [languageToken_of_beginsWord (by decide +kernel), Same.identifier_eq] at h
  obtain ⟨-, h⟩ := Returns.of_ahead h
  obtain ⟨text, middle, hword, hrest⟩ := h.of_bind
  by_contra hsecond
  have hstop : Returns (wordStep [] (some '\\') rest.head?) ⟨'\\' :: rest, position⟩
      (.stop []) ⟨'\\' :: rest, position⟩ := by
    rw [Same.wordStep_plain fun h => hsecond h.2, if_neg (by decide +kernel)]
    exact .pure
  rw [word_eq] at hword
  obtain ⟨rfl, -⟩ := hword.of_first_round (.peek (.peekSecond hstop))
  cases hrest

/-- In front of a backslash that begins a token there is no word. -/
theorem plain_of_token (hrules : ClaimPrivateNames rules)
    {u y : List Char} {stop : Position} (hu : u ≠ [])
    (h : Returns (Scan.token rules) ⟨u ++ y, position⟩ t ⟨y, stop⟩)
    (hnext : y.head? = some '\\' → y.tail.head? = some 'u') :
    y.head? ≠ some '\\' ∨
      ∀ first ∈ u.head?, beginsWord first = false ∧ ∀ rule ∈ rules, rule first = pure none := by
  refine or_iff_not_imp_left.2 fun hescape => ?_
  rw [not_not] at hescape
  obtain ⟨first, u, rfl⟩ := List.exists_cons_of_ne_nil hu
  have hword {c : Cursor} {text : List Char} : ¬Returns word c text ⟨y, stop⟩ :=
    fun hword => (Same.stop_of_word hword).1 ⟨hescape, hnext hescape⟩
  rintro _ ⟨⟩
  rw [List.cons_append, Returns] at h
  -- What the rule for private names reads ends in a word.
  have hreads : ∀ rule ∈ rules, rule.Reads fun _ p => ∀ c t, ¬Returns p c t ⟨y, stop⟩ := by
    intro rule hrule
    rw [hrules rule hrule]
    refine TokenRule.reads_sigil fun c t hp => ?_
    obtain ⟨_, _, -, hp⟩ := hp.of_bind
    obtain ⟨_, _, hp, hrest⟩ := hp.of_bind
    obtain ⟨-, rfl⟩ := hrest.of_pure
    exact hword hp
  rcases token_cases hreads first with ⟨hnone, htoken⟩ | ⟨-, -, p, -, hp, htoken⟩
  swap
  · rw [htoken] at h
    exact absurd h (hp _ _)
  rw [htoken] at h
  refine ⟨Bool.eq_false_iff.2 fun hbegins => ?_, hnone⟩
  rw [languageToken_of_beginsWord hbegins, Same.identifier_eq] at h
  obtain ⟨-, h⟩ := Returns.of_ahead h
  obtain ⟨text, middle, h, hrest⟩ := h.of_bind
  split at hrest
  · cases hrest
  · obtain ⟨-, rfl⟩ := hrest.of_pure
    exact hword h

/-- A regular expression holds the slash that closes it. -/
theorem slash_mem_of_regExp {v : List Char} {c d : Cursor} (h : Returns (regExp start) c t d)
    (hc : c.rest = v ++ d.rest) : '/' ∈ v := by
  rcases exists_regExp c.rest start c.position with ⟨n, stop, hends, hread⟩ | ⟨-, e, c', hfails⟩
  · cases h.symm.trans hread
    have hslash := hends.slash
    have hle := (List.dropWhile_suffix (l := c.rest.drop (n + 1)) isIdContinue).length_le
    have hlength := congrArg List.length hc
    rw [List.length_append] at hlength
    dsimp only at hlength
    have hn : n < c.rest.length := (List.getElem?_eq_some_iff.1 hslash).1
    rw [List.length_drop] at hle
    rw [hc, List.getElem?_append_left (by omega)] at hslash
    exact List.mem_of_getElem? hslash
  · cases h.symm.trans hfails

end Scan

/-! ## Tokens in front of other texts -/

/-- The text is that of the token, in front of `y` and of any text that may stand there as well. -/
structure Lexeme.Occupies (rules : List TokenRule) (lexeme : Lexeme) (u y : List Char) :
    Prop where
  nonempty : u ≠ []
  point : u = ['.'] → y.head?.any isDecimalDigit = false
  reads : ∀ y', Scan.Compatible y y' → lexeme.IsReadFrom rules (u ++ y') y'

namespace Scan

section

variable (hrules : ClaimPrivateNames rules)
include hrules

/-- A point in front of a digit is no token. -/
theorem not_point_of_token {y : List Char} {stop : Position}
    (h : Returns (Scan.token rules) ⟨'.' :: y, position⟩ t ⟨y, stop⟩) :
    y.head?.any isDecimalDigit = false := by
  refine Bool.eq_false_iff.2 fun hdigit => ?_
  rw [Returns, hrules.token_eq (by decide)] at h
  rw [languageToken_eq, tokenOf, if_pos (by simpa using hdigit)] at h
  obtain ⟨_, middle, hskip, h⟩ := Returns.of_bind h
  cases hskip
  have hless := Same.less_of_numericLiteral (c := ⟨y, _⟩) hdigit h
  exact Nat.lt_irrefl _ hless

/-- A punctuator is spelled out. -/
theorem append_eq_of_punctuator {symbol : Punctuator} {c d : Cursor}
    (h : Returns (Scan.token rules) c (.punctuator symbol) d) :
    c.rest = symbol.spelling.toList ++ d.rest := by
  obtain ⟨text, htext⟩ := ((Goes.token hrules.advances _).of_ok h).1.suffix
  rw [(writtenAs_of_token hrules.isWordless hrules.sparesWords h htext.symm).symbol_eq symbol rfl,
    htext]

/-- A mark that is read again is there in front of what it is read as, wherever that goes on. -/
theorem reads_mark {symbol : Punctuator} {w v y y' behind : List Char} {x : Char}
    (hspelling : symbol.spelling.toList = first :: w) (hfirst : beginsWord first = false)
    (hname : first ≠ '#') {stop : Position}
    (h : Returns (Scan.token rules) ⟨first :: (v ++ y), position⟩ (.punctuator symbol)
      ⟨behind, stop⟩)
    (hx : x ∈ v) (hbehind : x ∉ w) (hpoint : x ≠ '.') (hy : Compatible y y') :
    ∃ z, v = w ++ z ∧
      Reads (Scan.token rules) (first :: (v ++ y')) (.punctuator symbol) (z ++ y') := by
  have htext := append_eq_of_punctuator hrules h
  rw [hspelling] at htext
  obtain ⟨z, rfl, rfl⟩ | ⟨z, rfl, -⟩ := List.append_eq_append_iff.1 (List.cons.inj htext.symm).2
  · have hz : x ∈ z := (List.mem_append.1 hx).resolve_left hbehind
    have hcompatible : Compatible (z ++ y) (z ++ y') := by
      refine hy.append (List.ne_nil_of_mem hz) ?_
      rintro rfl
      exact absurd (List.mem_singleton.1 hz) hpoint
    refine ⟨z, rfl, ?_⟩
    have hread := reads_token (u := first :: w) hrules.advances hrules.isLocal
      (List.cons_ne_nil _ _) hcompatible (.inr ?_)
      (show Returns _ ⟨first :: w ++ (z ++ y), position⟩ _ _ by simpa using h)
    · simpa using hread
    · rintro _ ⟨⟩
      exact ⟨hfirst, hrules.declines hname⟩
  · exact absurd (List.mem_append_left z hx) hbehind

end

end Scan

namespace Lexeme.Occupies

variable {rules : List TokenRule} {lexeme : Lexeme} {u v y : List Char}
  {start position stop last : Position}
  (hrules : ClaimPrivateNames rules)
include hrules

/-- A token that is not read again. -/
theorem of_token (hkept : lexeme.reread = none) (hu : u ≠ [])
    (hnext : y.head? = some '\\' → y.tail.head? = some 'u')
    (h : Scan.Returns (Scan.token rules) ⟨u ++ y, position⟩ lexeme.token ⟨y, stop⟩) :
    lexeme.Occupies rules u y where
  nonempty := hu
  point := by
    rintro rfl
    exact Scan.not_point_of_token hrules h
  reads y' hy := by
    unfold Lexeme.IsReadFrom
    rw [hkept]
    exact Scan.reads_token hrules.advances hrules.isLocal hu hy
      (Scan.plain_of_token hrules hu h hnext) h

/-- A slash that is read again as a regular expression. -/
theorem of_regExp {token : Token} {behind : Cursor} (hslash : lexeme.token.isSlash = true)
    (hagain : lexeme.reread = some token)
    (h : Scan.Returns (Scan.token rules) ⟨'/' :: (v ++ y), position⟩ lexeme.token behind)
    (hread : Scan.Returns (Scan.regExp start) ⟨v ++ y, stop⟩ token ⟨y, last⟩) :
    lexeme.Occupies rules ('/' :: v) y := by
  have hmem : '/' ∈ v := Scan.slash_mem_of_regExp hread rfl
  refine ⟨List.cons_ne_nil _ _, ?_, fun y' hy => ?_⟩
  · rintro ⟨⟩
  have hregExp (start' : Position) : Scan.Reads (Scan.regExp start') (v ++ y') token y' :=
    (Scan.Same.regExp hy start start').reads (fun _ => .regExp _) hread trivial
  have hsymbol : lexeme.token = .punctuator .slash ∨ lexeme.token = .punctuator .slashEq := by
    simpa [Token.isSlash] using hslash
  obtain ⟨symbol, w, htoken, hspelling, hw⟩ : ∃ symbol w, lexeme.token = .punctuator symbol ∧
      symbol.spelling.toList = '/' :: w ∧ '/' ∉ w := by
    rcases hsymbol with htoken | htoken
    · exact ⟨_, [], htoken, rfl, by simp⟩
    · exact ⟨_, ['='], htoken, rfl, by simp⟩
  rw [htoken] at h
  obtain ⟨z, -, hmark⟩ := Scan.reads_mark hrules hspelling (by decide +kernel) (by decide) h hmem hw
    (by decide) hy
  have hrereading : lexeme.rereading = .regExp := by
    rcases hsymbol with htoken | htoken <;> rw [Lexeme.rereading, htoken, if_neg (by decide)]
  unfold Lexeme.IsReadFrom
  rw [hagain, hrereading, htoken]
  exact ⟨_, hmark, hregExp⟩

/-- A closing brace that is read again as the continuation of a template. -/
theorem of_template {token : Token} {behind : Cursor} (hbrace : lexeme.token = .punctuator .rBrace)
    (hagain : lexeme.reread = some token)
    (h : Scan.Returns (Scan.token rules) ⟨'\x7d' :: (v ++ y), position⟩ lexeme.token behind)
    (hread : Scan.Returns (Scan.templateContinuation start) ⟨v ++ y, stop⟩ token ⟨y, last⟩) :
    lexeme.Occupies rules ('\x7d' :: v) y := by
  obtain ⟨piece, middle, hcharacters, hend⟩ := Scan.Returns.of_bind hread
  obtain rfl : middle = ⟨y, last⟩ := by
    obtain ⟨cooked, ending⟩ := piece
    cases ending <;> exact hend.of_pure.2.symm
  obtain ⟨x, hmem, hx⟩ := Scan.Same.mem_of_templateCharacters hcharacters rfl
  have hpoint : x ≠ '.' := by rcases hx with rfl | rfl <;> decide
  refine ⟨List.cons_ne_nil _ _, ?_, fun y' hy => ?_⟩
  · rintro ⟨⟩
  have hpiece (start' : Position) :
      Scan.Reads (Scan.templateContinuation start') (v ++ y') token y' :=
    (Scan.Same.templateContinuation hy start start').reads (fun _ => .templateContinuation _) hread
      trivial
  rw [hbrace] at h
  obtain ⟨z, rfl, hmark⟩ := Scan.reads_mark hrules (w := []) rfl (by decide +kernel) (by decide) h
    hmem (by simp) hpoint hy
  unfold Lexeme.IsReadFrom
  rw [hagain, Lexeme.rereading, if_pos hbrace, hbrace]
  exact ⟨_, hmark, hpiece⟩

end Lexeme.Occupies

/-! ## Tokens in a text -/

/-- The token stands at the beginning of the text, which begins at the offset: behind trivia and in
front of `rest`. Behind the end of the source there is nothing. -/
structure Placed.Stands (rules : List TokenRule) (low : Nat) (text : List Char) (placed : Placed)
    (gap u rest : List Char) : Prop where
  text_eq : text = gap ++ (u ++ rest)
  trivia : Trivia (u ++ rest) gap
  stops : opensTrivia (u ++ rest) = false
  newline : gap.any isLineTerminator = placed.newlineBefore
  start_eq : placed.span.start.offset = low + gap.length
  stop_eq : placed.span.stop.offset = low + gap.length + u.length
  atEnd : placed.token = .endOfInput → placed.reread = none ∧ u = [] ∧ rest = []
  occupies : placed.token ≠ .endOfInput → placed.Occupies rules u rest

/-- The tokens stand in the text, which begins at the offset, one behind the other. -/
def Stand (rules : List TokenRule) : Nat → List Placed → List Char → Prop
  | _, [], _ => True
  | low, placed :: tokens, text => ∃ gap u rest, placed.Stands rules low text gap u rest ∧
    Stand rules placed.span.stop.offset tokens rest

/-- A token stands where it has been scanned, between the cursors. -/
theorem Placed.Stands.of_cursors {rules : List TokenRule} {source gap u : List Char}
    {placed : Placed} {c start stop : Cursor} (hc : c.At source) (hstart : start.At source)
    (hstop : stop.At source) (htext : c.rest = gap ++ start.rest) (htrivia : Trivia start.rest gap)
    (hstops : opensTrivia start.rest = false)
    (hline : gap.any isLineTerminator = placed.newlineBefore) (hu : start.rest = u ++ stop.rest)
    (hplaced : placed.span = ⟨start.position, stop.position⟩)
    (hend : placed.token = .endOfInput → placed.reread = none ∧ u = [] ∧ stop.rest = [])
    (hoccupies : placed.token ≠ .endOfInput → placed.Occupies rules u stop.rest) :
    placed.Stands rules c.position.offset c.rest gap u stop.rest := by
  have htotal := hc.total_eq
  rw [htext, List.length_append] at htotal
  have hplace := hstart.total_eq
  have hplace' := hstop.total_eq
  have hlength := congrArg List.length hu
  rw [List.length_append] at hlength
  refine ⟨by rw [htext, hu], hu ▸ htrivia, hu ▸ hstops, hline, ?_, ?_, hend, hoccupies⟩
  · rw [hplaced]
    dsimp only
    omega
  · rw [hplaced]
    dsimp only
    omega

/-- What a slash is read again as begins with it. -/
theorem Lexing.exists_of_rescanRegExp {source tail : List Char} {lexer last : Lexer}
    {start : Cursor} {token : Token} (htracks : lexer.Tracks source) (hstart : start.At source)
    (hlast : lexer.lastSpan.start = start.position) (hslash : start.rest = '/' :: tail)
    (hread : rescanRegExp lexer = .ok token last) : ∃ v stop position,
      start.rest = '/' :: (v ++ stop.rest) ∧
      Scan.Returns (Scan.regExp start.position) ⟨v ++ stop.rest, position⟩ token stop ∧
      last.Tracks source ∧ last = { lexer with
        cursor := stop, lookahead := none, lastSpan := ⟨start.position, stop.position⟩ } := by
  have hdrop : source.drop start.position.offset = '/' :: tail := by
    rw [← hstart.rest_eq, hslash]
  have hless : start.position.offset < source.length := by
    have htotal := hstart.total_eq
    rw [hslash, List.length_cons] at htotal
    omega
  have htracks' : last.Tracks source := by
    refine ((rescanRegExp_tracks htracks ?_ ?_).of_ok hread).1
    · rwa [hlast]
    · rw [hlast, hdrop]
      rintro _ ⟨⟩
      rfl
  have hrescan : rescan (fun start => do
      set (cursorBehind lexer.source start)
      Scan.regExp start) lexer = .ok token last := hread
  obtain ⟨stop, hregExp, rfl⟩ := rescan_ok hrescan
  obtain ⟨_, _, hset, hregExp⟩ := Scan.Returns.of_bind hregExp
  cases hset
  rw [cursorBehind, htracks.inSource.source_eq, hlast, ← List.tail_drop, hdrop,
    List.tail_cons] at hregExp
  obtain ⟨v, hv⟩ := ((Scan.Goes.regExp _).of_ok hregExp).1.suffix
  obtain rfl : v ++ stop.rest = tail := hv
  exact ⟨v, stop, _, hslash, hregExp, htracks', by rw [hlast]⟩

section

variable {rules : List TokenRule} (hrules : rules = [] ∨ rules = [TokenRule.privateName])
  {source : List Char} {placed : Placed} {tokens : List Placed} {lexer : Lexer}
include hrules

/-- In front of a backslash a lexer feeds a token only if it begins with an escape. -/
theorem Lexer.FeedsAt.escape (hlexer : lexer.rules = rules) (hnone : lexer.lookahead = none)
    (h : lexer.FeedsAt (placed :: tokens)) (hhead : lexer.cursor.rest.head? = some '\\') :
    lexer.cursor.rest.tail.head? = some 'u' := by
  obtain ⟨next, behind, htake, -⟩ := h
  obtain ⟨stop, hscan, -⟩ := Lexing.exists_of_takeLookahead hnone htake
  generalize lexer.cursor = c at hscan hhead
  obtain ⟨_, position⟩ := c
  obtain ⟨rest, rfl⟩ := List.head?_eq_some_iff.1 hhead
  rw [hlexer, Scan.Returns, Scan.lookahead_eq, Scan.skipTrivia_stop rfl] at hscan
  dsimp only at hscan
  split at hscan
  · cases hscan
  · next hread => exact Scan.escape_of_token (.of_eq hrules) hread

/-- The next token that a lexer feeds stands in what is left of the source, if the end of the source
or another token is behind it. -/
theorem Lexer.FeedsAt.stands (htracks : lexer.Tracks source) (hlexer : lexer.rules = rules)
    (hnone : lexer.lookahead = none) (horderly : placed.IsOrderly)
    (hmore : tokens = [] → placed.token = .endOfInput) (h : lexer.FeedsAt (placed :: tokens)) :
    ∃ (gap u : List Char) (stop : Lexer), placed.Stands rules lexer.cursor.position.offset
        lexer.cursor.rest gap u stop.cursor.rest ∧ stop.Tracks source ∧ stop.rules = rules ∧
      stop.lookahead = none ∧ stop.cursor.position.offset = placed.span.stop.offset ∧
      stop.FeedsAt tokens := by
  have hclaim := ClaimPrivateNames.of_eq hrules
  obtain ⟨next, behind, htake, htoken, hnewline, hrest⟩ := h
  obtain ⟨htracks', -⟩ := (Lexing.next_tracks htracks).of_ok (Lexing.next_of_take htake)
  obtain ⟨middle, hscan, rfl⟩ := Lexing.exists_of_takeLookahead hnone htake
  obtain ⟨gap, start, htext, htrivia, hstops, hline, hstart, hread, hspan⟩ :=
    Scan.exists_gap_of_lookahead htracks.cursor hscan
  rw [hlexer, htoken] at hread
  rw [hnewline] at hline
  by_cases hend : placed.token = .endOfInput
  · have hkept : placed.reread = none := by
      by_contra hagain
      rcases horderly hagain with hslash | hbrace
      · rw [hend] at hslash
        cases hslash
      · rw [hend] at hbrace
        cases hbrace
    rw [hkept] at hrest
    obtain ⟨hplaced, hfeeds⟩ := hrest
    obtain ⟨rest, position⟩ := start
    cases rest with
    | cons first rest => exact absurd hend (Scan.yields_token_of_cons hrules hread)
    | nil =>
      rw [hend] at hread
      cases hread
      exact ⟨gap, [], _, .of_cursors htracks.cursor hstart hstart htext htrivia hstops hline rfl
        (hplaced.symm.trans hspan) (fun _ => ⟨hkept, rfl, rfl⟩) fun hmore => absurd hend hmore,
        htracks', hlexer, hnone, by rw [← hplaced, hspan], hfeeds⟩
  cases hagain : placed.reread with
  | none =>
    rw [hagain] at hrest
    obtain ⟨hplaced, hfeeds⟩ := hrest
    obtain ⟨hlead, htakes⟩ := (Scan.Goes.token hclaim.advances _).of_ok hread
    obtain ⟨u, hu⟩ := hlead.suffix
    have hnonempty : u ≠ [] := by
      rintro rfl
      have hless := htakes hend
      rw [← hu] at hless
      exact Nat.lt_irrefl _ hless
    have hescape : middle.rest.head? = some '\\' → middle.rest.tail.head? = some 'u' := by
      cases tokens with
      | nil => exact absurd (hmore rfl) hend
      | cons second tokens => exact hfeeds.escape hrules (by exact hlexer) (by exact hnone)
    refine ⟨gap, u, _, .of_cursors htracks.cursor hstart htracks'.cursor htext htrivia hstops hline
      hu.symm (hplaced.symm.trans hspan) (fun h => absurd h hend) fun _ => ?_, htracks', hlexer,
      hnone, by rw [← hplaced, hspan], hfeeds⟩
    obtain ⟨rest, position⟩ := start
    obtain rfl : u ++ middle.rest = rest := hu
    exact .of_token hclaim hagain hnonempty hescape hread
  | some token =>
    rw [hagain] at hrest
    obtain ⟨last, hreread, hplaced, hfeeds⟩ := hrest
    obtain ⟨u, stop, rfl, htracks'', hu, hoccupies⟩ : ∃ u stop, last = { lexer with
        cursor := stop, lookahead := none, lastSpan := ⟨start.position, stop.position⟩ } ∧
          last.Tracks source ∧ start.rest = u ++ stop.rest ∧
          placed.Occupies rules u stop.rest := by
      obtain ⟨rest, position⟩ := start
      by_cases hbrace : placed.token = .punctuator .rBrace
      · rw [Lexeme.rereading, if_pos hbrace] at hreread
        have htracks'' := ((Lexing.readTemplateContinuation_tracks htracks').of_ok hreread).1
        obtain ⟨stop, hpiece, rfl⟩ := Lexing.rescan_ok hreread
        obtain ⟨v, hv⟩ := Scan.Forward.suffix hpiece
        obtain ⟨behind, middle⟩ := middle
        obtain rfl : v ++ stop.rest = behind := hv
        obtain rfl : rest = '\x7d' :: (v ++ stop.rest) :=
          Scan.append_eq_of_punctuator hclaim (hbrace ▸ hread)
        exact ⟨'\x7d' :: v, stop, by rw [hspan], htracks'', rfl,
          .of_template hclaim hbrace hagain hread hpiece⟩
      · rw [Lexeme.rereading, if_neg hbrace] at hreread
        have hslash := (horderly (by rw [hagain]; rintro ⟨⟩)).resolve_right hbrace
        obtain ⟨tail, hmark⟩ : ∃ tail, rest = '/' :: tail := by
          simp only [Token.isSlash, Bool.or_eq_true, beq_iff_eq] at hslash
          rcases hslash with hslash | hslash
          · exact ⟨_, Scan.append_eq_of_punctuator hclaim (hslash ▸ hread)⟩
          · exact ⟨_, Scan.append_eq_of_punctuator hclaim (hslash ▸ hread)⟩
        obtain ⟨v, stop, _, hrest, hregExp, htracks'', rfl⟩ :=
          Lexing.exists_of_rescanRegExp htracks' hstart (by rw [hspan]) hmark hreread
        obtain rfl : rest = '/' :: (v ++ stop.rest) := hrest
        exact ⟨'/' :: v, stop, rfl, htracks'', rfl,
          .of_regExp hclaim hslash hagain hread hregExp⟩
    exact ⟨gap, u, _, .of_cursors htracks.cursor hstart htracks''.cursor htext htrivia hstops hline
      hu hplaced.symm (fun h => absurd h hend) fun _ => hoccupies, htracks'', hlexer, rfl,
      by rw [← hplaced], hfeeds⟩

/-- What a lexer feeds up to the end of the source stands in what is left of the source. -/
theorem Lexer.FeedsAt.stand (htracks : lexer.Tracks source) (hlexer : lexer.rules = rules)
    (hnone : lexer.lookahead = none) (horderly : ∀ placed ∈ tokens, placed.IsOrderly)
    (hlast : ∀ placed ∈ tokens.getLast?, placed.token = .endOfInput) (h : lexer.FeedsAt tokens) :
    Stand rules lexer.cursor.position.offset tokens lexer.cursor.rest := by
  induction tokens generalizing lexer with
  | nil => trivial
  | cons placed tokens ih =>
    obtain ⟨gap, u, stop, hstands, htracks', hlexer', hnone', hplace, hfeeds⟩ :=
      h.stands hrules htracks hlexer hnone (horderly placed List.mem_cons_self) (by
        rintro rfl
        exact hlast placed rfl)
    refine ⟨gap, u, _, hstands, ?_⟩
    rw [← hplace]
    refine ih htracks' hlexer' hnone' (fun placed hplaced =>
      horderly placed (List.mem_cons_of_mem _ hplaced)) ?_ hfeeds
    intro last hmem
    refine hlast last ?_
    rw [List.getLast?_cons, Option.mem_def.1 hmem]
    rfl

end

/-- White space, line terminators and whole comments behind a separator. -/
structure IsLayout (text : List Char) : Prop where
  first : text.head?.any isSeparator = true
  /-- Whatever comes behind them, line comments end in the text. -/
  trivia : ∀ following, Trivia following text

def lastStop (low : Nat) : List Placed → Nat
  | [] => low
  | placed :: tokens => lastStop placed.span.stop.offset tokens

def firstStart (high : Nat) : List Placed → Nat
  | [] => high
  | placed :: _ => placed.span.start.offset

variable {rules : List TokenRule} {low : Nat} {placed : Placed} {before after tokens : List Placed}
  {text front gap gap' back u rest : List Char}

/-- Where a token stands it is read. -/
theorem Placed.Stands.isReadFrom (h : placed.Stands rules low text gap u rest) :
    placed.IsReadFrom rules (u ++ rest) rest := by
  by_cases hend : placed.token = .endOfInput
  · obtain ⟨hkept, rfl, rfl⟩ := h.atEnd hend
    unfold Lexeme.IsReadFrom
    rw [hkept, hend]
    exact fun position => ⟨position, rfl⟩
  · exact (h.occupies hend).reads rest (.refl rest)

namespace Stand

/-- Tokens that stand in a text are spelled by it. -/
theorem spells (h : Stand rules low tokens text) :
    Spells rules (tokens.map Placed.toLexeme) text := by
  induction tokens generalizing low text with
  | nil => trivial
  | cons placed tokens ih =>
    obtain ⟨gap, u, rest, hstands, hrest⟩ := h
    exact ⟨gap, _, rest, hstands.text_eq, hstands.trivia, hstands.stops, hstands.newline,
      hstands.isReadFrom, ih hrest⟩

theorem le_lastStop (h : Stand rules low (before ++ after) text) : low ≤ lastStop low before := by
  induction before generalizing low text with
  | nil => exact Nat.le_refl low
  | cons placed before ih =>
    obtain ⟨gap, u, rest, hstands, hrest⟩ := h
    have hle := ih hrest
    have hstop := hstands.stop_eq
    unfold lastStop
    omega

/-- Behind the end of the source nothing else stands. -/
theorem token_eq (h : Stand rules low tokens []) :
    ∀ placed ∈ tokens, placed.token = .endOfInput := by
  induction tokens generalizing low with
  | nil => simp
  | cons placed tokens ih =>
    obtain ⟨gap, u, rest, hstands, hrest⟩ := h
    obtain ⟨rfl, hboth⟩ := List.append_eq_nil_iff.1 hstands.text_eq.symm
    obtain ⟨rfl, rfl⟩ := List.append_eq_nil_iff.1 hboth
    refine List.forall_mem_cons.2 ⟨?_, ih hrest⟩
    by_contra hend
    exact (hstands.occupies hend).nonempty rfl

/-- The end of the source stands behind the other tokens. -/
theorem exists_ends (h : Stand rules low tokens text) : ∃ ends,
    tokens = tokens.filter (·.token ≠ .endOfInput) ++ ends ∧
      ∀ placed ∈ ends, placed.token = .endOfInput := by
  induction tokens generalizing low text with
  | nil => exact ⟨[], rfl, by simp⟩
  | cons placed tokens ih =>
    obtain ⟨gap, u, rest, hstands, hrest⟩ := h
    by_cases hend : placed.token = .endOfInput
    · obtain ⟨-, -, rfl⟩ := hstands.atEnd hend
      have hends : ∀ other ∈ placed :: tokens, other.token = .endOfInput :=
        List.forall_mem_cons.2 ⟨hend, hrest.token_eq⟩
      refine ⟨placed :: tokens, ?_, hends⟩
      rw [List.filter_eq_nil_iff.2 fun other hother => by simpa using hends other hother,
        List.nil_append]
    · obtain ⟨ends, htokens, hends⟩ := ih hrest
      refine ⟨ends, ?_, hends⟩
      rw [List.filter_cons_of_pos (by simpa using hend), List.cons_append, ← htokens]

/-- With another layout in a gap the text spells the same tokens. -/
theorem respaced (h : Stand rules low (before ++ placed :: after) (front ++ (gap ++ back)))
    (hmore : ∀ other ∈ before, other.token ≠ .endOfInput)
    (hlow : lastStop low before = low + front.length)
    (hhigh : placed.span.start.offset = low + front.length + gap.length) (hlayout : IsLayout gap')
    (hline : gap'.any isLineTerminator = gap.any isLineTerminator) :
    Scan.Compatible (front ++ (gap ++ back)) (front ++ (gap' ++ back)) ∧
      Spells rules ((before ++ placed :: after).map Placed.toLexeme) (front ++ (gap' ++ back)) := by
  induction before generalizing low front with
  | nil =>
    obtain rfl : front = [] := List.eq_nil_of_length_eq_zero (by
      unfold lastStop at hlow
      omega)
    obtain ⟨g, u, rest, hstands, hrest⟩ := h
    have hlength : gap.length = g.length := by
      have hstart := hstands.start_eq
      rw [List.length_nil] at hhigh
      omega
    have htext := hstands.text_eq
    rw [List.nil_append] at htext
    obtain ⟨rfl, rfl⟩ := List.append_inj htext hlength
    refine ⟨.inl ?_, gap', u ++ rest, rest, rfl, hlayout.trivia _, hstands.stops,
      hline.trans hstands.newline, hstands.isReadFrom, hrest.spells⟩
    obtain ⟨x, hx, hseparator⟩ := (Option.any_eq_true _ _).1 hlayout.first
    rw [List.nil_append, List.head?_append, hx]
    simp [Scan.delimits, hseparator]
  | cons first before ih =>
    obtain ⟨g, u, rest, hstands, hrest⟩ := h
    have hend := hmore first List.mem_cons_self
    have hoccupies := hstands.occupies hend
    have hle := le_lastStop hrest
    have hstop := hstands.stop_eq
    change lastStop first.span.stop.offset before = _ at hlow
    -- The first token stands in `front`.
    have hprefix : g ++ u <+: front := by
      refine @List.prefix_of_prefix_length_le _ _ _ (front ++ (gap ++ back)) ?_
        (List.prefix_append _ _) ?_
      · rw [hstands.text_eq, ← List.append_assoc]
        exact List.prefix_append _ _
      · rw [List.length_append]
        omega
    obtain ⟨front, rfl⟩ := hprefix
    have htext := hstands.text_eq
    simp only [List.append_assoc, List.append_cancel_left_eq] at htext
    subst htext
    simp only [List.length_append] at hlow hhigh
    obtain ⟨hcompatible, hspells⟩ := ih hrest
      (fun other hother => hmore other (List.mem_cons_of_mem _ hother)) (by omega) (by omega)
    constructor
    · rw [List.append_assoc (g ++ u), List.append_assoc (g ++ u)]
      refine hcompatible.append (by simp [hoccupies.nonempty]) fun hpoint => ?_
      obtain ⟨rfl, hu⟩ | ⟨-, hu⟩ := List.append_eq_singleton_iff.1 hpoint
      · exact hoccupies.point hu
      · exact absurd hu hoccupies.nonempty
    · refine ⟨g, u ++ (front ++ (gap' ++ back)), _, by simp, hstands.trivia.congr ?_,
        hcompatible.opensTrivia hoccupies.nonempty hstands.stops, hstands.newline,
        hoccupies.reads _ hcompatible, hspells⟩
      rw [List.head?_append_of_ne_nil _ hoccupies.nonempty,
        List.head?_append_of_ne_nil _ hoccupies.nonempty]

end Stand

namespace Lexer

theorem rest_initialCursor (source : List Char) : (initialCursor source).rest =
    if source.head? = some '#' ∧ source.tail.head? = some '!' then
      source.dropWhile (!isLineTerminator ·)
    else source := by
  rw [initialCursor, Scan.skipHashbang_ofSource]
  by_cases hmark : source.head? = some '#' ∧ source.tail.head? = some '!'
  · obtain ⟨stop, hline⟩ := Scan.reads_skipLine source .start
    change Scan.skipLine (.ofSource source) = _ at hline
    rw [if_pos hmark, if_pos hmark, hline]
  · rw [if_neg hmark, if_neg hmark]
    rfl

/-- What a new lexer has skipped ends no line, and it skips the same in front of a text that begins
alike. -/
theorem exists_hashbang (source : List Char) : ∃ line,
    source = line ++ (initialCursor source).rest ∧ line.any isLineTerminator = false ∧
      (initialCursor source).position.offset = line.length ∧
      ∀ text, Scan.Compatible (initialCursor source).rest text →
        text.head? = (initialCursor source).rest.head? →
          (initialCursor (line ++ text)).rest = text := by
  have hat : (initialCursor source).At source := by
    have hline := Scan.Exact.skipHashbang.exact _ (Cursor.At.ofSource source)
    unfold initialCursor
    cases hresult : Scan.skipHashbang (.ofSource source) with
    | ok _ c => exact hline.of_ok hresult
    | error e c => exact (hline.of_error hresult).1
  have htotal := hat.total_eq
  have hrest := rest_initialCursor source
  by_cases hmark : source.head? = some '#' ∧ source.tail.head? = some '!'
  · rw [if_pos hmark] at hrest
    obtain ⟨tail, rfl⟩ := List.head?_eq_some_iff.1 hmark.1
    obtain ⟨tail, rfl⟩ := List.head?_eq_some_iff.1 hmark.2
    have hsplit := List.takeWhile_append_dropWhile (p := (!isLineTerminator ·))
      (l := '#' :: '!' :: tail)
    rw [← hrest] at hsplit
    have hline : ∀ c ∈ ('#' :: '!' :: tail).takeWhile (!isLineTerminator ·),
        (!isLineTerminator c) = true := List.all_eq_true.1 List.all_takeWhile
    refine ⟨_, hsplit.symm, ?_, ?_, fun text _ hhead => ?_⟩
    · exact List.any_eq_false.2 fun c hc => by simpa using hline c hc
    · have hlength := congrArg List.length hsplit
      rw [List.length_append] at hlength
      omega
    · rw [rest_initialCursor, if_pos ⟨rfl, rfl⟩, List.dropWhile_append_of_pos hline]
      cases text with
      | nil => rfl
      | cons c text =>
        have hstop := List.head?_dropWhile_not (!isLineTerminator ·) ('#' :: '!' :: tail)
        rw [← hrest, ← hhead] at hstop
        exact List.dropWhile_cons_of_neg (by simpa using hstop)
  · rw [if_neg hmark] at hrest
    rw [hrest] at htotal ⊢
    refine ⟨[], rfl, rfl, by rw [List.length_nil]; omega, fun text hcompatible _ => ?_⟩
    rw [List.nil_append, rest_initialCursor, if_neg]
    rintro ⟨hfirst, hsecond⟩
    obtain ⟨hfirst', htail | hdelimits⟩ := hcompatible.head?_eq (by decide) hfirst
    · exact hmark ⟨hfirst', htail.trans hsecond⟩
    · rw [hsecond] at hdelimits
      exact absurd hdelimits (by decide)

end Lexer

namespace Stand

/-- The end of the source stands there. -/
theorem start_eq (h : Stand rules low (before ++ placed :: after) text)
    (hend : placed.token = .endOfInput) : placed.span.start.offset = low + text.length := by
  induction before generalizing low text with
  | nil =>
    obtain ⟨gap, u, rest, hstands, -⟩ := h
    obtain ⟨-, rfl, rfl⟩ := hstands.atEnd hend
    rw [hstands.start_eq, hstands.text_eq, List.append_nil, List.append_nil]
  | cons first before ih =>
    obtain ⟨gap, u, rest, hstands, hrest⟩ := h
    rw [ih hrest, hstands.stop_eq, hstands.text_eq, List.length_append, List.length_append]
    omega

theorem le_start (h : Stand rules low (before ++ placed :: after) text) :
    lastStop low before ≤ placed.span.start.offset := by
  induction before generalizing low text with
  | nil =>
    obtain ⟨gap, u, rest, hstands, -⟩ := h
    rw [hstands.start_eq]
    exact Nat.le_add_right low _
  | cons first before ih =>
    obtain ⟨gap, u, rest, hstands, hrest⟩ := h
    exact ih hrest

end Stand

/-- The gap between `front` and `back` is what stands between two neighbours of the tokens, in front
of the first one or behind the last one. -/
def IsGap (tokens : List Placed) (front gap back : List Char) : Prop :=
  ∃ before after, tokens = before ++ after ∧ front.length = lastStop 0 before ∧
    front.length + gap.length = firstStart (front.length + gap.length + back.length) after

/-- A source with another layout in a gap feeds the same tokens. -/
theorem Lexer.feeds_respaced (hrules : rules = [] ∨ rules = [TokenRule.privateName])
    {source source' : String} (hsource : source.toList = front ++ (gap ++ back))
    (hsource' : source'.toList = front ++ (gap' ++ back)) {last : Placed}
    (horderly : ∀ placed ∈ tokens ++ [last], placed.IsOrderly) (hlast : last.token = .endOfInput)
    (hfeeds : (ofSource source rules).FeedsAt (tokens ++ [last]))
    (hgap : IsGap (tokens.filter (·.token ≠ .endOfInput)) front gap back) (hlayout : IsLayout gap')
    (hline : gap'.any isLineTerminator = gap.any isLineTerminator) :
    (ofSource source' rules).Feeds ((tokens ++ [last]).map Placed.toLexeme) := by
  have htracks := (Lexer.Rests.start source hrules).tracks
  have htracks' := (Lexer.Rests.start source' hrules).tracks
  have hstand := Lexer.FeedsAt.stand hrules htracks rfl rfl horderly (by
    rw [List.getLast?_append]
    rintro _ ⟨⟩
    exact hlast) hfeeds
  obtain ⟨line, htext, hplain, hoffset, hresume⟩ := exists_hashbang source.toList
  change Stand rules (initialCursor source.toList).position.offset (tokens ++ [last])
    (initialCursor source.toList).rest at hstand
  rw [hoffset] at hstand
  refine Lexer.feeds_of_spells htracks' rfl ?_
  change Spells rules _ (initialCursor source'.toList).rest
  generalize (initialCursor source.toList).rest = text at htext hstand hresume
  have hsource'' := htext.symm.trans hsource
  -- The gap stands in front of a token, which may be the end of the source.
  obtain ⟨before, after, htokens, hlow, hhigh⟩ := hgap
  have hmore : ∀ placed ∈ before, placed.token ≠ .endOfInput := fun placed hplaced => by
    have hmem := List.mem_append_left after hplaced
    rw [← htokens] at hmem
    simpa using List.of_mem_filter hmem
  obtain ⟨placed, others, hsplit, hstart⟩ : ∃ placed others,
      tokens ++ [last] = before ++ placed :: others ∧
        placed.span.start.offset = front.length + gap.length := by
    obtain ⟨ends, hends, hall⟩ := hstand.exists_ends
    rw [List.filter_append, htokens, List.filter_cons_of_neg (by simpa using hlast),
      List.filter_nil, List.append_nil, List.append_assoc] at hends
    cases after with
    | cons placed after => exact ⟨placed, after ++ ends, hends, hhigh.symm⟩
    | nil =>
      cases ends with
      | nil =>
        refine absurd hlast (hmore last ?_)
        rw [List.append_nil, List.append_nil] at hends
        rw [← hends]
        simp
      | cons placed ends =>
        refine ⟨placed, ends, hends, ?_⟩
        rw [hends] at hstand
        have hlength := congrArg List.length hsource''
        simp only [List.length_append] at hlength
        rw [hstand.start_eq (hall placed List.mem_cons_self), hhigh, firstStart]
        omega
  rw [hsplit] at hstand ⊢
  have hle := hstand.le_start
  cases before with
  | nil =>
    obtain rfl : front = [] := List.eq_nil_of_length_eq_zero hlow
    rw [List.length_nil, Nat.zero_add] at hstart
    rw [lastStop, hstart] at hle
    rw [List.nil_append] at hsource'' hsource'
    -- A `#!` line is a part of the gap.
    obtain ⟨gap, rfl⟩ := @List.prefix_of_prefix_length_le _ _ _ (gap ++ back)
      (hsource'' ▸ List.prefix_append line text) (List.prefix_append gap back) hle
    rw [List.append_assoc, List.append_cancel_left_eq] at hsource''
    subst hsource''
    rw [List.length_append] at hstart
    rw [List.any_append, hplain, Bool.false_or] at hline
    have hspells := (@Stand.respaced _ _ _ _ _ [] _ _ _ hstand hmore rfl hstart hlayout hline).2
    rwa [hsource', rest_initialCursor, if_neg]
    rintro ⟨hfirst, -⟩
    obtain ⟨x, hx, hseparator⟩ := (Option.any_eq_true _ _).1 hlayout.first
    rw [List.head?_append, hx] at hfirst
    cases hfirst
    cases hseparator
  | cons first before =>
    obtain ⟨g, u, rest, hstands, hrest⟩ := id hstand
    have hnonempty := List.length_pos_iff.2
      (hstands.occupies (hmore first List.mem_cons_self)).nonempty
    have hstop := hstands.stop_eq
    have hbehind := hrest.le_lastStop
    change front.length = lastStop first.span.stop.offset before at hlow
    obtain ⟨front, rfl⟩ := @List.prefix_of_prefix_length_le _ _ _ (front ++ (gap ++ back))
      (hsource'' ▸ List.prefix_append line text) (List.prefix_append front _) (by omega)
    rw [List.append_assoc, List.append_cancel_left_eq] at hsource''
    subst hsource''
    rw [List.length_append] at hlow hstart
    obtain ⟨hcompatible, hspells⟩ := hstand.respaced hmore hlow.symm hstart hlayout hline
    have hfront : front ≠ [] := List.length_pos_iff.1 (by omega)
    rwa [hsource', List.append_assoc, hresume _ hcompatible]
    rw [List.head?_append_of_ne_nil _ hfront, List.head?_append_of_ne_nil _ hfront]

end EcmaScript
