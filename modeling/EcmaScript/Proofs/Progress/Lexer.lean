import EcmaScript.Proofs.Lexer
import EcmaScript.Proofs.Progress.Scan

/-!
Where the next token starts.

The cursor of a lexer does not only move forward: it stands behind the next token once that has
been looked at, a slash is read again as a regular expression from the character behind it, and
`peekSecond` goes back to where it began. What does move forward is the start of the next token
that is not consumed yet (`LexerState.nextStart`). Looking at tokens leaves it in its place;
consuming a token other than the end of the source moves it on, also if the token is then read
again.
-/

namespace EcmaScript

variable {α : Type}

/-- Offset at which the next token starts; that of the cursor if there is a comment without an end
in front of it. -/
def LexerState.nextStart (state : LexerState) : Nat :=
  match state.lookahead with
  | some next => next.span.start.offset
  | none =>
    match Scan.skipTrivia state.cursor with
    | .ok _ start => start.position.offset
    | .error _ _ => state.cursor.position.offset

namespace Lexer

structure InSource (source : List Char) (lexer : Lexer) : Prop where
  source_eq : lexer.source = source
  advances : ∀ rule ∈ lexer.rules, rule.Advances
  total_eq : lexer.cursor.position.offset + lexer.cursor.rest.length = source.length
  start_le : ∀ next, lexer.lookahead = some next →
    next.span.start.offset ≤ lexer.cursor.position.offset
  start_lt : ∀ next, lexer.lookahead = some next → next.token ≠ .endOfInput →
    next.span.start.offset < lexer.cursor.position.offset

/-- The next token starts at `least` or behind it. -/
structure From (source : List Char) (least : Nat) (lexer : Lexer) : Prop where
  inSource : lexer.InSource source
  le_nextStart : least ≤ lexer.nextStart

/-- The next token starts at `least` or behind it, and is known not to be the end of the source. -/
structure Facing (source : List Char) (least : Nat) (lexer : Lexer) : Prop
    extends From source least lexer where
  ahead : ∃ next, lexer.lookahead = some next ∧ next.token ≠ .endOfInput

/-- The lexer is right behind a token that started at `least` or behind it. -/
structure Past (source : List Char) (least : Nat) (lexer : Lexer) : Prop where
  inSource : lexer.InSource source
  lookahead_eq : lexer.lookahead = none
  le_start : least ≤ lexer.lastSpan.start.offset
  start_lt_cursor : lexer.lastSpan.start.offset < lexer.cursor.position.offset

variable {source : List Char} {least : Nat} {lexer : Lexer}

theorem nextStart_of_some {next : Lookahead} (h : lexer.lookahead = some next) :
    lexer.nextStart = next.span.start.offset := by
  unfold LexerState.nextStart
  rw [h]

/-- Without a lookahead, the next token starts somewhere in what is left to read. -/
theorem nextStart_of_none (h : lexer.lookahead = none) :
    lexer.cursor.position.offset ≤ lexer.nextStart ∧
      lexer.nextStart ≤ lexer.cursor.position.offset + lexer.cursor.rest.length := by
  have htrivia : Scan.GoesOn Scan.skipTrivia lexer.cursor := .skipTrivia
  unfold LexerState.nextStart
  rw [h]
  cases hstart : Scan.skipTrivia lexer.cursor with
  | ok _ start =>
    have hlead := (htrivia.of_ok hstart).1
    have hlength := hlead.length_le
    have htotal := hlead.total_eq
    dsimp only
    omega
  | error e stopped =>
    dsimp only
    omega

theorem InSource.nextStart_le (h : lexer.InSource source) : lexer.nextStart ≤ source.length := by
  have htotal := h.total_eq
  cases hnext : lexer.lookahead with
  | some next =>
    have hstart := h.start_le next hnext
    rw [nextStart_of_some hnext]
    omega
  | none =>
    have hstart := (nextStart_of_none hnext).2
    omega

/-- Without a lookahead, the cursor may move on. -/
theorem InSource.moved (h : lexer.InSource source) (hnone : lexer.lookahead = none) {c : Cursor}
    (hlead : lexer.cursor.Leads c) : { lexer with cursor := c }.InSource source where
  source_eq := h.source_eq
  advances := h.advances
  total_eq := hlead.total_eq.trans h.total_eq
  start_le next hnext := by cases hnone.symm.trans hnext
  start_lt next hnext := by cases hnone.symm.trans hnext

theorem Past.toFrom (h : lexer.Past source least) : lexer.From source (least + 1) := by
  have hstart := h.le_start
  have hless := h.start_lt_cursor
  have hnext := (nextStart_of_none h.lookahead_eq).1
  exact ⟨h.inSource, by omega⟩

end Lexer

def Lexing.Refused (source : List Char) (e : Failure) (lexer : Lexer) : Prop :=
  lexer.InSource source ∧ ∃ d, e = .error d

/-- Scanning a token finds the start of it behind the trivia. -/
theorem Scan.Goes.lookahead {rules : List TokenRule} (hrules : ∀ rule ∈ rules, rule.Advances)
    (c : Cursor) :
    Goes (Scan.lookahead rules) c fun next c' => ∃ start, Scan.skipTrivia c = .ok () start ∧
      next.span.start = start.position ∧ start.Leads c' ∧
      (next.token ≠ .endOfInput → c'.rest.length < start.rest.length) := by
  have htrivia : GoesOn Scan.skipTrivia c := skipTrivia
  unfold Goes Ends
  rw [lookahead_eq]
  cases hstart : Scan.skipTrivia c with
  | error e stopped => exact htrivia.of_error hstart
  | ok _ start =>
    have hlead := (htrivia.of_ok hstart).1
    have htoken := token hrules start
    dsimp only
    cases hresult : Scan.token rules start with
    | error e stopped =>
      obtain ⟨hmore, hrefused⟩ := htoken.of_error hresult
      exact ⟨hlead.trans hmore, hrefused⟩
    | ok t stop =>
      obtain ⟨hmore, htakes⟩ := htoken.of_ok hresult
      exact ⟨hlead.trans hmore, start, rfl, rfl, hmore, htakes⟩

namespace Lexing

variable {source : List Char} {least : Nat} {lexer : Lexer}

open Lexer

/-- A scan at its place in the lexer. -/
theorem ends_scan {action : Scan α} {E : Failure → Lexer → Prop} {Q : α → Lexer → Prop}
    (h : Ends (fun e c => E e { lexer with cursor := c }) action lexer.cursor
      fun a c => Q a { lexer with cursor := c }) :
    Ends E (scan action) lexer Q := by
  unfold Ends scan
  cases hresult : action lexer.cursor with
  | ok a c => exact h.of_ok hresult
  | error e c => exact h.of_error hresult

/-- What is taken out of the lexer is the token at `nextStart`; the lexer is behind it. -/
theorem takeLookahead_ends (h : lexer.InSource source) :
    Ends (Refused source) takeLookahead lexer fun next lexer' =>
      next.span.start.offset = lexer.nextStart ∧
        { lexer' with lookahead := some next }.InSource source ∧
        lexer'.lookahead = none ∧ (∀ known, lexer.lookahead = some known → next = known) := by
  cases hnext : lexer.lookahead with
  | some known =>
    unfold Ends
    rw [takeLookahead_of_some hnext]
    refine ⟨(nextStart_of_some hnext).symm, ?_, rfl, fun _ h => by cases h; rfl⟩
    exact ⟨h.source_eq, h.advances, h.total_eq,
      fun next hsome => h.start_le next (hnext.trans hsome),
      fun next hsome => h.start_lt next (hnext.trans hsome)⟩
  | none =>
    unfold Ends
    rw [takeLookahead_of_none hnext, scanToken_eq]
    refine ends_scan (Ends.mono (Scan.Goes.lookahead h.advances lexer.cursor) ?_ ?_)
    · rintro next stop ⟨hlead, start, htrivia, hstart, hrest, htakes⟩
      have hoffset : next.span.start.offset = start.position.offset :=
        congrArg Position.offset hstart
      have htotal := hrest.total_eq
      have hlength := hrest.length_le
      refine ⟨?_, ⟨h.source_eq, h.advances, hlead.total_eq.trans h.total_eq, ?_, ?_⟩, hnext, ?_⟩
      · unfold LexerState.nextStart
        rw [hnext, htrivia]
        exact hoffset
      · rintro _ ⟨⟩
        dsimp only
        omega
      · rintro _ ⟨⟩ htoken
        have hless := htakes htoken
        dsimp only
        omega
      · rintro _ ⟨⟩
    · intro e stopped hstopped
      exact ⟨h.moved hnext hstopped.1, hstopped.2⟩

/-- Looking at the next token leaves its start in its place. -/
theorem lookahead_ends (h : lexer.InSource source) :
    Ends (Refused source) lookahead lexer fun next lexer' =>
      lexer'.InSource source ∧ lexer'.lookahead = some next ∧ lexer'.nextStart = lexer.nextStart ∧
        ∀ known, lexer.lookahead = some known → next = known := by
  refine (takeLookahead_ends h).bind fun next lexer' ⟨hstart, hbehind, _, hknown⟩ => ?_
  exact ⟨hbehind, rfl, (nextStart_of_some rfl).trans hstart, hknown⟩

/-- Consuming the next token leaves the lexer behind it. -/
theorem next_ends (h : lexer.InSource source) :
    Ends (Refused source) next lexer fun token lexer' =>
      lexer'.InSource source ∧ lexer'.lookahead = none ∧
        lexer'.lastSpan.start.offset = lexer.nextStart ∧
        lexer.nextStart ≤ lexer'.cursor.position.offset ∧
        (token ≠ .endOfInput → lexer.nextStart < lexer'.cursor.position.offset) ∧
        ∀ known, lexer.lookahead = some known → token = known.token := by
  refine (takeLookahead_ends h).bind fun next lexer' ⟨hstart, hbehind, hnone, hknown⟩ => ?_
  refine ⟨⟨hbehind.source_eq, hbehind.advances, hbehind.total_eq, ?_, ?_⟩, hnone, hstart, ?_, ?_, ?_⟩
  · intro known hsome
    cases hnone.symm.trans hsome
  · intro known hsome
    cases hnone.symm.trans hsome
  · rw [← hstart]
    exact hbehind.start_le next rfl
  · rw [← hstart]
    exact hbehind.start_lt next rfl
  · intro known hsome
    rw [hknown known hsome]

theorem next_from (h : lexer.From source least) :
    Ends (Refused source) next lexer fun token lexer' =>
      lexer'.From source least ∧ (token ≠ .endOfInput → lexer'.Past source least) := by
  have hle := h.le_nextStart
  refine (next_ends h.inSource).mono ?_ fun _ _ h => h
  intro token lexer' ⟨hsource, hnone, hstart, hbehind, htakes, _⟩
  have hnext := (nextStart_of_none hnone).1
  refine ⟨⟨hsource, by omega⟩, fun htoken => ⟨hsource, hnone, by omega, ?_⟩⟩
  rw [hstart]
  exact htakes htoken

theorem next_facing (h : lexer.Facing source least) :
    Ends (Refused source) next lexer fun _ lexer' => lexer'.Past source least := by
  obtain ⟨known, hknown, htoken⟩ := h.ahead
  have hle := h.le_nextStart
  refine (next_ends h.inSource).mono ?_ fun _ _ h => h
  intro token lexer' ⟨hsource, hnone, hstart, _, htakes, hsame⟩
  refine ⟨hsource, hnone, by omega, ?_⟩
  rw [hstart]
  apply htakes
  rw [hsame known hknown]
  exact htoken

/-- Looking at two tokens leaves the lexer as it was. -/
theorem peekSecond_ends (h : lexer.InSource source) :
    Ends (Refused source) peekSecond lexer fun _ lexer' =>
      lexer'.InSource source ∧ lexer'.toLexerState = lexer.toLexerState := by
  change Ends _ (next >>= fun _ => _) lexer _
  refine (next_ends h).bind fun _ first ⟨hfirst, _⟩ => ?_
  refine (lookahead_ends hfirst).bind fun _ second ⟨hsecond, _⟩ => ?_
  refine ⟨⟨hsecond.source_eq, hsecond.advances, h.total_eq, h.start_le, h.start_lt⟩, rfl⟩

/-- What is read again ends behind the place `c` from where it is read. -/
theorem rescan_ends {action : Position → Scan Token} {c : Cursor} (h : lexer.InSource source)
    (hle : least ≤ c.position.offset)
    (htotal : c.position.offset + c.rest.length = source.length)
    (haction : Ends (fun e c' => c.Leads c' ∧ ∃ d, e = .error d) (action lexer.lastSpan.start)
      lexer.cursor fun _ c' => c.Leads c') :
    Ends (Refused source) (rescan action) lexer fun _ lexer' => lexer'.From source least := by
  have hmoved {c' : Cursor} (hlead : c.Leads c') (span : Span) :
      { lexer with lookahead := none, cursor := c', lastSpan := span }.InSource source :=
    ⟨h.source_eq, h.advances, hlead.total_eq.trans htotal, by rintro _ ⟨⟩, by rintro _ ⟨⟩⟩
  change Ends _ (scan (action lexer.lastSpan.start) >>= fun _ => _)
    { lexer with lookahead := none } _
  refine Ends.bind (Q := fun _ lexer' => ∃ c', c.Leads c' ∧
    lexer' = { lexer with lookahead := none, cursor := c' }) ?_ ?_
  · refine ends_scan (haction.mono (fun _ c' hlead => ⟨c', hlead, rfl⟩) fun e c' hrefused => ?_)
    exact ⟨hmoved hrefused.1 _, hrefused.2⟩
  · rintro token _ ⟨c', hlead, rfl⟩
    have hlength := hlead.length_le
    have hoffset := hlead.total_eq
    refine ⟨hmoved hlead _, ?_⟩
    refine Nat.le_trans ?_ (nextStart_of_none rfl).1
    dsimp only
    omega

theorem rescanRegExp_past (h : lexer.Past source least) :
    Ends (Refused source) rescanRegExp lexer fun _ lexer' => lexer'.From source (least + 1) := by
  have htotal := h.inSource.total_eq
  have hstart := h.le_start
  have hless := h.start_lt_cursor
  change Ends _ (rescan fun start => do
    set (cursorBehind lexer.source start)
    Scan.regExp start) lexer _
  refine rescan_ends (c := cursorBehind lexer.source lexer.lastSpan.start) h.inSource ?_ ?_ ?_
  · exact Nat.succ_le_succ hstart
  · rw [h.inSource.source_eq]
    simp only [cursorBehind, List.length_drop]
    omega
  · exact Ends.mono (Scan.Goes.regExp _) (fun _ _ h => h.1) fun _ _ h => h

theorem readTemplateContinuation_past (h : lexer.Past source least) :
    Ends (Refused source) readTemplateContinuation lexer fun _ lexer' =>
      lexer'.From source (least + 1) := by
  have hstart := h.le_start
  have hless := h.start_lt_cursor
  refine rescan_ends h.inSource (by omega) h.inSource.total_eq ?_
  exact Ends.mono (Scan.Goes.templateContinuation _) (fun _ _ h => h.1) fun _ _ h => h

/-! ### Steps from any place -/

variable {β : Type}

/-- With rules that advance, the step fails with an error of the source at most, and keeps the
rules. -/
def Answers (p : Lexing α) : Prop :=
  ∀ lexer : Lexer, (∀ rule ∈ lexer.rules, rule.Advances) →
    Ends (fun e lexer' => lexer'.rules = lexer.rules ∧ ∃ d, e = .error d) p lexer
      fun _ lexer' => lexer'.rules = lexer.rules

namespace Answers

theorem bind {p : Lexing α} {q : α → Lexing β} (hp : Answers p) (hq : ∀ a, Answers (q a)) :
    Answers (p >>= q) := by
  intro lexer hrules
  refine (hp lexer hrules).bind fun a between hbetween => ?_
  have hrest := hq a between (hbetween ▸ hrules)
  rwa [hbetween] at hrest

theorem pure (a : α) : Answers (Pure.pure a) := fun _ _ => rfl

theorem change {f : Lexer → Lexer} (hf : ∀ lexer, (f lexer).rules = lexer.rules) :
    Answers (modify f) := fun lexer _ => hf lexer

/-- A step that goes by the state of the lexer. -/
theorem get {q : Lexer → Lexing α} (hq : ∀ lexer : Lexer, (∀ rule ∈ lexer.rules, rule.Advances) →
    Answers (q lexer)) : Answers (MonadState.get >>= q) :=
  fun lexer hrules => hq lexer hrules lexer hrules

theorem scan {action : Scan α}
    (h : ∀ c, Ends (fun e _ => ∃ d, e = .error d) action c fun _ _ => True) :
    Answers (Lexing.scan action) :=
  fun lexer _ => ends_scan ((h lexer.cursor).mono (fun _ _ _ => rfl) fun _ _ h => ⟨rfl, h⟩)

theorem takeLookahead : Answers Lexing.takeLookahead := by
  refine get fun lexer hrules => ?_
  cases lexer.lookahead with
  | some next => exact bind (change fun _ => rfl) fun _ => pure next
  | none =>
    refine get fun lexer hrules => scan fun c => ?_
    exact Ends.mono (Scan.Goes.lookahead hrules c) (fun _ _ _ => trivial) fun _ _ h => h.2

theorem lookahead : Answers Lexing.lookahead :=
  takeLookahead.bind fun _ => bind (change fun _ => rfl) fun _ => pure _

theorem next : Answers Lexing.next :=
  takeLookahead.bind fun _ => bind (change fun _ => rfl) fun _ => pure _

theorem peekSecond : Answers Lexing.peekSecond :=
  get fun _ _ => next.bind fun _ => lookahead.bind fun _ =>
    bind (change fun _ => rfl) fun _ => pure _

theorem rescan {action : Position → Scan Token}
    (h : ∀ start c, Ends (fun e _ => ∃ d, e = .error d) (action start) c fun _ _ => True) :
    Answers (Lexing.rescan action) :=
  get fun _ _ => bind (change fun _ => rfl) fun _ =>
    (scan (h _)).bind fun token => bind (change fun _ => rfl) fun _ => pure token

theorem rescanRegExp : Answers Lexing.rescanRegExp :=
  get fun _ _ => rescan fun start _ =>
    Ends.mono (Scan.Goes.regExp start) (fun _ _ _ => trivial) fun _ _ h => h.2

theorem readTemplateContinuation : Answers Lexing.readTemplateContinuation :=
  rescan fun start _ =>
    Ends.mono (Scan.Goes.templateContinuation start) (fun _ _ _ => trivial) fun _ _ h => h.2

end Answers

end Lexing

/-- A lexer at the start of a source. -/
theorem Lexer.inSource_ofSource (source : String) {rules : List TokenRule}
    (hrules : ∀ rule ∈ rules, rule.Advances) : (ofSource source rules).InSource source.toList := by
  have hstart : (Cursor.ofSource source.toList).Leads (initialCursor source.toList) := by
    have hline : Scan.GoesOn Scan.skipHashbang (.ofSource source.toList) := .skipHashbang
    unfold initialCursor
    cases hresult : Scan.skipHashbang (.ofSource source.toList) with
    | ok _ c => exact (hline.of_ok hresult).1
    | error e c => exact (hline.of_error hresult).1
  refine ⟨rfl, hrules, ?_, by rintro _ ⟨⟩, by rintro _ ⟨⟩⟩
  have htotal := hstart.total_eq
  change _ = 0 + source.toList.length at htotal
  rwa [Nat.zero_add] at htotal

end EcmaScript
