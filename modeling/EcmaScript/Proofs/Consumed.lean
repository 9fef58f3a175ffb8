import EcmaScript.Proofs.Orderly.Statement
import EcmaScript.Proofs.Steps

/-!
The tokens that a run consumes.

`Procedure.consumed` lists what a procedure consumes, with the place of each token; a slash or a
closing brace that is read again right away counts as the token that stays. What an orderly script
has consumed, the lexer at its start feeds, and then whatever the lexer at its end feeds.
-/

namespace EcmaScript

variable {σ α β : Type}

/-- A token in front of a parser, with its place in the source. -/
structure Placed extends Lexeme where
  span : Span

namespace Lexeme

/-- Nothing but a slash or a closing brace is read again. -/
def IsOrderly (lexeme : Lexeme) : Prop :=
  lexeme.reread ≠ none → lexeme.token.isSlash = true ∨ lexeme.token = .punctuator .rBrace

theorem IsOrderly.of_kept {lexeme : Lexeme} (h : lexeme.reread = none) : lexeme.IsOrderly :=
  fun hreread => absurd h hreread

theorem IsOrderly.reread_eq {lexeme : Lexeme} (h : lexeme.IsOrderly)
    (hword : lexeme.token.isWord = true) : lexeme.reread = none := by
  by_contra hreread
  rcases h hreread with hslash | hbrace
  · simp only [Token.isSlash, Bool.or_eq_true, beq_iff_eq] at hslash
    rcases hslash with hslash | hslash <;> rw [hslash] at hword <;> cases hword
  · rw [hbrace] at hword
    cases hword

end Lexeme

/-- The next tokens of the lexer are the given ones, at the given places. -/
def Lexer.FeedsAt : List Placed → Lexer → Prop
  | [], _ => True
  | placed :: rest, lexer => ∃ next behind, Lexing.takeLookahead lexer = .ok next behind ∧
    next.token = placed.token ∧ next.newlineBefore = placed.newlineBefore ∧
      match placed.reread with
      | none => next.span = placed.span ∧ FeedsAt rest { behind with lastSpan := next.span }
      | some token => ∃ behind',
        placed.rereading.run { behind with lastSpan := next.span } = .ok token behind' ∧
          behind'.lastSpan = placed.span ∧ FeedsAt rest behind'

namespace Lexer.FeedsAt

variable {placed : Placed} {tokens : List Placed} {lexer lexer' : Lexer}

theorem feeds (h : lexer.FeedsAt tokens) : lexer.Feeds (tokens.map Placed.toLexeme) := by
  induction tokens generalizing lexer with
  | nil => trivial
  | cons placed tokens ih =>
    obtain ⟨next, behind, htake, htoken, hnewline, hrest⟩ := h
    refine ⟨next, behind, htake, htoken, hnewline, ?_⟩
    unfold Placed.toLexeme
    cases hreread : placed.reread with
    | none =>
      rw [hreread] at hrest
      exact ih hrest.2
    | some token =>
      rw [hreread] at hrest
      obtain ⟨behind', hrun, -, hrest⟩ := hrest
      exact ⟨behind', hrun, ih hrest⟩

/-- What a lexer feeds is told by the token that it takes first. -/
theorem congr (htake : Lexing.takeLookahead lexer' = Lexing.takeLookahead lexer)
    (h : lexer.FeedsAt tokens) : lexer'.FeedsAt tokens := by
  cases tokens with
  | nil => trivial
  | cons placed tokens =>
    unfold FeedsAt at h ⊢
    rw [htake]
    exact h

/-- In front of a token that has been looked at, the first one is that token. -/
theorem token_eq (h : lexer.FeedsAt (placed :: tokens)) {known : Lookahead}
    (hknown : lexer.lookahead = some known) :
    known.token = placed.token ∧ known.newlineBefore = placed.newlineBefore := by
  obtain ⟨next, behind, htake, htoken, hnewline, -⟩ := h
  rw [Lexing.takeLookahead_of_some hknown] at htake
  cases htake
  exact ⟨htoken, hnewline⟩

end Lexer.FeedsAt

/-- The place of the last token that has been consumed, if it was the one before `consumed`. -/
def Placed.lastSpan (before : Span) (consumed : List Placed) : Span :=
  consumed.foldl (fun _ placed => placed.span) before

theorem Placed.lastSpan_append (before : Span) (front back : List Placed) :
    lastSpan before (front ++ back) = lastSpan (lastSpan before front) back :=
  List.foldl_append

/-- From the first lexer the tokens lead to the second one. -/
structure Trail (consumed : List Placed) (lexer lexer' : Lexer) : Prop where
  orderly : ∀ placed ∈ consumed, placed.IsOrderly
  lastSpan_eq : lexer'.lastSpan = Placed.lastSpan lexer.lastSpan consumed
  feedsAt : ∀ tokens, lexer'.FeedsAt tokens → lexer.FeedsAt (consumed ++ tokens)

namespace Trail

variable {lexer lexer' lexer'' : Lexer}

theorem nil (htake : Lexing.takeLookahead lexer' = Lexing.takeLookahead lexer)
    (hspan : lexer'.lastSpan = lexer.lastSpan) : Trail [] lexer lexer' :=
  ⟨by simp, hspan, fun _ htokens => htokens.congr htake.symm⟩

theorem refl (lexer : Lexer) : Trail [] lexer lexer := nil rfl rfl

theorem append {consumed consumed' : List Placed} (h : Trail consumed lexer lexer')
    (h' : Trail consumed' lexer' lexer'') : Trail (consumed ++ consumed') lexer lexer'' where
  orderly placed hplaced :=
    (List.mem_append.1 hplaced).elim (h.orderly placed) (h'.orderly placed)
  lastSpan_eq := by rw [Placed.lastSpan_append, ← h.lastSpan_eq, h'.lastSpan_eq]
  feedsAt tokens htokens := by
    rw [List.append_assoc]
    exact h.feedsAt _ (h'.feedsAt tokens htokens)

end Trail

/-! ## Steps of the lexer -/

def Lexer.consumedAgain (reading : LexerStep) (lexer : Lexer) : List Placed :=
  match Lexing.takeLookahead lexer with
  | .error _ _ => []
  | .ok next behind =>
    match reading.run { behind with lastSpan := next.span } with
    | .error _ _ => []
    | .ok token behind' => [⟨⟨next.token, next.newlineBefore, some token⟩, behind'.lastSpan⟩]

def LexStep.consumed : {α : Type} → LexStep α → Lexer → List Placed
  | _, .next, lexer =>
    match Lexing.takeLookahead lexer with
    | .error _ _ => []
    | .ok taken _ => [⟨⟨taken.token, taken.newlineBefore, none⟩, taken.span⟩]
  | _, .regExp, lexer => lexer.consumedAgain .regExp
  | _, .templateContinuation, lexer => lexer.consumedAgain .template
  | _, _, _ => []

/-- The lexer has looked at the token that is known. -/
def View.Sees : View → Lexer → Prop
  | .any, _ => True
  | .facing token, lexer => ∃ next, lexer.lookahead = some next ∧ next.token = token

theorem View.Sees.peek {token : Token} {s : ParserState σ}
    (h : (View.facing token).Sees s.lexer) : Parse.peek s = .ok token s := by
  obtain ⟨next, hnext, rfl⟩ := h
  exact Parse.peek_of_lookahead hnext

namespace Lexing

variable {lexer lexer' : Lexer}

/-- Looking at the next token does not change which one it is. -/
theorem takeLookahead_of_lookahead {next : Lookahead} (h : lookahead lexer = .ok next lexer') :
    lexer'.lookahead = some next ∧ takeLookahead lexer' = takeLookahead lexer := by
  cases htake : takeLookahead lexer with
  | error e stopped =>
    change (takeLookahead >>= fun _ => _) lexer = _ at h
    simp only [Bind.bind, EStateM.bind, htake] at h
    cases h
  | ok taken behind =>
    rw [lookahead_of_take htake] at h
    cases h
    exact ⟨rfl, takeLookahead_again htake⟩

/-- A step that looks at the next token returns what is told by it. -/
theorem of_look {f : Lookahead → α} {a : α}
    (h : (do return f (← lookahead) : Lexing α) lexer = .ok a lexer') :
    ∃ next, lookahead lexer = .ok next lexer' ∧ a = f next := by
  change (lookahead >>= fun _ => _) lexer = _ at h
  simp only [Bind.bind, EStateM.bind] at h
  cases hlook : lookahead lexer with
  | error e stopped =>
    rw [hlook] at h
    cases h
  | ok next behind =>
    rw [hlook] at h
    cases h
    exact ⟨next, rfl, rfl⟩

theorem look_of_lookahead {f : Lookahead → α} {next : Lookahead}
    (h : lookahead lexer = .ok next lexer') :
    (do return f (← lookahead) : Lexing α) lexer = .ok (f next) lexer' := by
  change (lookahead >>= fun _ => _) lexer = _
  simp only [Bind.bind, EStateM.bind, h]
  rfl

/-- Consuming a token. -/
theorem of_next {token : Token}
    (h : Lexing.next lexer = .ok token lexer') :
    ∃ taken behind, takeLookahead lexer = .ok taken behind ∧ token = taken.token ∧
      lexer' = { behind with lastSpan := taken.span } := by
  cases htake : takeLookahead lexer with
  | error e stopped =>
    change (takeLookahead >>= fun _ => _) lexer = _ at h
    simp only [Bind.bind, EStateM.bind, htake] at h
    cases h
  | ok taken behind =>
    cases h.symm.trans (next_of_take htake)
    exact ⟨taken, behind, rfl, rfl, rfl⟩

/-- Looking two tokens ahead leaves the lexer as it was. -/
theorem peekSecond_of_take {next second : Lookahead} {behind behind' : Lexer}
    (htake : takeLookahead lexer = .ok next behind)
    (htake' : takeLookahead { behind with lastSpan := next.span } = .ok second behind') :
    peekSecond lexer = .ok (second.token, second.newlineBefore) lexer := by
  obtain ⟨cursor, rfl⟩ := exists_cursor_of_takeLookahead htake
  obtain ⟨cursor', rfl⟩ := exists_cursor_of_takeLookahead htake'
  change (Lexing.next >>= fun _ => lookahead >>= fun _ => _) lexer = _
  simp only [Bind.bind, EStateM.bind, next_of_take htake, lookahead_of_take htake']
  rfl

theorem of_peekSecond {answer : Token × Bool} (h : peekSecond lexer = .ok answer lexer') :
    ∃ next behind, takeLookahead lexer = .ok next behind ∧ ∃ second behind',
      takeLookahead { behind with lastSpan := next.span } = .ok second behind' := by
  change (Lexing.next >>= fun _ => lookahead >>= fun _ => _) lexer = _ at h
  simp only [Bind.bind, EStateM.bind] at h
  cases hnext : Lexing.next lexer with
  | error e stopped =>
    rw [hnext] at h
    cases h
  | ok token middle =>
    obtain ⟨next, behind, htake, -, rfl⟩ := of_next hnext
    refine ⟨next, behind, htake, ?_⟩
    rw [hnext] at h
    cases htake' : takeLookahead { behind with lastSpan := next.span } with
    | ok second behind' => exact ⟨second, behind', rfl⟩
    | error e stopped =>
      have hlook : lookahead { behind with lastSpan := next.span } = .error e stopped := by
        change (takeLookahead >>= fun _ => _) _ = _
        simp only [Bind.bind, EStateM.bind, htake']
      simp only [hlook] at h
      cases h

/-- Looking two tokens ahead leaves the lexer as it was, if both can be scanned. -/
theorem lexer_of_peekSecond {answer : Token × Bool} (h : peekSecond lexer = .ok answer lexer') :
    lexer' = lexer := by
  obtain ⟨_, _, htake, _, _, htake'⟩ := of_peekSecond h
  exact (EStateM.Result.ok.inj (h.symm.trans (peekSecond_of_take htake htake'))).2

end Lexing

/-- A look at the next token leaves it in sight. -/
theorem View.Sees.of_look {view : View} {lexer lexer' : Lexer} {next : Lookahead}
    (h : view.Sees lexer) (hlook : Lexing.lookahead lexer = .ok next lexer') : view.Sees lexer' := by
  cases view with
  | any => trivial
  | facing token =>
    obtain ⟨known, hknown, rfl⟩ := h
    obtain ⟨hnext, htake⟩ := Lexing.takeLookahead_of_lookahead hlook
    rw [Lexing.takeLookahead_of_some hnext, Lexing.takeLookahead_of_some hknown] at htake
    exact ⟨next, hnext, congrArg Lookahead.token (EStateM.Result.ok.inj htake).1⟩

/-- Consuming a token and reading it again. -/
theorem Lexing.of_again {reading : LexerStep} {token : Token} {lexer lexer' : Lexer}
    (h : (do let _ ← Lexing.next; reading.run : Lexing Token) lexer = .ok token lexer') :
    ∃ taken behind, takeLookahead lexer = .ok taken behind ∧
      reading.run { behind with lastSpan := taken.span } = .ok token lexer' ∧
      lexer.consumedAgain reading =
        [⟨⟨taken.token, taken.newlineBefore, some token⟩, lexer'.lastSpan⟩] := by
  simp only [Bind.bind, EStateM.bind] at h
  cases hnext : next lexer with
  | error e stopped =>
    rw [hnext] at h
    cases h
  | ok _ middle =>
    obtain ⟨taken, behind, htake, -, rfl⟩ := of_next hnext
    rw [hnext] at h
    refine ⟨taken, behind, htake, h, ?_⟩
    simp only [Lexer.consumedAgain, htake]
    simp only [h]

/-- What is read again behind a slash or a closing brace, by the step for it. -/
def View.Rereads : View → LexerStep → Prop
  | .any, _ => False
  | .facing token, reading => (token.isSlash = true ∨ token = .punctuator .rBrace) ∧
    (if token = .punctuator .rBrace then LexerStep.template else .regExp) = reading

namespace Lexer

variable {reading : LexerStep} {view : View} {token : Token} {lexer lexer' : Lexer}

/-- A token that is consumed and read again leads behind what has been read. -/
theorem trail_again (h : view.Rereads reading) (hsees : view.Sees lexer)
    (hrun : (do let _ ← Lexing.next; reading.run : Lexing Token) lexer = .ok token lexer') :
    Trail (lexer.consumedAgain reading) lexer lexer' := by
  obtain ⟨taken, behind, htake, hread, hconsumed⟩ := Lexing.of_again hrun
  cases view with
  | any => exact h.elim
  | facing seen =>
    obtain ⟨known, hknown, rfl⟩ := hsees
    obtain ⟨hkind, rfl⟩ := h
    cases htake.symm.trans (Lexing.takeLookahead_of_some hknown)
    rw [hconsumed]
    refine ⟨fun placed hplaced => ?_, rfl, fun tokens htokens => ?_⟩
    · rw [List.mem_singleton.1 hplaced]
      exact fun _ => hkind
    · exact ⟨taken, _, htake, rfl, rfl, lexer', hread, rfl, htokens⟩

/-- What is consumed and read again is so wherever it is fed. -/
theorem imitated_again (h : view.Rereads reading) (hsees : view.Sees lexer)
    (hrun : (do let _ ← Lexing.next; reading.run : Lexing Token) lexer = .ok token lexer')
    {others : List Lexeme} {fed : Lexer}
    (hfed : fed.Feeds ((lexer.consumedAgain reading).map Placed.toLexeme ++ others)) :
    ∃ fed', (do let _ ← Lexing.next; reading.run : Lexing Token) fed = .ok token fed' ∧
      fed'.Feeds others := by
  obtain ⟨taken, behind, htake, -, hconsumed⟩ := Lexing.of_again hrun
  cases view with
  | any => exact h.elim
  | facing seen =>
    obtain ⟨known, hknown, rfl⟩ := hsees
    obtain ⟨-, rfl⟩ := h
    cases htake.symm.trans (Lexing.takeLookahead_of_some hknown)
    rw [hconsumed] at hfed
    obtain ⟨next, behind', htake', -, -, fed', hread, hfed'⟩ := hfed
    refine ⟨fed', ?_, hfed'⟩
    simp only [Bind.bind, EStateM.bind, Lexing.next_of_take htake']
    exact hread

end Lexer

/-- Looking at the next token consumes nothing. -/
theorem Lexing.trail_of_look {f : Lookahead → α} {a : α} {lexer lexer' : Lexer}
    (h : (do return f (← lookahead) : Lexing α) lexer = .ok a lexer') : Trail [] lexer lexer' := by
  obtain ⟨next, hlook, -⟩ := of_look h
  refine .nil (takeLookahead_of_lookahead hlook).2 ?_
  cases htake : takeLookahead lexer with
  | error e stopped =>
    change (takeLookahead >>= fun _ => _) lexer = _ at hlook
    simp only [Bind.bind, EStateM.bind, htake] at hlook
    cases hlook
  | ok taken behind =>
    cases hlook.symm.trans (lookahead_of_take htake)
    obtain ⟨cursor, rfl⟩ := exists_cursor_of_takeLookahead htake
    rfl

/-- The tokens that `tokens` begins with, if the next one is a word the next two, are the ones that
`others` begins with. -/
def LookAlike (tokens others : List Lexeme) : Prop :=
  ∃ first rest rest', tokens = first :: rest ∧ others = first :: rest' ∧
    (first.token.isWord = true → ∃ second more more',
      rest = second :: more ∧ rest' = second :: more')

namespace LookAlike

variable {tokens others : List Lexeme}

theorem behind (front : List Lexeme) (h : LookAlike tokens others) :
    LookAlike (front ++ tokens) (front ++ others) := by
  match front with
  | [] => exact h
  | [first] =>
    obtain ⟨second, rest, rest', rfl, rfl, -⟩ := h
    exact ⟨first, _, _, rfl, rfl, fun _ => ⟨second, rest, rest', rfl, rfl⟩⟩
  | first :: second :: front =>
    exact ⟨first, _, _, rfl, rfl, fun _ => ⟨second, _, _, rfl, rfl⟩⟩

end LookAlike

/-- The step is a matter of tokens alone, and of no more of them than are told by what is known. -/
def LexStep.IsOrderly : {α : Type} → LexStep α → View → Prop
  | _, .peek, _ | _, .next, _ | _, .newlineBefore, _ => True
  | _, .peekSecond, .facing token => token.isWord = true
  | _, .regExp, .facing token => token.isSlash = true
  | _, .templateContinuation, .facing token => token = .punctuator .rBrace
  | _, _, _ => False

namespace LexStep

variable {step : LexStep α} {view : View} {lexer lexer' : Lexer} {a : α}

theorem IsOrderly.rereads_regExp (h : LexStep.regExp.IsOrderly view) : view.Rereads .regExp := by
  cases view with
  | any => exact h
  | facing token =>
    refine ⟨.inl h, if_neg ?_⟩
    rintro rfl
    cases h

theorem IsOrderly.rereads_template (h : LexStep.templateContinuation.IsOrderly view) :
    view.Rereads .template := by
  cases view with
  | any => exact h
  | facing token => exact ⟨.inr h, if_pos h⟩

/-- What a step consumes leads from the lexer in front of it to the one behind it. -/
theorem trail (h : step.IsOrderly view) (hsees : view.Sees lexer)
    (hrun : step.run lexer = .ok a lexer') : Trail (step.consumed lexer) lexer lexer' := by
  cases step with
  | peek => exact Lexing.trail_of_look (f := Lookahead.token) hrun
  | newlineBefore => exact Lexing.trail_of_look (f := Lookahead.newlineBefore) hrun
  | next =>
    obtain ⟨taken, behind, htake, rfl, rfl⟩ := Lexing.of_next hrun
    simp only [consumed, htake]
    refine ⟨fun placed hplaced => ?_, rfl, fun tokens htokens => ?_⟩
    · rw [List.mem_singleton.1 hplaced]
      exact .of_kept rfl
    · exact ⟨taken, behind, htake, rfl, rfl, rfl, htokens⟩
  | peekSecond =>
    rw [Lexing.lexer_of_peekSecond hrun]
    exact .refl lexer
  | regExp => exact Lexer.trail_again h.rereads_regExp hsees hrun
  | templateContinuation => exact Lexer.trail_again h.rereads_template hsees hrun
  | _ => exact h.elim

/-- A step returns the same wherever the tokens look alike that the lexer feeds. -/
theorem imitated (h : step.IsOrderly view) (hsees : view.Sees lexer)
    (hrun : step.run lexer = .ok a lexer') {tokens : List Placed} {others : List Lexeme}
    (htokens : lexer'.FeedsAt tokens) (horderly : ∀ placed ∈ tokens, placed.IsOrderly)
    (halike : LookAlike (tokens.map Placed.toLexeme) others) {fed : Lexer}
    (hfed : fed.Feeds ((step.consumed lexer).map Placed.toLexeme ++ others)) :
    ∃ fed', step.run fed = .ok a fed' ∧ fed'.Feeds others := by
  obtain ⟨first, rest, rest', hmap, rfl, hword⟩ := halike
  obtain ⟨placed, tokens, rfl, rfl, rfl⟩ := List.map_eq_cons_iff.1 hmap
  -- What a look at the next token shows is the same.
  have hlook (f : Lookahead → α) (hf : ∀ next next' : Lookahead, next.token = next'.token →
      next.newlineBefore = next'.newlineBefore → f next = f next')
      (hrun : (do return f (← Lexing.lookahead) : Lexing α) lexer = .ok a lexer')
      (hfed : fed.Feeds (placed.toLexeme :: rest')) : ∃ fed',
      (do return f (← Lexing.lookahead) : Lexing α) fed = .ok a fed' ∧
        fed'.Feeds (placed.toLexeme :: rest') := by
    obtain ⟨next, hlook, rfl⟩ := Lexing.of_look hrun
    obtain ⟨htoken, hnewline⟩ :=
      htokens.token_eq (Lexing.takeLookahead_of_lookahead hlook).1
    obtain ⟨next', fed', hlook', htoken', hnewline', hfed'⟩ := hfed.lookahead
    refine ⟨fed', ?_, hfed'⟩
    rw [hf next next' (htoken.trans htoken'.symm) (hnewline.trans hnewline'.symm)]
    exact Lexing.look_of_lookahead hlook'
  cases step with
  | peek => exact hlook Lookahead.token (fun _ _ htoken _ => htoken) hrun hfed
  | newlineBefore =>
    exact hlook Lookahead.newlineBefore (fun _ _ _ hnewline => hnewline) hrun hfed
  | next =>
    obtain ⟨taken, behind, htake, rfl, rfl⟩ := Lexing.of_next hrun
    simp only [consumed, htake] at hfed
    exact hfed.next rfl
  | peekSecond =>
    obtain ⟨next, behind, htake, second, behind', htake'⟩ := Lexing.of_peekSecond hrun
    cases hrun.symm.trans (Lexing.peekSecond_of_take htake htake')
    cases view with
    | any => exact h.elim
    | facing token =>
      obtain ⟨known, hknown, rfl⟩ := hsees
      have hfirst := (htokens.token_eq hknown).1
      have hfirstWord : placed.token.isWord = true := hfirst ▸ h
      have hkept := (horderly placed List.mem_cons_self).reread_eq hfirstWord
      obtain ⟨second', more, more', hmore, rfl⟩ := hword hfirstWord
      obtain ⟨placed', tokens, rfl, rfl, -⟩ := List.map_eq_cons_iff.1 hmore
      -- The second token is the same, seen from both lexers.
      have hanswer {lexer : Lexer} {more : List Lexeme}
          (hfeeds : lexer.Feeds (placed.toLexeme :: placed'.toLexeme :: more)) :
          Lexing.peekSecond lexer = .ok (placed'.token, placed'.newlineBefore) lexer := by
        obtain ⟨next, behind, htake, -, -, hrest⟩ := hfeeds
        rw [hkept] at hrest
        obtain ⟨second, behind', htake', htoken, hnewline, -⟩ := hrest
        rw [Lexing.peekSecond_of_take htake htake', htoken, hnewline]
      have hsame := hanswer htokens.feeds
      rw [Lexing.peekSecond_of_take htake htake'] at hsame
      obtain ⟨hpair, -⟩ := EStateM.Result.ok.inj hsame
      rw [hpair]
      exact ⟨fed, hanswer hfed, hfed⟩
  | regExp => exact Lexer.imitated_again h.rereads_regExp hsees hrun hfed
  | templateContinuation => exact Lexer.imitated_again h.rereads_template hsees hrun hfed
  | _ => exact h.elim

end LexStep

/-! ## Runs that return -/

theorem Parse.lexing_eq_ok {step : Lexing α} {s t : ParserState σ} {a : α}
    (h : lexing step s = .ok a t) : ∃ lexer, step s.lexer = .ok a lexer ∧ t = { s with lexer } := by
  unfold lexing at h
  cases hstep : step s.lexer with
  | ok b lexer =>
    rw [hstep] at h
    cases h
    exact ⟨lexer, rfl, rfl⟩
  | error e lexer =>
    rw [hstep] at h
    cases h

namespace Observed

variable {o : Observed σ α} {a : α} {t : ParserState σ}

theorem of_andThen {o : Observed σ β} {next : β → ParserState σ → Observed σ α}
    (h : (o.andThen next).1 = .ok a t) : ∃ b s, o.1 = .ok b s ∧ (next b s).1 = .ok a t := by
  obtain ⟨_ | _, events⟩ := o
  · exact ⟨_, _, rfl, h⟩
  · cases h

theorem of_closedBy {close : Parse σ Unit} {event : ParserState σ → Event}
    (h : (o.closedBy close event).1 = .ok a t) : ∃ s, o.1 = .ok a s ∧ close s = .ok () t := by
  obtain ⟨result, events⟩ := o
  rcases result with ⟨b, s⟩ | ⟨d | _ | _, s⟩
  · simp only [closedBy] at h
    cases hclose : close s with
    | ok _ s' =>
      rw [hclose] at h
      cases h
      exact ⟨s, rfl, hclose⟩
    | error e s' =>
      rw [hclose] at h
      cases h
  · simp only [closedBy] at h
    rcases hclose : close s with ⟨_, _⟩ | ⟨_ | _ | _, _⟩ <;> rw [hclose] at h <;> cases h
  · cases h
  · cases h

theorem of_leaving {region : Region} {before : Context} (h : (o.leaving region before).1 = .ok a t) :
    ∃ s behind, o.1 = .ok a s ∧ region.leave before s.context = some behind ∧
      t = { s with context := behind } := by
  obtain ⟨s, hrun, hclose⟩ := of_closedBy h
  unfold Parse.leaving at hclose
  cases hleave : region.leave before s.context with
  | some behind =>
    rw [hleave] at hclose
    cases hclose
    exact ⟨s, behind, hrun, hleave, rfl⟩
  | none =>
    rw [hleave] at hclose
    cases hclose

theorem fst_ofResult (r : EStateM.Result Failure (ParserState σ) α) : (ofResult r).1 = r := by
  cases r <;> rfl

end Observed

/-- Looking at the next token does not change which one it is. -/
theorem ParserState.LooksTo.takes {s t : ParserState σ} {next : Lookahead} (h : s.LooksTo next t) :
    t.lexer.lookahead = some next ∧
      Lexing.takeLookahead t.lexer = Lexing.takeLookahead s.lexer := by
  obtain ⟨lexer, hlook, rfl⟩ := Parse.lexing_eq_ok h
  exact Lexing.takeLookahead_of_lookahead hlook

/-- The lexer feeds its next token, if nothing is read again. -/
theorem ParserState.LooksTo.feedsAt {s t : ParserState σ} {next : Lookahead}
    {tokens : List Placed} (h : s.LooksTo next t) (htokens : (t.behind next).lexer.FeedsAt tokens) :
    s.lexer.FeedsAt (⟨⟨next.token, next.newlineBefore, none⟩, next.span⟩ :: tokens) := by
  obtain ⟨behind, htake, rfl⟩ := h.cases
  refine ⟨next, behind, htake, rfl, rfl, rfl, ?_⟩
  obtain ⟨cursor, rfl⟩ := Lexing.exists_cursor_of_takeLookahead htake
  exact htokens

/-- A hook leaves the lexer as it is. -/
theorem Parse.lexer_of_hook {action : Hook σ α} {s t : ParserState σ} {a : α}
    (h : hook action s = .ok a t) : t.lexer = s.lexer := by
  unfold hook at h
  cases haction : action s.hooks <;> rw [haction] at h <;> cases h
  rfl

namespace Procedure

/-- The tokens that a run consumes, in their order. -/
def consumed (hooks : Hooks σ) (options : Options) :
    {α : Type} → Procedure α → ParserState σ → List Placed
  | _, .bind first next, s =>
    match (first.observe hooks options s).1 with
    | .ok b s' => first.consumed hooks options s ++ (next b).consumed hooks options s'
    | .error _ _ => first.consumed hooks options s
  | _, .lex step, s => step.consumed s.lexer
  | _, .within region body, s =>
    body.consumed hooks options { s with context := region.enter s.context }
  | _, .arrow isAsync body, s =>
    match Parse.nextIs .lBrace { s with context := Grammar.enterArrow isAsync s.context } with
    | .ok isBlock inside => (body isBlock).consumed hooks options inside
    | .error _ _ => []
  | _, .inClass body, s => body.consumed hooks options { s with hooks := hooks.enterClass s.hooks }
  | _, .inMethod key body, s =>
    body.consumed hooks options { s with hooks := (hooks.enterMethod key s.hooks).2 }
  | _, _, _ => []

variable {hooks : Hooks σ} {options : Options}

theorem consumed_bind {first : Procedure β} {next : β → Procedure α} {s s' : ParserState σ} {b : β}
    (h : (first.observe hooks options s).1 = .ok b s') :
    (Procedure.bind first next).consumed hooks options s =
      first.consumed hooks options s ++ (next b).consumed hooks options s' := by
  rw [consumed, h]

theorem observe_peek {token : Token} {s : ParserState σ} (h : (View.facing token).Sees s.lexer) :
    ((lex .peek).observe hooks options s).1 = .ok token s := by
  simp only [observe, Observed.fst_ofResult]
  exact h.peek

/-- What a run consumes that returns leads from the lexer in front of it to the one behind it, and
there the token has been looked at that is then known. -/
structure FeedsOn (view : View) (procedure : Procedure α) (after : α → View) : Prop where
  feedsOn : ∀ {σ : Type} (hooks : Hooks σ) (options : Options) {s t : ParserState σ} {a : α},
    view.Sees s.lexer → (procedure.observe hooks options s).1 = .ok a t →
      Trail (procedure.consumed hooks options s) s.lexer t.lexer ∧ (after a).Sees t.lexer

namespace FeedsOn

variable {view : View} {after : α → View}

theorem anywhere {procedure : Procedure α} (h : procedure.FeedsOn .any after) :
    procedure.FeedsOn view after :=
  ⟨fun hooks options _ _ _ _ hrun => h.feedsOn hooks options trivial hrun⟩

/-- Less may be known behind the run. -/
theorem forget {procedure : Procedure α} (h : procedure.FeedsOn view after) :
    procedure.FeedsOn view fun _ => .any :=
  ⟨fun hooks options _ _ _ hsees hrun => ⟨(h.feedsOn hooks options hsees hrun).1, trivial⟩⟩

/-- A run that leaves the lexer as it is. -/
theorem idle {procedure : Procedure α}
    (hnone : ∀ {σ : Type} (hooks : Hooks σ) (options : Options) (s : ParserState σ),
      procedure.consumed hooks options s = [])
    (hidle : ∀ {σ : Type} (hooks : Hooks σ) (options : Options) {s t : ParserState σ} {a : α},
      (procedure.observe hooks options s).1 = .ok a t → t.lexer = s.lexer) :
    procedure.FeedsOn view fun _ => view := by
  refine ⟨fun hooks options s t a hsees hrun => ?_⟩
  rw [hnone, hidle hooks options hrun]
  exact ⟨.refl s.lexer, hsees⟩

theorem raise (d : Diagnostic) : (Procedure.raise d).FeedsOn view after :=
  ⟨fun _ _ _ _ _ _ hrun => by cases hrun⟩

theorem afterUnary (e : Expression) : (Procedure.afterUnary e).FeedsOn view fun _ => view := by
  refine idle (fun _ _ _ => rfl) fun hooks options s t a hrun => ?_
  simp only [observe, Observed.behind, Observed.fst_ofResult] at hrun
  exact Parse.lexer_of_hook hrun

theorem exhaust : Procedure.exhaust.FeedsOn view after :=
  ⟨fun _ _ _ _ _ _ hrun => by cases hrun⟩

theorem pure {a : α} (h : after a = view) : (Procedure.pure a).FeedsOn view after := by
  refine ⟨fun hooks options s t a' hsees hrun => ?_⟩
  cases hrun
  rw [h]
  exact ⟨.refl s.lexer, hsees⟩

theorem bind {first : Procedure β} {next : β → Procedure α} {between : β → View}
    (hfirst : first.FeedsOn view between) (hnext : ∀ b, (next b).FeedsOn (between b) after) :
    (Procedure.bind first next).FeedsOn view after := by
  refine ⟨fun hooks options s t a hsees hrun => ?_⟩
  obtain ⟨b, middle, hrun, hrun'⟩ := Observed.of_andThen hrun
  obtain ⟨htrail, hbetween⟩ := hfirst.feedsOn hooks options hsees hrun
  obtain ⟨htrail', hafter⟩ := (hnext b).feedsOn hooks options hbetween hrun'
  rw [consumed_bind hrun]
  exact ⟨htrail.append htrail', hafter⟩

/-- A step of the lexer that is a matter of tokens. -/
theorem lex {step : LexStep α} (h : step.IsOrderly view)
    (hseen : ∀ {lexer lexer' : Lexer} {a : α}, view.Sees lexer → step.run lexer = .ok a lexer' →
      (after a).Sees lexer') : (Procedure.lex step).FeedsOn view after := by
  refine ⟨fun hooks options s t a hsees hrun => ?_⟩
  simp only [observe, Observed.fst_ofResult] at hrun
  obtain ⟨lexer, hrun', rfl⟩ := Parse.lexing_eq_ok hrun
  exact ⟨LexStep.trail h hsees hrun', hseen hsees hrun'⟩

/-- Behind a look at the next token that token is seen. -/
theorem peek : (Procedure.lex .peek).FeedsOn view .facing := by
  refine lex trivial fun _ hrun => ?_
  obtain ⟨next, hlook, rfl⟩ := Lexing.of_look (f := Lookahead.token) hrun
  exact ⟨next, (Lexing.takeLookahead_of_lookahead hlook).1, rfl⟩

/-- A question about a token that has been looked at. -/
theorem ask {token : Token} {f : Token → α} (h : after (f token) = .facing token) :
    (Procedure.bind (.lex .peek) fun seen => .pure (f seen)).FeedsOn (.facing token) after := by
  refine ⟨fun hooks options s t a hsees hrun => ?_⟩
  obtain ⟨seen, middle, hpeek, hrun'⟩ := Observed.of_andThen hrun
  cases (observe_peek hsees).symm.trans hpeek
  rw [consumed_bind hpeek]
  exact (pure h).feedsOn hooks options hsees hrun'

theorem rounds {round : α → Procedure (Round α β)}
    (hround : ∀ a, (round a).FeedsOn .any fun _ => .any) (bound : Nat) (a : α) :
    (Procedure.rounds round bound a).FeedsOn .any fun _ => .any := by
  induction bound generalizing a with
  | zero => exact .exhaust
  | succ bound ih =>
    refine bind (hround a) fun r => ?_
    cases r with
    | again a' => exact ih a'
    | stop b => exact pure rfl

theorem within (region : Region) {body : Procedure α} (h : body.FeedsOn view after) :
    (Procedure.within region body).FeedsOn view after := by
  refine ⟨fun hooks options s t a hsees hrun => ?_⟩
  obtain ⟨end_, behind, hrun', -, rfl⟩ := Observed.of_leaving hrun
  have hbody := h.feedsOn (s := { s with context := region.enter s.context }) hooks options hsees hrun'
  exact hbody

theorem arrow (isAsync : Bool) {body : Bool → Procedure α}
    (h : ∀ isBlock, (body isBlock).FeedsOn .any after) :
    (Procedure.arrow isAsync body).FeedsOn view after := by
  refine ⟨fun hooks options s t a _ hrun => ?_⟩
  unfold observe at hrun
  unfold consumed
  cases hblock : Parse.nextIs .lBrace { s with context := Grammar.enterArrow isAsync s.context } with
  | error e inside =>
    rw [hblock] at hrun
    cases hrun
  | ok isBlock inside =>
    rw [hblock] at hrun
    obtain ⟨end_, behind, hrun', -, rfl⟩ := Observed.of_leaving hrun
    obtain ⟨htrail, hafter⟩ := (h isBlock).feedsOn hooks options trivial hrun'
    obtain ⟨next, hlook, -⟩ := Parse.nextIs_eq_ok hblock
    have hfront : Trail [] s.lexer inside.lexer := .nil hlook.takes.2 hlook.lastSpan_eq
    exact ⟨hfront.append htrail, hafter⟩

/-- A body behind a call of a hook and in front of another one. -/
theorem enclosed {body : Procedure α} (h : body.FeedsOn view after) {hooks : Hooks σ}
    {options : Options} {inside : σ} {close : Parse σ Unit} {event : ParserState σ → Event}
    (hclose : ∀ {s t : ParserState σ}, close s = .ok () t → t.lexer = s.lexer)
    {s t : ParserState σ} {a : α} (hsees : view.Sees s.lexer)
    (hrun : ((body.observe hooks options { s with hooks := inside }).closedBy close event).1 =
      .ok a t) :
    Trail (body.consumed hooks options { s with hooks := inside }) s.lexer t.lexer ∧
      (after a).Sees t.lexer := by
  obtain ⟨middle, hrun', hclosed⟩ := Observed.of_closedBy hrun
  rw [hclose hclosed]
  exact h.feedsOn (s := { s with hooks := inside }) hooks options hsees hrun'

end FeedsOn

end Procedure

theorem Procedure.lexer_of_askName {question : Hook σ Bool} {name : PrivateName}
    {s t : ParserState σ} (h : askName question name s = .ok () t) : t.lexer = s.lexer := by
  obtain ⟨accepted, middle, hhook, hrest⟩ := Parse.bind_eq_ok h
  cases accepted <;> cases hrest
  exact Parse.lexer_of_hook hhook

/-- What is known in front of a step is known in front of it too if less is asked for. -/
theorem Known.Implies.sees {known known' : Known} (h : known.Implies known') {lexer : Lexer}
    (hsees : known.view.Sees lexer) : known'.view.Sees lexer := by
  rcases h.view with hany | hsame
  · rw [hany]
    trivial
  · rw [hsame]
    exact hsees

/-- What a run of an orderly script consumes, the lexer in front of it feeds, if that is so for the
rules that are called. -/
theorem Script.Orderly.feedsOn [Bare α] {place : Setting} {known : Known} {script script' : Script α}
    {after : α → Known} (h : script.Orderly place known script' after) {r : Routines}
    (hcall : ∀ {β : Type} (callee : Recurring β), (r.call callee).FeedsOn .any fun _ => .any) :
    (script.plug r).FeedsOn known.view fun a => (after a).view := by
  induction h with
  | pure ha => exact .pure rfl
  | raise d => exact .raise d
  | options | context | beStrict => exact .idle (fun _ _ _ => rfl) fun _ _ _ _ _ h => by cases h; rfl
  | lastEnd => exact .idle (fun _ _ _ => rfl) fun _ _ _ _ _ h => by cases h; rfl
  | peek => exact .peek
  | askAgain h => exact .ask (by rw [h])
  | newlineBefore =>
    refine .lex trivial fun hsees hrun => ?_
    obtain ⟨next, hlook, -⟩ := Lexing.of_look (f := Lookahead.newlineBefore) hrun
    exact hsees.of_look hlook
  | peekSecond hword =>
    refine .lex hword fun hsees hrun => ?_
    rw [Lexing.lexer_of_peekSecond hrun]
    exact hsees
  | peekStart =>
    refine ⟨fun hooks options s t a hsees hrun => ?_⟩
    simp only [plug, Procedure.observe, Observed.fst_ofResult] at hrun
    obtain ⟨next, hlook, -⟩ := Parse.startPosition_eq_ok hrun
    obtain ⟨lexer, hlook', rfl⟩ := Parse.lexing_eq_ok hlook
    exact ⟨.nil hlook.takes.2 hlook.lastSpan_eq, hsees.of_look hlook'⟩
  | next | skip => exact .lex trivial fun _ _ => trivial
  | regExp hslash => exact .lex hslash fun _ _ => trivial
  | templateContinuation => exact .lex rfl fun _ _ => trivial
  | declareMember _ hname kind start start' =>
    refine .idle (fun _ _ _ => rfl) fun hooks options s t a hrun => ?_
    simp only [plug, Procedure.observe, Observed.behind, Observed.fst_ofResult] at hrun
    exact Procedure.lexer_of_askName hrun
  | referenceName _ hname =>
    refine .idle (fun _ _ _ => rfl) fun hooks options s t a hrun => ?_
    simp only [plug, Procedure.observe, Observed.behind, Observed.fst_ofResult] at hrun
    exact Procedure.lexer_of_askName hrun
  | afterAtom hatom next =>
    refine .idle (fun _ _ _ => rfl) fun hooks options s t a hrun => ?_
    simp only [plug, Procedure.observe, Observed.behind, Observed.fst_ofResult] at hrun
    exact Parse.lexer_of_hook hrun
  | unaryRule _ ih => exact .bind ih fun e => .bind (.afterUnary e) fun _ => .pure rfl
  | call callee => exact (hcall callee).anywhere
  | bind _ _ ihfirst ihnext => exact .bind ihfirst fun b => ihnext b b (.refl b)
  | loop _ _ ih => exact .anywhere (.rounds (fun a => (ih a a (.refl a)).forget) _ _)
  | within region _ ih => exact .within region ih
  | arrow isAsync _ ih => exact .arrow isAsync ih
  | inClass _ ih =>
    exact ⟨fun hooks options s t a hsees hrun => ih.enclosed Parse.lexer_of_hook hsees hrun⟩
  | inMethod _ _ _ ih =>
    exact ⟨fun hooks options s t a hsees hrun => ih.enclosed (fun h => by cases h; rfl) hsees hrun⟩
  | weaken hknown _ hafter ih =>
    refine ⟨fun hooks options s t a hsees hrun => ?_⟩
    obtain ⟨htrail, hseen⟩ := ih.feedsOn hooks options (hknown.sees hsees) hrun
    exact ⟨htrail, (hafter a).sees hseen⟩

namespace Grammar

/-- What a rule that recurs consumes, the lexer in front of it feeds. -/
theorem feedsOn_routines (options : Options) (bound depth : Nat) (callee : Recurring α) :
    ((routines options bound depth).call callee).FeedsOn .any fun _ => .any := by
  induction depth generalizing α with
  | zero => exact .exhaust
  | succ depth ih =>
    let _ := callee.bare
    exact ((callee.orderly_script false .nothing).feedsOn ih).forget

end Grammar

/-- Behind an orderly script the token has been looked at that is then known. -/
theorem Script.Orderly.sees [Bare α] {place : Setting} {known : Known} {script script' : Script α}
    {after : α → Known} (h : script.Orderly place known script' after) {options : Options}
    {hooks : Hooks σ} {bound depth : Nat} {s t : ParserState σ} {a : α}
    (hsees : known.view.Sees s.lexer)
    (hrun : script.denote (.ofDepth options hooks bound depth) s = .ok a t) :
    (after a).view.Sees t.lexer := by
  rw [Grammar.observe_plug] at hrun
  have hfeeds := h.feedsOn (Grammar.feedsOn_routines options bound depth)
  exact (hfeeds.feedsOn hooks options hsees hrun).2

end EcmaScript
