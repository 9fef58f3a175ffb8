import EcmaScript.Proofs.Consumed
import EcmaScript.Proofs.Progress.Lexer

/-!
Rules that consume a token.

What a rule does to the next token is said by lower bounds on where it starts. In front of a token
at `n` or behind it, a rule that `Consumes` ends in front of one behind `n`, and a round of a loop
`Turns` if it does so whenever it goes on. An orderly script tells where it has consumed a token, so
it ends as far behind `n` as it tells, if the rules that it calls consume tokens.

All of this is relative to a reading: the source, and whether the bounds on recursion and on the
rounds of loops may be too low for it. Only in that case may a rule fail for want of steps; in
every case it may fail otherwise.
-/

namespace EcmaScript

variable {σ α β : Type}

/-- A source that is read, and whether the bounds on recursion and rounds may be too low for it. -/
structure Reading where
  source : List Char
  limited : Prop

namespace Reading

/-- The next token starts at `n` or behind it. -/
def From (R : Reading) (n : Nat) (s : ParserState σ) : Prop := s.lexer.From R.source n

/-- How a rule may fail: somewhere in the source, and for want of steps only if the bounds may be
too low. -/
def Fails (R : Reading) (e : Failure) (s : ParserState σ) : Prop :=
  s.lexer.InSource R.source ∧ (e = .exhausted → R.limited)

variable {R : Reading} {n m : Nat} {s : ParserState σ}

theorem Fails.of_ne {e : Failure} (hsource : s.lexer.InSource R.source) (he : e ≠ .exhausted) :
    R.Fails e s :=
  ⟨hsource, fun h => absurd h he⟩

end Reading

def Consumes (R : Reading) (n : Nat) (p : Parse σ α) : Prop :=
  ∀ s, R.From n s → Ends R.Fails p s fun _ t => R.From (n + 1) t

/-- From `n` on, the round consumes a token whenever it goes on. -/
def Turns (R : Reading) (n : Nat) (p : Parse σ (Round α β)) : Prop :=
  ∀ s, R.From n s → Ends R.Fails p s fun r t =>
    r.Holds (fun _ => R.From (n + 1) t) fun _ => R.From n t

/-- The bounds are high enough for the source, and from `n` on the rules that recur consume
tokens. -/
structure Ready (R : Reading) (n : Nat) (g : Grammar σ) : Prop where
  bound : R.limited ∨ R.source.length < g.bound
  call : ∀ {α : Type} (callee : Recurring α) m, n ≤ m → Consumes R m (callee.rule g)

theorem Ready.mono {R : Reading} {n m : Nat} {g : Grammar σ} (h : Ready R n g) (hle : n ≤ m) :
    Ready R m g :=
  ⟨h.bound, fun callee k hk => h.call callee k (Nat.le_trans hle hk)⟩

/-! ## Where an orderly script stands -/

/-- Where the next token starts if it started at `n` or behind it in front of the script. -/
def Known.level (known : Known) (n : Nat) : Nat := if known.moved then n + 1 else n

namespace Known

variable (known : Known) (n : Nat)

theorem le_level : n ≤ known.level n := by
  unfold level
  split <;> omega

theorem level_le_succ : known.level n ≤ n + 1 := by
  unfold level
  split <;> omega

theorem level_of_moved {known : Known} (h : known.moved = true) : known.level n = n + 1 := if_pos h

theorem Implies.level_le {known known' : Known} (h : known.Implies known') (n : Nat) :
    known'.level n ≤ known.level n := by
  cases hmoved : known'.moved with
  | true => rw [level_of_moved n hmoved, level_of_moved n (h.moved hmoved)]
  | false => simpa [level, hmoved] using known.le_level n

end Known

namespace Reading

/-- What is known is so, with the next token at `n` or behind it in front of the script. -/
structure Stands (R : Reading) (n : Nat) (known : Known) (s : ParserState σ) : Prop where
  ahead : R.From (known.level n) s
  sees : known.view.Sees s.lexer

namespace Stands

variable {R : Reading} {n : Nat} {known : Known} {s t : ParserState σ}

theorem inSource (h : R.Stands n known s) : s.lexer.InSource R.source := h.ahead.inSource

theorem of_lexer_eq (h : R.Stands n known s) (heq : t.lexer = s.lexer) : R.Stands n known t := by
  obtain ⟨hahead, hsees⟩ := h
  unfold From at hahead
  rw [← heq] at hahead hsees
  exact ⟨hahead, hsees⟩

theorem mono {known' : Known} (h : R.Stands n known s) (hknown : known.Implies known') :
    R.Stands n known' s :=
  ⟨⟨h.inSource, Nat.le_trans (hknown.level_le n) h.ahead.le_nextStart⟩, hknown.sees h.sees⟩

/-- Behind a step of the lexer that consumes the token. -/
theorem past {token : Token} {lexer : Lexer} (known : Known) (h : lexer.From R.source (known.level n))
    (htoken : token ≠ .endOfInput → lexer.Past R.source (known.level n)) :
    lexer.From R.source ((known.past token).level n) := by
  cases hend : token.isEnd with
  | true => simpa [Known.level, hend] using h
  | false =>
    have hpast := htoken (by rintro rfl; cases hend)
    refine ⟨h.inSource, Nat.le_trans (Known.level_le_succ _ n) ?_⟩
    exact Nat.le_trans (Nat.succ_le_succ (known.le_level n)) hpast.toFrom.le_nextStart

end Stands

end Reading

/-! ## Steps -/

/-- The rule leaves the lexer as it is, and has no steps to run out of. -/
def Parse.Still (p : Parse σ α) : Prop :=
  ∀ s, Ends (fun e t => t.lexer = s.lexer ∧ e ≠ .exhausted) p s fun _ t => t.lexer = s.lexer

namespace Parse.Still

theorem hook (action : Hook σ α) : (Parse.hook action : Parse σ α).Still := by
  intro s
  unfold Ends Parse.hook
  cases action s.hooks with
  | ok a hooks => rfl
  | error d hooks => exact ⟨rfl, nofun⟩

theorem update (f : σ → α × σ) : (Parse.update f : Parse σ α).Still := fun _ => rfl

theorem leaving (leave : Context → Option Context) : (Parse.leaving leave : Parse σ Unit).Still := by
  intro s
  unfold Ends Parse.leaving
  cases leave s.context with
  | some context => rfl
  | none => exact ⟨rfl, nofun⟩

theorem askName (question : Hook σ Bool) (name : PrivateName) :
    (Procedure.askName question name).Still := by
  refine fun s => (hook question s).bind fun accepted t ht => ?_
  cases accepted with
  | true => exact ht
  | false => exact ⟨ht, nofun⟩

variable {R : Reading} {n : Nat} {known : Known} {s : ParserState σ}

theorem ends {p : Parse σ α} (hp : p.Still) (h : R.Stands n known s) :
    Ends R.Fails p s fun _ t => R.Stands n known t :=
  (hp s).mono (fun _ _ ht => h.of_lexer_eq ht) fun _ _ ⟨ht, he⟩ => .of_ne (ht ▸ h.inSource) he

/-- A closing step that leaves the lexer as it is. -/
theorem ends_closing {close : Parse σ Unit} (hclose : close.Still) {p : Parse σ α}
    {after : α → Known} (h : Ends R.Fails p s fun a t => R.Stands n (after a) t) :
    Ends R.Fails (Parse.closing close p) s fun a t => R.Stands n (after a) t := by
  refine h.closing (fun _ _ ht => hclose.ends ht) fun d t ht => ?_
  refine (hclose t).mono (fun _ _ hsame => .of_ne ?_ nofun) fun e _ ⟨hsame, he⟩ => .of_ne ?_ ?_
  · rw [hsame]
    exact ht.1
  · rw [hsame]
    exact ht.1
  · cases e with
    | exhausted => exact absurd rfl he
    | _ => nofun

end Parse.Still

namespace Reading.Stands

variable {R : Reading} {n : Nat} {known : Known} {s : ParserState σ}

/-- A step of the lexer at its place in a rule. -/
theorem ends_lexing {action : Lexing α} {Q : α → Lexer → Prop}
    (h : Ends (Lexing.Refused R.source) action s.lexer Q) :
    Ends R.Fails (Parse.lexing action : Parse σ α) s fun a t => Q a t.lexer := by
  unfold Ends Parse.lexing
  cases hresult : action s.lexer with
  | ok a lexer => exact h.of_ok hresult
  | error e lexer =>
    obtain ⟨hsource, d, rfl⟩ := h.of_error hresult
    exact .of_ne hsource nofun

/-- Something about the next token. -/
theorem ends_look (h : R.Stands n known s) (f : Lookahead → α) :
    Ends R.Fails (Parse.lexing (do return f (← Lexing.lookahead)) : Parse σ α) s fun a t =>
      R.Stands n known t ∧ ∃ next, t.lexer.lookahead = some next ∧ f next = a := by
  have hlook : Ends (Lexing.Refused R.source) (do return f (← Lexing.lookahead)) s.lexer
      fun a lexer => lexer.From R.source (known.level n) ∧ known.view.Sees lexer ∧
        ∃ next, lexer.lookahead = some next ∧ f next = a := by
    refine (Lexing.lookahead_ends h.inSource).andThen fun next lexer hrun hpost => ?_
    obtain ⟨hsource, hnext, hstart, -⟩ := hpost
    exact ⟨⟨hsource, hstart ▸ h.ahead.le_nextStart⟩, h.sees.of_look hrun, next, hnext, rfl⟩
  exact (ends_lexing hlook).mono (fun _ _ ht => ⟨⟨ht.1, ht.2.1⟩, ht.2.2⟩) fun _ _ ht => ht

/-- The first token in the body of an arrow function is looked at. -/
theorem ends_nextIs (h : R.Stands n known s) (isAsync : Bool) :
    Ends R.Fails (Parse.nextIs .lBrace) { s with context := Grammar.enterArrow isAsync s.context }
      fun _ t => R.Stands n known.blind t := by
  have hinside : R.Stands n known { s with context := Grammar.enterArrow isAsync s.context } :=
    h.of_lexer_eq rfl
  exact Ends.bind (hinside.ends_look Lookahead.token) fun _ _ ht => ⟨ht.1.ahead, trivial⟩

/-- Looking two tokens ahead leaves the lexer as it is. -/
theorem ends_peekSecond (h : R.Stands n known s) :
    Ends R.Fails (Parse.peekSecond : Parse σ (Token × Bool)) s fun _ t => R.Stands n known t := by
  have hpeek : Ends (Lexing.Refused R.source) Lexing.peekSecond s.lexer
      fun _ lexer => lexer = s.lexer := by
    unfold Ends
    cases hrun : Lexing.peekSecond s.lexer with
    | ok read lexer => exact Lexing.lexer_of_peekSecond hrun
    | error e lexer => exact (Lexing.peekSecond_ends h.inSource).of_error hrun
  exact (ends_lexing hpeek).mono (fun _ _ ht => h.of_lexer_eq ht) fun _ _ ht => ht

theorem ends_next (h : R.Stands n known s) :
    Ends R.Fails (Parse.next : Parse σ Token) s fun token t => R.Stands n (known.past token) t := by
  refine (ends_lexing (Lexing.next_from h.ahead)).mono (fun token t ht => ?_) fun _ _ ht => ht
  exact ⟨past known ht.1 ht.2, trivial⟩

/-- A token that is known is consumed, and then, if it is not the end of the source, its text is read
again in another way. -/
theorem ends_facing {token : Token} (h : R.Stands n (known.facing token) s)
    (htoken : token ≠ .endOfInput) :
    Ends (Lexing.Refused R.source) Lexing.next s.lexer fun _ lexer =>
      lexer.Past R.source (known.level n) := by
  obtain ⟨hahead, next, hnext, rfl⟩ := h
  exact Lexing.next_facing ⟨hahead, next, hnext, htoken⟩

theorem ends_skip {token : Token} (h : R.Stands n (known.facing token) s) :
    Ends R.Fails (Parse.next : Parse σ Token) s fun _ t => R.Stands n (known.past token) t := by
  by_cases htoken : token = .endOfInput
  · rw [htoken]
    refine (ends_lexing (Lexing.next_from h.ahead)).mono (fun _ t ht => ?_) fun _ _ ht => ht
    exact ⟨ht.1, trivial⟩
  · refine (ends_lexing (h.ends_facing htoken)).mono (fun _ t ht => ?_) fun _ _ ht => ht
    refine ⟨past known ⟨ht.inSource, ?_⟩ fun _ => ht, trivial⟩
    exact Nat.le_of_succ_le ht.toFrom.le_nextStart

/-- A token is consumed and its text is read again in another way. -/
theorem ends_again {token : Token} {reading : Lexing Token} {known' : Token → Known}
    (h : R.Stands n (known.facing token) s) (htoken : token ≠ .endOfInput)
    (hreading : ∀ lexer : Lexer, lexer.Past R.source (known.level n) →
      Ends (Lexing.Refused R.source) reading lexer fun _ lexer' =>
        lexer'.From R.source (known.level n + 1))
    (hview : ∀ token, (known' token).view = .any) :
    Ends R.Fails (Parse.lexing (do let _ ← Lexing.next; reading) : Parse σ Token) s
      fun token t => R.Stands n (known' token) t := by
  have hread := (h.ends_facing htoken).bind fun _ lexer hpast => hreading lexer hpast
  refine (ends_lexing hread).mono (fun token t ht => ⟨⟨ht.inSource, ?_⟩, ?_⟩) fun _ _ ht => ht
  · have hle := known.le_level n
    have hle' := (known' token).level_le_succ n
    have hstart := ht.le_nextStart
    omega
  · rw [hview]
    trivial

end Reading.Stands

/-! ## Orderly scripts -/

section

variable {R : Reading} {n : Nat} {g : Grammar σ} {place : Setting} {known : Known}

/-- A rule that may be called consumes a token. -/
theorem Setting.Allows.consumes {callee : Recurring α} (h : place.Allows known callee)
    (hready : Ready R (n + 1) g) (hbegun : place.begun = true → Ready R n g)
    (hleads : place.leads = true → Consumes R n g.assignment) :
    Consumes R (known.level n) (callee.rule g) := by
  have hbehind (hmoved : place.IsReady known) : Consumes R (known.level n) (callee.rule g) := by
    rcases Bool.or_eq_true_iff.1 hmoved with hmoved | hmoved
    · exact hready.call callee _ (by rw [Known.level_of_moved n hmoved])
    · exact (hbegun hmoved).call callee _ (known.le_level n)
  cases callee with
  | statement => exact hbehind h.2
  | assignment =>
    cases hmoved : known.moved with
    | true => exact hbehind (by simp [IsReady, hmoved])
    | false =>
      refine h.elim hbehind fun hlead => ?_
      rw [Known.level, hmoved]
      exact hleads hlead
  | _ => exact hbehind h

/-- A loop ends as far as its rounds go if those that go on consume tokens. -/
theorem Reading.ends_loop {round : α → Parse σ (Round α β)}
    (hbound : R.limited ∨ R.source.length < g.bound)
    (hround : ∀ m, n ≤ m → ∀ a, Turns R m (round a)) (start : α) {s : ParserState σ}
    (h : R.From n s) : Ends R.Fails (g.loop round start) s fun _ t => R.From n t := by
  refine Ends.rounds (I := fun _ => R.From n)
    (m := fun t => R.source.length - t.lexer.nextStart) (fun a t ht => ?_) g.bound start s h ?_
  · -- The round begins where the next token starts, not only at `n`.
    have hle := ht.le_nextStart
    have hstart : R.From t.lexer.nextStart t := ⟨ht.inSource, Nat.le_refl _⟩
    refine (hround _ hle a t hstart).mono (fun r t' hr => ?_) fun _ _ h => h
    cases r with
    | again a' =>
      have hend := hr.inSource.nextStart_le
      have hless := hr.le_nextStart
      exact ⟨⟨hr.inSource, by omega⟩, by omega⟩
    | stop b => exact ⟨hr.inSource, Nat.le_trans hle hr.le_nextStart⟩
  · refine hbound.symm.imp (fun hbound => ?_) fun hlimited _ t ht => ?_
    · omega
    · exact ⟨ht.inSource, fun _ => hlimited⟩

/-- An orderly script ends as far behind `n` as it tells, if the rules that recur consume tokens
wherever it may call them. -/
theorem Script.Orderly.advances [Bare α] {script script' : Script α} {after : α → Known}
    (h : script.Orderly place known script' after) {s : ParserState σ}
    (hready : Ready R (n + 1) g) (hbegun : place.begun = true → Ready R n g)
    (hleads : place.leads = true → Consumes R n g.assignment) (hs : R.Stands n known s) :
    Ends R.Fails (script.denote g) s fun a t => R.Stands n (after a) t := by
  induction h generalizing n s with
  | pure => exact hs
  | raise d => exact .of_ne hs.inSource fun h => by cases h
  | options | context => exact hs
  | beStrict => exact hs.of_lexer_eq rfl
  | peek =>
    rw [denote_lex]
    exact (hs.ends_look Lookahead.token).mono (fun _ _ ht => ⟨ht.1.ahead, ht.2⟩) fun _ _ ht => ht
  | @askAgain _ _ _ _ after token f hafter =>
    have hpeek : (Parse.lexing LexStep.peek.run : Parse σ Token) s = .ok token s := hs.sees.peek
    have hrun : (Script.bind (leaf (.lex .peek)) fun seen => leaf (.pure (f seen))).denote g s =
        .ok (f token) s := by
      rw [denote, denote_lex, Parse.bind_of_ok hpeek]
      rfl
    unfold Ends
    rw [hrun]
    change R.Stands n (after (f token)) s
    rwa [hafter]
  | newlineBefore =>
    rw [denote_lex]
    exact (hs.ends_look Lookahead.newlineBefore).mono (fun _ _ ht => ht.1) fun _ _ ht => ht
  | peekSecond =>
    rw [denote_lex]
    exact hs.ends_peekSecond
  | peekStart =>
    rw [denote_lex]
    exact (hs.ends_look fun next => next.span.start).mono (fun _ _ ht => ht.1) fun _ _ ht => ht
  | lastEnd => exact hs
  | next =>
    rw [denote_lex]
    exact hs.ends_next.mono (fun _ _ ht => ⟨ht.ahead, trivial⟩) fun _ _ ht => ht
  | skip token =>
    rw [denote_lex]
    exact hs.ends_skip
  | regExp hslash =>
    rw [denote_lex]
    exact hs.ends_again (by rintro rfl; cases hslash) (fun _ => Lexing.rescanRegExp_past)
      fun _ => rfl
  | templateContinuation =>
    rw [denote_lex]
    exact hs.ends_again (fun h => by cases h) (fun _ => Lexing.readTemplateContinuation_past)
      fun _ => rfl
  | @declareMember _ _ name _ _ _ kind start =>
    have hstill : ((leaf (.declareMember name kind start)).denote g).Still :=
      denote_declarePrivate g name kind start ▸ .askName _ _
    exact hstill.ends hs
  | @referenceName _ _ name =>
    have hstill : ((leaf (.referenceName name)).denote g).Still :=
      denote_referenceName g name ▸ .askName _ _
    exact hstill.ends hs
  | @afterAtom _ _ atom _ _ next =>
    have hstill : ((leaf (.afterAtom atom next)).denote g).Still :=
      denote_afterAtom g atom next ▸ .hook _
    exact hstill.ends hs
  | call callee hallowed =>
    refine (hallowed.consumes hready hbegun hleads s hs.ahead).mono (fun _ t ht => ?_)
      fun _ _ ht => ht
    refine ⟨⟨ht.inSource, Nat.le_trans ?_ ht.le_nextStart⟩, trivial⟩
    exact Nat.succ_le_succ (Known.le_level _ n)
  | unaryRule _ ih =>
    rw [denote_unaryRule, Grammar.unaryRule]
    rw [denote_unaryBody] at ih
    exact (ih hready hbegun hleads hs).bind fun e t ht =>
      ((Parse.Still.hook _).ends ht).bind fun _ _ ht' => ht'
  | bind _ _ ihfirst ihnext =>
    exact (ihfirst hready hbegun hleads hs).bind fun b t ht =>
      ihnext b b (.refl b) hready hbegun hleads ht
  | @loop place known _ _ _ _ _ round _ start _ _ _ ih =>
    have hturns (m : Nat) (hm : known.level n ≤ m) (a) : Turns R m ((round a).denote g) := by
      intro t ht
      have hle : n ≤ m := Nat.le_trans (known.le_level n) hm
      have hbehind : (known.moved || place.begun) = true → Ready R m g := by
        intro h
        rcases Bool.or_eq_true_iff.1 h with hmoved | hmoved
        · exact hready.mono (known.level_of_moved n hmoved ▸ hm)
        · exact (hbegun hmoved).mono hle
      refine (ih a a (.refl a) (hready.mono (Nat.succ_le_succ hle)) hbehind (fun h => by cases h)
        ⟨ht, trivial⟩).mono (fun r t' hr => ?_) fun _ _ h => h
      cases r with
      | again a' => exact hr.ahead
      | stop b => exact hr.ahead
    exact (Reading.ends_loop hready.bound hturns start hs.ahead).mono
      (fun _ _ ht => ⟨ht, trivial⟩) fun _ _ ht => ht
  | within region _ ih =>
    exact (Parse.Still.leaving _).ends_closing (ih hready hbegun hleads (hs.of_lexer_eq rfl))
  | arrow isAsync _ ih =>
    have hpeek := hs.ends_nextIs isAsync
    exact hpeek.bind fun isBlock t ht =>
      (Parse.Still.leaving _).ends_closing (ih isBlock hready hbegun hleads ht)
  | inClass _ ih =>
    rw [denote_inClass]
    exact (Parse.Still.hook _).ends_closing (ih hready hbegun hleads (hs.of_lexer_eq rfl))
  | @inMethod _ _ _ _ _ key _ _ _ _ _ _ ih =>
    have hinside : R.Stands n _ { s with hooks := (g.hooks.enterMethod key s.hooks).2 } :=
      hs.of_lexer_eq rfl
    rw [denote_inMethod]
    exact (Parse.Still.update fun t => ((), g.hooks.exitMethod _ t)).ends_closing
      (ih hready hbegun hleads hinside)
  | weaken hknown _ hafter ih =>
    exact (ih hready hbegun hleads (hs.mono hknown)).mono (fun a t ht => ht.mono (hafter a))
      fun _ _ ht => ht

/-- A rule that recurs consumes a token if the rules that recur do so behind its first token; a
statement may begin with an expression. -/
theorem Recurring.consumes_unfold (callee : Recurring α) (hready : Ready R (n + 1) g)
    (hleads : (callee.entry false).leads = true → Consumes R n g.assignment) :
    Consumes R n (callee.unfold g) := by
  let _ := callee.bare
  intro s hs
  rw [← callee.denote_script]
  have hbegun : (callee.entry false).begun = true → Ready R n g := by
    intro h
    cases callee <;> cases h
  exact ((callee.orderly_script false .nothing).advances hready hbegun hleads
    ⟨hs, trivial⟩).mono (fun _ _ ht => ht.ahead) fun _ _ ht => ht

/-- An orderly round consumes a token whenever it goes on. -/
theorem Script.Orderly.turns [Bare α] [Bare β] {script : Script (Round α β)} {stop : Nesting}
    (known : Known) (h : script.Orderly programPlace known.inRound script (known.round stop))
    (hready : Ready R n g) : Turns R n (script.denote g) := by
  intro s hs
  refine (h.advances (hready.mono (Nat.le_succ n)) (fun _ => hready) nofun
    ⟨hs, trivial⟩).mono (fun r t hr => ?_) fun _ _ ht => ht
  cases r with
  | again a => exact hr.ahead
  | stop b => exact hr.ahead

/-- A program ends in the source that it begins in. -/
theorem Grammar.ends_program (hready : Ready R 0 g) {s : ParserState σ}
    (hs : s.lexer.InSource R.source) :
    Ends R.Fails g.program s fun _ t => t.lexer.InSource R.source := by
  rw [Script.program_eq_denote]
  have hreset : R.Stands 0 .nothing { s with hooks := g.hooks.reset s.hooks } :=
    ⟨⟨hs, Nat.zero_le _⟩, trivial⟩
  exact ((Script.orderly_program .nothing).advances (hready.mono (Nat.zero_le 1)) (fun _ => hready)
    nofun hreset).mono (fun _ _ ht => ht.inSource) fun _ _ ht => ht

end

end EcmaScript
