import EcmaScript.Grammar
import EcmaScript.Proofs.Context
import EcmaScript.Proofs.Exact.Lexer
import EcmaScript.Proofs.Survey.Target

/-!
What rules make of the source.

`S.Does around P p Q` says of a rule `p` that reads code in the surroundings `around`: from a lexer
with `P` it ends with a result and a lexer with `Q`, or it fails at an exact position.

Rules that add no parts `Observes` what is next, `Proceeds` by tokens that may be absent, or
`Advances` by at least one token.
-/

namespace EcmaScript

variable {σ α β γ : Type}

theorem Context.Grants.kept {context context' : Context} {around : List Enclosure}
    (h : context.Grants around) (hkept : context.Kept context') : context'.Grants around := by
  rw [hkept]
  exact ⟨h.allowReturn, h.allowBreak, h.allowContinue, h.allowYield, h.allowAwait, h.allowSuper,
    h.inGenerator, h.inAsync⟩

def Lexer.Faces (test : Token → Prop) (lexer : Lexer) : Prop :=
  ∃ next, lexer.lookahead = some next ∧ test next.token

theorem Lexer.Faces.mono {test test' : Token → Prop} {lexer : Lexer} (h : lexer.Faces test)
    (htest : ∀ token, test token → test' token) : lexer.Faces test' := by
  obtain ⟨next, hnext, htoken⟩ := h
  exact ⟨next, hnext, htest _ htoken⟩

theorem Lexer.Faces.and {test test' : Token → Prop} {lexer : Lexer} (h : lexer.Faces test)
    (h' : lexer.Faces test') : lexer.Faces fun token => test token ∧ test' token := by
  obtain ⟨next, hnext, htoken⟩ := h
  obtain ⟨other, hother, htoken'⟩ := h'
  rw [hnext] at hother
  cases hother
  exact ⟨next, hnext, htoken, htoken'⟩

namespace Survey

variable (S : Survey σ)

/-! ## Rules -/

/-- The parser may read code in the surroundings: its context allows no more than they do and is
strict where they are, its hooks are in a fine state, and its lexer is at exact positions. -/
structure Stands (around : List Node.Step) (s : ParserState σ) : Prop where
  grants : s.context.Grants (Node.enclosures around)
  strict : S.Strict around → s.context.strict = true
  fine : S.fine s.hooks
  tracks : S.positioned → s.lexer.Tracks S.source

/-- How a rule may fail. -/
def Refuses (e : Failure) (_ : ParserState σ) : Prop := S.positioned → e.IsExact S.source

/-- From a lexer with `P`, the rule ends with a result and a lexer with `Q` and has kept the
context, or it fails at an exact position. -/
def Does (around : List Node.Step) (P : Lexer → Prop) (p : Parse σ α) (Q : α → Lexer → Prop) :
    Prop :=
  ∀ s, S.Stands around s → P s.lexer → Ends S.Refuses p s fun a s' =>
    s.context.Kept s'.context ∧ S.Stands around s' ∧ Q a s'.lexer

variable {S} {around : List Node.Step} {P P' : Lexer → Prop} {Q Q' R : α → Lexer → Prop}

namespace Does

theorem mono {p : Parse σ α} (h : S.Does around P p Q)
    (hP : ∀ lexer, (S.positioned → lexer.Tracks S.source) → P' lexer → P lexer)
    (hQ : ∀ a lexer, (S.positioned → lexer.Tracks S.source) → Q a lexer → Q' a lexer) :
    S.Does around P' p Q' := by
  intro s hs hstart
  refine (h s hs (hP _ hs.tracks hstart)).mono ?_ fun _ _ he => he
  rintro a s' ⟨hkept, hs', ha⟩
  exact ⟨hkept, hs', hQ a _ hs'.tracks ha⟩

theorem weaken {p : Parse σ α} (h : S.Does around P p Q)
    (hP : ∀ lexer, (S.positioned → lexer.Tracks S.source) → P' lexer → P lexer) :
    S.Does around P' p Q :=
  h.mono hP fun _ _ _ hQ => hQ

/-- What holds of one lexer at a time. -/
theorem pointwise {p : Parse σ α}
    (h : ∀ lexer, (S.positioned → lexer.Tracks S.source) → P lexer →
      S.Does around (lexer = ·) p Q) : S.Does around P p Q :=
  fun s hs hP => h s.lexer hs.tracks hP s hs rfl

/-- What follows from `P` apart from the lexer. -/
theorem assume {p : Parse σ α} {c : Prop} (hc : ∀ lexer, P lexer → c)
    (h : c → S.Does around P p Q) : S.Does around P p Q :=
  fun s hs hP => h (hc _ hP) s hs hP

theorem bind {p : Parse σ β} {q : β → Parse σ α} {R : β → Lexer → Prop} (hp : S.Does around P p R)
    (hq : ∀ b, S.Does around (R b) (q b) Q) : S.Does around P (p >>= q) Q := by
  intro s hs hP
  refine (hp s hs hP).bind fun b s' ⟨hkept, hs', hR⟩ => ?_
  refine (hq b s' hs' hR).mono ?_ fun _ _ he => he
  rintro a s'' ⟨hkept', hs'', hQ⟩
  exact ⟨hkept.trans hkept', hs'', hQ⟩

theorem pure {a : α} (h : ∀ lexer, P lexer → Q a lexer) : S.Does around P (Pure.pure a) Q :=
  fun _ hs hP => ⟨.refl _, hs, h _ hP⟩

theorem ite {c : Prop} [Decidable c] {p q : Parse σ α} (hp : c → S.Does around P p Q)
    (hq : ¬c → S.Does around P q Q) : S.Does around P (if c then p else q) Q := by
  by_cases h : c
  · rw [if_pos h]
    exact hp h
  · rw [if_neg h]
    exact hq h

/-- Rounds that keep `I` as long as they go on. -/
theorem loop {g : Grammar σ} {round : β → Parse σ (Round β α)} {I : β → Lexer → Prop}
    (hround : ∀ b, S.Does around (I b) (round b) fun r lexer => r.Holds (I · lexer) (Q · lexer))
    {b : β} (hstart : ∀ lexer, P lexer → I b lexer) : S.Does around P (g.loop round b) Q := by
  intro s hs hP
  refine Ends.loop (E := S.Refuses) (I := fun b s' =>
    s.context.Kept s'.context ∧ S.Stands around s' ∧ I b s'.lexer) ?_ ?_ g.bound b s
    ⟨.refl _, hs, hstart _ hP⟩
  · intro b s' ⟨hkept, hs', hI⟩
    refine (hround b s' hs' hI).mono ?_ fun _ _ he => he
    rintro (b' | a) s'' ⟨hkept', hs'', hr⟩
    · exact ⟨hkept.trans hkept', hs'', hr⟩
    · exact ⟨hkept.trans hkept', hs'', hr⟩
  · rintro _ _ _ _ _ ⟨⟩

/-- A step of the lexer: what holds of it in any case, and what it does at exact positions. -/
theorem lexing {action : Lexing α}
    (hfree : ∀ lexer, P lexer → Ends (fun _ _ => True) action lexer Q)
    (htracked : S.positioned → ∀ lexer, lexer.Tracks S.source → P lexer →
      Ends (fun e _ => e.IsExact S.source) action lexer fun a lexer' =>
        lexer'.Tracks S.source ∧ R a lexer') :
    S.Does around P (Parse.lexing action) fun a lexer =>
      Q a lexer ∧ (S.positioned → R a lexer) := by
  intro s hs hP
  unfold Ends Parse.lexing
  cases hresult : action s.lexer with
  | ok a lexer =>
    have hQ := (hfree _ hP).of_ok hresult
    have hboth := fun hpositioned =>
      (htracked hpositioned _ (hs.tracks hpositioned) hP).of_ok hresult
    exact ⟨.refl _, ⟨hs.grants, hs.strict, hs.fine, fun h => (hboth h).1⟩, hQ, fun h => (hboth h).2⟩
  | error e lexer =>
    exact fun hpositioned => (htracked hpositioned _ (hs.tracks hpositioned) hP).of_error hresult

end Does

/-! ## Rules that fail -/

/-- The rule fails. -/
class Halts (S : Survey σ) (p : Parse σ α) : Prop where
  halts : ∀ around, S.Does around (fun _ => True) p fun _ _ => False

theorem Halts.fail (cause : Cause) {position : Position} (h : S.Exact position) :
    Halts S (Parse.fail cause position : Parse σ α) :=
  ⟨fun _ _ _ _ hpositioned => .error (Diagnostic.isExact_located cause (h hpositioned))⟩

theorem Halts.unexpectedAt {position : Position} (h : S.Exact position) :
    Halts S (Parse.unexpectedAt position : Parse σ α) :=
  fail _ h

namespace Does

theorem halt {p : Parse σ α} (h : Halts S p) : S.Does around P p Q :=
  (h.halts around).mono (fun _ _ _ => trivial) fun _ _ _ => False.elim

theorem haltThen {p : Parse σ β} {q : β → Parse σ α} (h : Halts S p) :
    S.Does around P (p >>= q) Q :=
  bind (halt h) (R := fun _ _ => False) fun _ _ _ => False.elim

/-- A condition under which the rule fails. -/
theorem guarded {c : Prop} [Decidable c] {p : Parse σ β} {q : Parse σ α} {r : β → Parse σ α}
    (hp : c → Halts S p) (hq : ¬c → S.Does around P q Q) :
    S.Does around P (if c then p >>= r else q) Q :=
  ite (fun hc => haltThen (hp hc)) hq

/-- A condition without which the rule fails. -/
theorem required {c : Prop} [Decidable c] {p : Parse σ β} {q : Parse σ α} {r : β → Parse σ α}
    (hp : ¬c → Halts S p) (hq : c → S.Does around P q Q) :
    S.Does around P (if c then q else p >>= r) Q :=
  ite hq fun hc => haltThen (hp hc)

/-- A check that passes, or fails at an exact position. -/
theorem ensure {check : Except Diagnostic β} {R : β → Prop} {q : β → Parse σ α}
    (hcheck : S.Checks check R) (hq : ∀ b, R b → S.Does around P (q b) Q) :
    S.Does around P (Parse.ensure check >>= q) Q := by
  cases check with
  | ok b => exact hq b hcheck
  | error d => exact fun _ _ _ hpositioned => .error (hcheck hpositioned)

/-- The context allows no more than the surroundings. -/
theorem context {q : Context → Parse σ α}
    (hq : ∀ context : Context, context.Grants (Node.enclosures around) →
      S.Does around P (q context) Q) : S.Does around P (Parse.context >>= q) Q :=
  fun s hs hP => hq s.context hs.grants s hs hP

/-- The context is strict where the surroundings are. -/
theorem strictContext {q : Context → Parse σ α}
    (hq : ∀ context : Context, (S.Strict around → context.strict = true) →
      S.Does around P (q context) Q) : S.Does around P (Parse.context >>= q) Q :=
  fun s hs hP => hq s.context hs.strict s hs hP

/-- The rules for names are those of the surroundings. -/
theorem nameRules {g : Grammar σ} {q : NameRules → Parse σ α} (hgoal : g.options.goal = S.goal)
    (hq : ∀ rules : NameRules, S.Governs around rules → S.Does around P (q rules) Q) :
    S.Does around P (g.nameRules >>= q) Q :=
  strictContext fun context hstrict => hq ⟨context.strict, g.options.goal⟩ ⟨hgoal, hstrict⟩

end Does

/-! ## Rules that look at what is next -/

variable (S) in
/-- The lexer has at most looked at what is next. -/
structure Same (lexer lexer' : Lexer) : Prop where
  last : lexer'.lastSpan = lexer.lastSpan
  next : S.positioned → lexer'.nextStart = lexer.nextStart
  known : ∀ next, lexer.lookahead = some next → lexer'.lookahead = some next

variable (S) in
/-- The lexer has not gone back. -/
structure Onward (lexer lexer' : Lexer) : Prop where
  last : S.positioned → lexer.lastSpan.stop.offset ≤ lexer'.lastSpan.stop.offset
  next : S.positioned → lexer.nextStart ≤ lexer'.nextStart

variable {lexer lexer' lexer'' : Lexer}

theorem Same.refl (lexer : Lexer) : S.Same lexer lexer := ⟨rfl, fun _ => rfl, fun _ h => h⟩

theorem Same.trans (h : S.Same lexer lexer') (h' : S.Same lexer' lexer'') :
    S.Same lexer lexer'' where
  last := h'.last.trans h.last
  next hpositioned := (h'.next hpositioned).trans (h.next hpositioned)
  known next hnext := h'.known next (h.known next hnext)

theorem Same.onward (h : S.Same lexer lexer') : S.Onward lexer lexer' where
  last _ := Nat.le_of_eq (congrArg (·.stop.offset) h.last.symm)
  next hpositioned := Nat.le_of_eq (h.next hpositioned).symm

theorem Onward.trans (h : S.Onward lexer lexer') (h' : S.Onward lexer' lexer'') :
    S.Onward lexer lexer'' where
  last hpositioned := Nat.le_trans (h.last hpositioned) (h'.last hpositioned)
  next hpositioned := Nat.le_trans (h.next hpositioned) (h'.next hpositioned)

/-- The rule at most looks at what is next. -/
class Observes (S : Survey σ) (p : Parse σ α) : Prop where
  observes : ∀ around lexer, S.Does around (lexer = ·) p fun _ lexer' => S.Same lexer lexer'

/-- The rule does not go back. -/
class Proceeds (S : Survey σ) (p : Parse σ α) : Prop where
  proceeds : ∀ around lexer, S.Does around (lexer = ·) p fun _ lexer' => S.Onward lexer lexer'

/-- The rule consumes a token. -/
class Advances (S : Survey σ) (p : Parse σ α) : Prop where
  advances : ∀ around lexer, S.Does around (lexer = ·) p fun _ lexer' =>
    S.positioned → lexer.nextStart < lexer'.lastSpan.stop.offset

variable (S) in
structure Looked (lexer : Lexer) (next : Lookahead) (lexer' : Lexer) : Prop where
  same : S.Same lexer lexer'
  ahead : lexer'.lookahead = some next
  start : S.Exact next.span.start

/-- A look at the next token. -/
theorem Does.lookahead (f : Lookahead → α) (lexer : Lexer) :
    S.Does around (lexer = ·) (Parse.lexing (do return f (← Lexing.lookahead)))
      fun a lexer' => ∃ next, S.Looked lexer next lexer' ∧ a = f next := by
  refine (lexing (Q := fun a lexer' => ∃ next, lexer'.lookahead = some next ∧ a = f next ∧
      lexer'.lastSpan = lexer.lastSpan ∧ ∀ known, lexer.lookahead = some known → next = known)
    (R := fun _ lexer' => lexer'.nextStart = lexer.nextStart ∧
      ∀ next, lexer'.lookahead = some next → next.IsExact S.source) ?_ ?_).mono
    (fun _ _ h => h) ?_
  · rintro _ rfl
    refine Ends.bind (Q := fun next lexer' => lexer'.lookahead = some next ∧
      lexer'.lastSpan = lexer.lastSpan ∧ ∀ known, lexer.lookahead = some known → next = known)
      ?_ fun next lexer' ⟨hnext, hlast, hknown⟩ => ⟨next, hnext, rfl, hlast, hknown⟩
    refine Ends.bind (Q := fun next lexer' => lexer'.lastSpan = lexer.lastSpan ∧
      ∀ known, lexer.lookahead = some known → next = known) ?_ fun _ _ h => ⟨rfl, h⟩
    cases hnext : lexer.lookahead with
    | some known =>
      unfold Ends
      rw [Lexing.takeLookahead_of_some hnext]
      exact ⟨rfl, fun _ h => Option.some.inj h⟩
    | none =>
      unfold Ends
      rw [Lexing.takeLookahead_of_none hnext, Lexing.scanToken_eq]
      unfold Lexing.scan
      cases Scan.lookahead lexer.rules lexer.cursor with
      | ok next c => exact ⟨rfl, fun _ h => by cases h⟩
      | error e c => trivial
  · rintro hpositioned _ htracks rfl
    refine (Lexing.lookahead_tracks htracks).bind fun next lexer' ⟨h, hnext, hstart, _, _⟩ => ?_
    exact ⟨h, hstart, h.next⟩
  · rintro a lexer' _ ⟨⟨next, hnext, ha, hlast, hknown⟩, hexact⟩
    refine ⟨next, ⟨⟨hlast, fun h => (hexact h).1, ?_⟩, hnext, ?_⟩, ha⟩
    · intro known hsome
      rw [hnext, hknown known hsome]
    · intro hpositioned
      exact ((hexact hpositioned).2 next hnext).start

namespace Does

/-- A look at the token behind the next one, which says whether the next one ends its line. -/
theorem peekSecond (lexer : Lexer) :
    S.Does around (lexer = ·) Parse.peekSecond fun ahead lexer' => S.Same lexer lexer' ∧
      (S.positioned → ∀ known, lexer.lookahead = some known → 0 < known.span.stop.offset →
        ahead.2 = false → OnLine S.source known.span.stop.offset) := by
  refine (lexing (Q := fun _ lexer' => lexer'.toLexerState = lexer.toLexerState)
    (R := fun ahead _ => ∀ known, lexer.lookahead = some known → 0 < known.span.stop.offset →
      ahead.2 = false → OnLine S.source known.span.stop.offset) ?_ ?_).mono (fun _ _ h => h) ?_
  · rintro _ rfl
    change Ends _ (Lexing.next >>= fun _ => Lexing.lookahead >>= fun _ => _) lexer _
    refine Ends.bind (Q := fun _ _ => True) ?_ fun _ _ _ => ?_
    · unfold Ends
      split <;> trivial
    refine Ends.bind (Q := fun _ _ => True) ?_ fun _ _ _ => rfl
    · unfold Ends
      split <;> trivial
  · rintro hpositioned _ htracks rfl
    exact (Lexing.peekSecond_tracks htracks).mono (fun _ _ h => ⟨h.1, h.2.2⟩) fun _ _ h => h
  · rintro _ lexer' _ ⟨hstate, honLine⟩
    refine ⟨⟨congrArg LexerState.lastSpan hstate, ?_, ?_⟩, honLine⟩
    · exact fun _ => congrArg LexerState.nextStart hstate
    intro next hnext
    rw [← hnext]
    exact congrArg LexerState.lookahead hstate

/-- A rule that relates the lexer in front of it with the one behind it, and then the rest. -/
theorem via {p : Parse σ β} {q : β → Parse σ α} {R : Lexer → β → Lexer → Prop}
    {T : β → Lexer → Prop} (hp : ∀ lexer, S.Does around (lexer = ·) p (R lexer))
    (hR : ∀ lexer lexer' b, (S.positioned → lexer.Tracks S.source) →
      (S.positioned → lexer'.Tracks S.source) → P lexer → R lexer b lexer' → T b lexer')
    (hq : ∀ b, S.Does around (T b) (q b) Q) : S.Does around P (p >>= q) Q :=
  pointwise fun lexer htracks hP => bind (hp lexer) fun b =>
    (hq b).weaken fun lexer' htracks' => hR lexer lexer' b htracks htracks' hP

end Does

namespace Observes

open Parse

instance pure (a : α) : Observes S (Pure.pure a : Parse σ α) :=
  ⟨fun _ lexer => Does.pure fun _ h => h ▸ Same.refl lexer⟩

instance bind {p : Parse σ β} {q : β → Parse σ α} [hp : Observes S p] [hq : ∀ b, Observes S (q b)] :
    Observes S (p >>= q) where
  observes around lexer := by
    refine Does.via (hp.observes around) (fun _ _ _ _ _ hl h => hl ▸ h) fun b => ?_
    refine Does.pointwise fun lexer' _ h => ?_
    exact ((hq b).observes around lexer').mono (fun _ _ h => h) fun _ _ _ h' => h.trans h'

/-- Sequencing, for a second rule that needs a choice. -/
theorem step {p : Parse σ β} {q : β → Parse σ α} [Observes S p] (hq : ∀ b, Observes S (q b)) :
    Observes S (p >>= q) :=
  bind

/-- A choice between rules that need choices themselves. -/
theorem either {c : Prop} [Decidable c] {p q : Parse σ α} (hp : Observes S p) (hq : Observes S q) :
    Observes S (if c then p else q) :=
  ⟨fun around lexer => Does.ite (fun _ => hp.observes around lexer)
    fun _ => hq.observes around lexer⟩

/-- Something about the next token. -/
theorem lookahead (f : Lookahead → α) :
    Observes S (Parse.lexing (do return f (← Lexing.lookahead)) : Parse σ α) where
  observes _ lexer := (Does.lookahead f lexer).mono (fun _ _ h => h)
    fun _ _ _ ⟨_, hlooked, _⟩ => hlooked.same

instance peek : Observes S (Parse.peek : Parse σ Token) := lookahead _

instance newlineBefore : Observes S (Parse.newlineBefore : Parse σ Bool) := lookahead _

instance context : Observes S (Parse.context : Parse σ Context) :=
  ⟨fun _ _ _ hs h => ⟨.refl _, hs, h ▸ Same.refl _⟩⟩

instance peekSecond : Observes S (Parse.peekSecond : Parse σ (Token × Bool)) :=
  ⟨fun _ lexer => (Does.peekSecond lexer).mono (fun _ _ h => h) fun _ _ _ h => h.1⟩

instance ofHalts {p : Parse σ α} [hp : Halts S p] : Observes S p := ⟨fun _ _ => Does.halt hp⟩

instance unexpected : Halts S (Parse.unexpected : Parse σ α) where
  halts around := by
    refine Does.pointwise fun lexer _ _ => Does.bind (Does.lookahead _ lexer) fun start => ?_
    refine Does.assume (c := S.Exact start) ?_ fun hstart => Does.halt (.unexpectedAt hstart)
    rintro lexer' ⟨next, hlooked, rfl⟩
    exact hlooked.start

instance nextIs (symbol : Punctuator) : Observes S (Parse.nextIs symbol : Parse σ Bool) := by
  unfold Parse.nextIs
  exact step fun _ => pure _

instance nextIsWord (word : Keyword) : Observes S (Parse.nextIsWord word : Parse σ Bool) := by
  unfold Parse.nextIsWord
  exact step fun _ => pure _

instance nextIsName (name : String) : Observes S (Parse.nextIsName name : Parse σ Bool) := by
  unfold Parse.nextIsName
  exact step fun _ => pure _

instance nextIsIdentifier : Observes S (Parse.nextIsIdentifier : Parse σ Bool) := by
  unfold Parse.nextIsIdentifier
  exact step fun _ => pure _

instance atStatementEnd : Observes S (Parse.atStatementEnd : Parse σ Bool) := by
  unfold Parse.atStatementEnd
  exact step fun _ => either (pure _) (step fun _ => pure _)

instance nextIsPrivateName : Observes S (Grammar.nextIsPrivateName : Parse σ Bool) := by
  unfold Grammar.nextIsPrivateName
  refine step fun token => ?_
  cases token <;> exact pure _

instance nextIsArrow : Observes S (Grammar.nextIsArrow : Parse σ Bool) := by
  unfold Grammar.nextIsArrow
  exact step fun _ => either (step fun _ => pure _) (pure _)

instance letBeginsDeclaration : Observes S (Grammar.letBeginsDeclaration : Parse σ Bool) := by
  unfold Grammar.letBeginsDeclaration
  exact step fun _ => pure _

instance nextIsInOrOf : Observes S (Grammar.nextIsInOrOf : Parse σ Bool) := by
  unfold Grammar.nextIsInOrOf
  exact step fun _ => either (pure _) (nextIsName _)

instance forDeclarationKind :
    Observes S (Grammar.forDeclarationKind : Parse σ (Option VariableKind)) := by
  unfold Grammar.forDeclarationKind
  refine step fun token => ?_
  split
  · exact pure _
  · exact pure _
  · exact step fun _ => pure _
  · exact pure _

end Observes

/-! ## Rules that consume tokens -/

variable (S) in
/-- A token has been consumed. -/
def Advanced (lexer lexer' : Lexer) : Prop :=
  S.positioned → lexer.nextStart < lexer'.lastSpan.stop.offset

theorem Advanced.onward (htracks : S.positioned → lexer.Tracks S.source)
    (htracks' : S.positioned → lexer'.Tracks S.source) (h : S.Advanced lexer lexer') :
    S.Onward lexer lexer' := by
  constructor
  · intro hpositioned
    have hfront := (htracks hpositioned).last_le_nextStart
    have hless := h hpositioned
    omega
  · intro hpositioned
    have hless := h hpositioned
    have hbehind := (htracks' hpositioned).last_le_nextStart
    omega

variable (S) in
/-- The next token has been consumed, which may be the end of the source. -/
structure Took (lexer : Lexer) (token : Token) (lexer' : Lexer) : Prop where
  onward : S.Onward lexer lexer'
  advanced : token ≠ .endOfInput → S.Advanced lexer lexer'
  token_eq : ∀ known, lexer.lookahead = some known → token = known.token
  start : S.positioned → lexer'.lastSpan.start.offset = lexer.nextStart
  start_char : S.positioned → ∀ x, (S.source.drop lexer'.lastSpan.start.offset).head? = some x →
    isLineTerminator x = false
  written : S.positioned → token.IsWritten S.source lexer.nextStart lexer'.lastSpan.stop.offset

theorem Does.next (lexer : Lexer) :
    S.Does around (lexer = ·) Parse.next fun token lexer' => S.Took lexer token lexer' := by
  intro s hs hlexer
  subst hlexer
  have hstart := hs.tracks
  refine (lexing (P := (s.lexer = ·))
    (Q := fun token _ => ∀ known, s.lexer.lookahead = some known → token = known.token)
    (R := fun token lexer' => lexer'.Tracks S.source ∧
      lexer'.lastSpan.start.offset = s.lexer.nextStart ∧
      s.lexer.nextStart ≤ lexer'.lastSpan.stop.offset ∧
      (token ≠ .endOfInput → s.lexer.nextStart < lexer'.lastSpan.stop.offset) ∧
      (∀ x, (S.source.drop lexer'.lastSpan.start.offset).head? = some x →
        isLineTerminator x = false) ∧
      token.IsWritten S.source s.lexer.nextStart lexer'.lastSpan.stop.offset) ?_ ?_ s hs rfl).mono
    ?_ fun _ _ he => he
  · rintro _ rfl
    refine Ends.bind (Q := fun next _ => ∀ known, s.lexer.lookahead = some known → next = known) ?_
      fun next _ h known hknown => congrArg Lookahead.token (h known hknown)
    unfold Ends
    cases hnext : s.lexer.lookahead with
    | some known =>
      rw [Lexing.takeLookahead_of_some hnext]
      exact fun _ h => Option.some.inj h
    | none =>
      split
      · exact fun _ h => by cases h
      · trivial
  · rintro hpositioned _ htracks rfl
    refine (Lexing.next_tracks htracks).mono ?_ fun _ _ he => he
    rintro token lexer' ⟨h, hstart, hle, hless, hchar, hwritten, _⟩
    exact ⟨h, h, hstart, hle, hless, hchar, hwritten⟩
  · rintro token s' ⟨hkept, hs', htoken, hexact⟩
    refine ⟨hkept, hs', ⟨?_, ?_⟩, fun htoken hpositioned => ?_, htoken, ?_, ?_, ?_⟩
    · intro hpositioned
      have hfront := (hstart hpositioned).last_le_nextStart
      have hle := (hexact hpositioned).2.2.1
      omega
    · intro hpositioned
      have hle := (hexact hpositioned).2.2.1
      have hbehind := (hexact hpositioned).1.last_le_nextStart
      omega
    · exact (hexact hpositioned).2.2.2.1 htoken
    · exact fun hpositioned => (hexact hpositioned).2.1
    · exact fun hpositioned => (hexact hpositioned).2.2.2.2.1
    · exact fun hpositioned => (hexact hpositioned).2.2.2.2.2

/-- A token that is consumed if it is the next one. -/
theorem Does.acceptToken {token : Token} (htoken : token ≠ .endOfInput) (lexer : Lexer) :
    S.Does around (lexer = ·) (do
      if ← (do return (← Parse.peek) == token) then
        Parse.skip
        return true
      return false) fun accepted lexer' =>
        if accepted then S.Advanced lexer lexer'
        else S.Same lexer lexer' ∧ lexer'.Faces (· ≠ token) := by
  refine bind (R := fun isNext lexer' => S.Same lexer lexer' ∧
    lexer'.Faces fun next => isNext = (next == token)) ?_
    fun isNext => ite (fun his => ?_) fun hnot => ?_
  · refine bind (lookahead _ lexer) fun next => pure ?_
    rintro lexer' ⟨known, hlooked, rfl⟩
    exact ⟨hlooked.same, known, hlooked.ahead, rfl⟩
  · refine bind (R := fun _ lexer' => S.Advanced lexer lexer') ?_ fun _ => pure fun _ h => h
    refine bind (R := fun _ lexer' => S.Advanced lexer lexer') ?_ fun _ => pure fun _ h => h
    refine pointwise fun between _ ⟨hsame, known, hknown, heq⟩ => ?_
    refine (next between).mono (fun _ _ h => h) fun consumed lexer' _ htook hpositioned => ?_
    have hconsumed : consumed ≠ .endOfInput := by
      rw [his] at heq
      rw [htook.token_eq known hknown, eq_of_beq heq.symm]
      exact htoken
    have hless := htook.advanced hconsumed hpositioned
    rwa [hsame.next hpositioned] at hless
  · refine pure fun lexer' ⟨hsame, known, hknown, heq⟩ => ⟨hsame, known, hknown, ?_⟩
    intro hknown
    rw [hknown, beq_self_eq_true] at heq
    exact hnot heq

/-- The rule consumes a token, or else the next token passes the test. -/
class Accepts (S : Survey σ) (p : Parse σ Bool) (test : outParam (Token → Prop)) : Prop where
  accepts : ∀ around lexer, S.Does around (lexer = ·) p fun accepted lexer' =>
    if accepted then S.Advanced lexer lexer' else S.Same lexer lexer' ∧ lexer'.Faces test

instance Accepts.accept (symbol : Punctuator) :
    Accepts S (Parse.accept symbol) (· ≠ .punctuator symbol) :=
  ⟨fun _ => Does.acceptToken nofun⟩

instance Accepts.acceptWord (word : Keyword) :
    Accepts S (Parse.acceptWord word) (· ≠ .keyword word) :=
  ⟨fun _ => Does.acceptToken nofun⟩

namespace Proceeds

instance ofObserves {p : Parse σ α} [hp : Observes S p] : Proceeds S p where
  proceeds around lexer := (hp.observes around lexer).mono (fun _ _ h => h) fun _ _ _ h => h.onward

theorem pure (a : α) : Proceeds S (Pure.pure a : Parse σ α) := ofObserves

instance bind {p : Parse σ β} {q : β → Parse σ α} [hp : Proceeds S p] [hq : ∀ b, Proceeds S (q b)] :
    Proceeds S (p >>= q) where
  proceeds around lexer := by
    refine Does.via (hp.proceeds around) (fun _ _ _ _ _ hl h => hl ▸ h) fun b => ?_
    refine Does.pointwise fun lexer' _ h => ?_
    exact ((hq b).proceeds around lexer').mono (fun _ _ h => h) fun _ _ _ h' => h.trans h'

/-- Sequencing, for a second rule that needs a choice. -/
theorem step {p : Parse σ β} {q : β → Parse σ α} [Proceeds S p] (hq : ∀ b, Proceeds S (q b)) :
    Proceeds S (p >>= q) :=
  bind

/-- A choice between rules that need choices themselves. -/
theorem either {c : Prop} [Decidable c] {p q : Parse σ α} (hp : Proceeds S p) (hq : Proceeds S q) :
    Proceeds S (if c then p else q) :=
  ⟨fun around lexer => Does.ite (fun _ => hp.proceeds around lexer)
    fun _ => hq.proceeds around lexer⟩

instance next : Proceeds S (Parse.next : Parse σ Token) where
  proceeds _ lexer := (Does.next lexer).mono (fun _ _ h => h) fun _ _ _ h => h.onward

instance skip : Proceeds S (Parse.skip : Parse σ Unit) := by
  unfold Parse.skip
  exact step fun _ => pure _

instance ofAccepts {p : Parse σ Bool} {test : Token → Prop} [hp : Accepts S p test] :
    Proceeds S p where
  proceeds around lexer := by
    refine Does.pointwise fun l htracks hl => ?_
    subst hl
    refine (hp.accepts around lexer).mono (fun _ _ h => h) fun accepted lexer' htracks' h => ?_
    cases accepted with
    | true => exact Advanced.onward htracks htracks' h
    | false => exact h.1.onward

instance endStatement : Proceeds S (Parse.endStatement : Parse σ Unit) := by
  unfold Parse.endStatement
  exact step fun _ => either (pure _) (step fun _ => either (pure _) ofObserves)

instance staticRole : Proceeds S (Grammar.staticRole : Parse σ Grammar.StaticRole) := by
  unfold Grammar.staticRole
  refine step fun isStatic => either (step fun _ => either (step fun _ => pure _) ?_) (pure _)
  exact either (pure _) (step fun _ => pure _)

instance asyncModifier : Proceeds S (Grammar.asyncModifier : Parse σ Bool) := by
  unfold Grammar.asyncModifier
  refine step fun isAsync => either (step fun _ => ?_) (pure _)
  exact either (pure _) (step fun _ => pure _)

instance accessorModifier :
    Proceeds S (Grammar.accessorModifier : Parse σ (Option MethodKind)) := by
  simp only [Script.accessorModifier_eq]
  refine step fun token => ?_
  cases Script.accessorKind? token with
  | none => exact pure _
  | some kind => exact step fun _ => either (pure _) (step fun _ => pure _)

instance modifiers : Proceeds S (Grammar.modifiers : Parse σ Grammar.Modifiers) := by
  unfold Grammar.modifiers
  refine step fun isAsync => step fun isGenerator => either ?_ ?_
  · exact step fun _ => pure _
  · exact step fun _ => pure _

end Proceeds

namespace Advances

/-- A token that must be the next one. -/
theorem ofAccepts {p : Parse σ Bool} {test : Token → Prop} [hp : Accepts S p test] :
    Advances S (do unless ← p do Parse.unexpected) where
  advances around lexer := by
    refine Does.bind (hp.accepts around lexer) fun accepted => Does.ite (fun h => ?_) fun _ => ?_
    · subst h
      exact Does.pure fun _ h => h
    · exact Does.halt inferInstance

instance expect (symbol : Punctuator) : Advances S (Parse.expect symbol : Parse σ Unit) :=
  ofAccepts

instance expectWord (word : Keyword) : Advances S (Parse.expectWord word : Parse σ Unit) :=
  ofAccepts

end Advances

end Survey

end EcmaScript
