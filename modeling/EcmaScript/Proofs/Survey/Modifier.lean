import EcmaScript.Proofs.Survey.Function

/-!
Words and punctuators that are read from a place on, surveyed.

The words that modify a class element or a property are consumed one by one from the start of the
element on. `Worded` says which ones have been consumed; when the key is looked at, they stand in
front of it with nothing but trivia in between. So it is with the parenthesis in front of arguments,
and with the word `async` in front of a function.
-/

namespace EcmaScript

namespace Survey

open Parse

variable {σ α β : Type} {S : Survey σ} {g : Grammar σ} {around : List Node.Step}

variable (S) in
/-- The words have been consumed from `start` on, and nothing else. -/
def Worded (start : Nat) (words : List String) (lexer : Lexer) : Prop :=
  S.positioned → (words = [] ∧ lexer.nextStart = start) ∨
    ∃ front word offset, words = front ++ [word] ∧ Words S.source start front offset ∧
      StandsAt S.source offset word ∧ offset < lexer.lastSpan.stop.offset ∧
      lexer.lastSpan.stop.offset = offset + word.toList.length

namespace Worded

variable {start : Nat} {words : List String} {lexer lexer' : Lexer}

theorem nil (h : S.positioned → lexer.nextStart = start) : S.Worded start [] lexer :=
  fun hpositioned => .inl ⟨rfl, h hpositioned⟩

theorem nextStart_eq (h : S.Worded start [] lexer) (hpositioned : S.positioned) :
    lexer.nextStart = start := by
  obtain ⟨-, hstart⟩ | ⟨front, word, _, heq, -⟩ := h hpositioned
  · exact hstart
  · exact absurd heq (by simp)

/-- One word has been consumed, which stands at the start. -/
theorem single {word : String} (h : S.Worded start [word] lexer) (hpositioned : S.positioned) :
    StandsAt S.source start word ∧ lexer.lastSpan.stop.offset = start + word.toList.length := by
  obtain ⟨hnil, -⟩ | ⟨front, last, offset, heq, hfront, hword, -, hstop⟩ := h hpositioned
  · cases hnil
  · have hwhole : [] ++ [word] = front ++ [last] := heq
    obtain ⟨rfl, hlast⟩ := List.append_inj' hwhole rfl
    cases hlast
    obtain rfl := hfront.eq_of_nil
    exact ⟨hword, hstop⟩

instance stable : Stable S (S.Worded start words) where
  stable hsame h hpositioned := by
    rw [hsame.next hpositioned, hsame.last]
    exact h hpositioned

/-- The words stand in front of the next token once that is known. -/
theorem inFront (h : S.Worded start words lexer) (hpositioned : S.positioned)
    (htracks : lexer.Tracks S.source) {next : Lookahead} (hnext : lexer.lookahead = some next) :
    Words S.source start words lexer.nextStart := by
  obtain ⟨rfl, hstart⟩ | ⟨front, word, offset, rfl, hfront, hword, hless, hstop⟩ := h hpositioned
  · rw [hstart]
    exact .nil
  · have hgap := (htracks.follows next hnext (by omega)).gap
    rw [hstop, ← Lexer.nextStart_of_some hnext] at hgap
    exact hfront.snoc hword hgap

end Worded

namespace Does

variable {P P' : Lexer → Prop} {Q Q' : α → Lexer → Prop} {start : Nat} {words : List String}

/-- Two things that a rule does. -/
theorem and {p : Parse σ α} (h : S.Does around P p Q) (h' : S.Does around P' p Q') :
    S.Does around (Also P P') p fun a lexer => Q a lexer ∧ Q' a lexer := by
  intro s hs hP
  refine (Ends.and (h s hs hP.1) (h' s hs hP.2)).mono ?_ fun _ _ he => he
  rintro a s' ⟨⟨hkept, hs', hQ⟩, -, -, hQ'⟩
  exact ⟨hkept, hs', hQ, hQ'⟩

/-- A word that is known to be next is consumed. -/
theorem skipWord {test : Token → Prop} (word : String) {q : Unit → Parse σ α}
    (htest : ∀ token, test token → token.text? = some word) (hsome : 0 < word.toList.length)
    (hq : S.Does around (S.Worded start (words ++ [word])) (q ()) Q) :
    S.Does around (Also (S.Worded start words) (Lexer.Faces test)) (Parse.skip >>= q) Q := by
  refine bind (R := fun _ => S.Worded start (words ++ [word])) ?_ fun _ => hq
  refine via (T := fun _ => S.Worded start (words ++ [word])) next ?_ fun _ => pure fun _ h => h
  intro lexer lexer' consumed htracks _ ⟨h, next, hnext, htoken⟩ htook hpositioned
  refine .inr ?_
  have hfront := h.inFront hpositioned (htracks hpositioned) hnext
  have htext : consumed.text? = some word := by
    rw [htook.token_eq next hnext]
    exact htest _ htoken
  obtain ⟨hstands, hstop⟩ := (htook.written hpositioned).text word htext
  exact ⟨words, word, _, rfl, hfront, hstands, by omega, hstop⟩

/-- What is kept from rule to rule, and what a rule does besides. -/
theorem besides {R : Lexer → Prop} [hR : Steady S R] {p : Parse σ α} [hp : Proceeds S p]
    (h : S.Does around P p Q) :
    S.Does around (Also R P) p fun a => Also R (Q a) := by
  refine (Does.and (P := R) (Q := fun _ => R) ?_ h)
  exact pointwise fun lexer _ hR' => (hp.proceeds around lexer).mono (fun _ _ hl => hl)
    fun _ _ _ honward => hR.steady honward hR'

/-- The words stand in front of what is read next. -/
theorem hereWords {q : Position → Parse σ α}
    (hq : ∀ position, S.Exact position →
      (S.positioned → Words S.source start words position.offset) →
      S.Does around (fun _ => True) (q position) Q) :
    S.Does around (S.Worded start words) (Parse.startPosition >>= q) Q := by
  refine via (T := fun position _ => S.Exact position ∧
    (S.positioned → Words S.source start words position.offset)) (lookahead _) ?_ fun position => ?_
  · rintro lexer lexer' position _ htracks h ⟨next, hlooked, rfl⟩
    refine ⟨hlooked.start, fun hpositioned => ?_⟩
    have hwords := Worded.stable.stable hlooked.same h
    rw [← Lexer.nextStart_of_some hlooked.ahead]
    exact hwords.inFront hpositioned (htracks hpositioned) hlooked.ahead
  · exact assume (fun _ h => h) fun ⟨hexact, hwords⟩ =>
      (hq position hexact hwords).weaken fun _ _ _ => trivial

end Does

/-- The start of what is read next, where no words have been consumed yet. -/
theorem Does.innerWorded {low : Nat} {q : Position → Parse σ α} {Q : α → Lexer → Prop}
    (hq : ∀ position, S.Exact position → (S.positioned → low ≤ position.offset) → S.Does around
      (Also (S.Before around position.offset []) (S.Worded position.offset [])) (q position) Q) :
    S.Does around (S.Before around low []) (Parse.startPosition >>= q) Q := by
  refine .here fun position hposition => .pointwise fun lexer _ ⟨h, hnext⟩ => ?_
  refine (hq position hposition fun hpositioned => ?_).weaken ?_
  · rw [← hnext hpositioned]
    exact h.inOrder hpositioned
  · rintro _ _ rfl
    exact ⟨⟨allFormed_nil, fun hpositioned => Nat.le_of_eq (hnext hpositioned).symm⟩, .nil hnext⟩

/-- A rule that begins by taking its start, where no words have been consumed yet. -/
theorem Does.startWorded {low : Nat} {q : Position → Parse σ α} {parts : α → List Node.Part}
    {fit : α → Prop} (hq : ∀ start, S.Exact start → S.Does around
      (Also (S.Before around start.offset []) (S.Worded start.offset [])) (q start)
        (S.Made around start.offset parts fit)) :
    S.Does around (S.Before around low []) (Parse.startPosition >>= q)
      (S.Made around low parts fit) :=
  .innerWorded fun start hstart hlow => (hq start hstart).mono (fun _ _ h => h)
    fun _ _ _ ⟨hfit, hpast⟩ => ⟨hfit, hpast.mono hlow⟩

/-! ## The word in front of a function -/

/-- A look behind the word `async`, which says whether a line ends there. -/
theorem Does.peekBehindAsync {P : Lexer → Prop} [hP : Stable S P] {start : Nat}
    {q : Token × Bool → Parse σ α} {Q : α → Lexer → Prop}
    (hq : ∀ second newline, (newline = false → S.positioned → BeginsAsync S.source start) →
      S.Does around P (q (second, newline)) Q) :
    S.Does around (Also (Also P (S.Worded start [])) (Lexer.Faces (· = .keyword .async)))
      (Parse.peekSecond >>= q) Q := by
  refine .via (T := fun ahead => Also P fun _ => ahead.2 = false → S.positioned →
    BeginsAsync S.source start) peekSecond ?_ fun ahead => .assume (fun _ h => h.2) fun hasync =>
      (hq ahead.1 ahead.2 hasync).weaken fun _ _ h => h.1
  rintro lexer lexer' ahead htracks _ ⟨⟨h, hworded⟩, known, hknown, htoken⟩ ⟨hsame, honLine⟩
  refine ⟨hP.stable hsame h, fun hline hpositioned => ?_⟩
  have hwritten := ((htracks hpositioned).next known hknown).written
  obtain ⟨hword, hstop⟩ := hwritten.text "async" (by rw [htoken]; rfl)
  have hstart : known.span.start.offset = start := by
    rw [← Lexer.nextStart_of_some hknown]
    exact hworded.nextStart_eq hpositioned
  rw [hstart] at hword hstop
  refine ⟨hword, ?_⟩
  rw [← hstop]
  refine honLine hpositioned known hknown ?_ hline
  rw [hstop]
  exact Nat.add_pos_right start (by decide)

/-- A choice by whether the word `async` begins a function declaration. -/
theorem Does.ifAsyncFunction {P : Lexer → Prop} [Stable S P] {start : Nat} {p q : Parse σ α}
    {Q : α → Lexer → Prop}
    (hp : (S.positioned → BeginsAsync S.source start) → S.Does around P p Q)
    (hq : S.Does around P q Q) :
    S.Does around (Also (Also P (S.Worded start [])) (Lexer.Faces (· = .keyword .async)))
      (Grammar.asyncBeginsFunction >>= fun b => if b = true then p else q) Q := by
  unfold Grammar.asyncBeginsFunction
  rw [bind_assoc]
  refine .peekBehindAsync fun second newline hasync => ?_
  rw [pure_bind]
  refine .ite (fun hfunction => hp ?_) fun _ => hq
  simp only [Bool.and_eq_true, Bool.not_eq_true'] at hfunction
  exact hasync hfunction.1

/-! ## Modifiers -/

namespace Does

variable {start : Nat} {words : List String}

theorem staticRole :
    S.Does around (S.Worded start []) Grammar.staticRole fun role lexer => role ≠ .block →
      S.Worded start (if role == .modifier then ["static"] else []) lexer := by
  unfold Grammar.staticRole
  refine .ifNext (.observe fun second => .ite (fun _ => ?_) fun _ => ?_) ?_
  · refine .weaken (P := fun _ => True) ?_ fun _ _ _ => trivial
    exact .proceed fun _ => .pure fun _ _ hblock => absurd rfl hblock
  · refine .ite (fun _ => .pure fun _ h _ => h.1) fun _ => ?_
    exact .skipWord _ (fun token htoken => by rw [eq_of_beq htoken]; rfl) (by decide)
      (.pure fun _ h _ => h)
  · exact .pure fun _ h _ => h.1

theorem asyncModifier :
    S.Does around (S.Worded start words) Grammar.asyncModifier fun isAsync =>
      S.Worded start (words ++ if isAsync then ["async"] else []) := by
  unfold Grammar.asyncModifier
  refine .ifNext (.observe fun second => .ite (fun _ => ?_) fun _ => ?_) ?_
  · exact .pure fun _ h => by simpa using h.1
  · exact .skipWord _ (fun token htoken => by rw [eq_of_beq htoken]; rfl) (by decide)
      (.pure fun _ h => h)
  · exact .pure fun _ h => by simpa using h.1

theorem acceptWorded (symbol : Punctuator) :
    S.Does around (S.Worded start words) (accept symbol) fun accepted =>
      S.Worded start (words ++ if accepted then [symbol.spelling] else []) := by
  unfold accept
  refine .ifNext (.skipWord _ (fun token htoken => by rw [eq_of_beq htoken]; rfl)
    (by cases symbol <;> decide) ?_) ?_
  · exact .pure fun _ h => h
  · exact .pure fun _ h => by simpa using h.1

theorem expectWorded (symbol : Punctuator) :
    S.Does around (S.Worded start words) (expect symbol) fun _ =>
      S.Worded start (words ++ [symbol.spelling]) := by
  unfold expect
  refine .bind (acceptWorded symbol) fun accepted => .ite ?_ fun _ => .halt inferInstance
  rintro rfl
  exact .pure fun _ h => h

/-- An accessor is modified by a word. -/
theorem accessorModifier :
    S.Does around (S.Worded start words) Grammar.accessorModifier fun accessor lexer =>
      (∀ kind ∈ accessor, kind.word?.isSome) ∧
        S.Worded start (words ++ (accessor.bind MethodKind.word?).toList) lexer := by
  rw [Script.accessorModifier_eq]
  have habsent (lexer : Lexer) (h : S.Worded start words lexer) :
      (∀ kind ∈ (none : Option MethodKind), kind.word?.isSome) ∧
        S.Worded start (words ++ ((none : Option MethodKind).bind MethodKind.word?).toList) lexer :=
    ⟨nofun, by simpa using h⟩
  refine .peeked fun token => ?_
  split
  · exact .pure fun lexer h => habsent lexer h.1
  · next kind hkind =>
    have htext : token.text? = kind.word? ∧ ∃ word, kind.word? = some word := by
      unfold Script.accessorKind? at hkind
      split at hkind <;> cases hkind <;> exact ⟨rfl, _, rfl⟩
    obtain ⟨htext, word, hword⟩ := htext
    refine .observe fun second => .ite (fun _ => .pure fun lexer h => habsent lexer h.1) fun _ => ?_
    refine .skipWord word ?_ ?_ (.pure fun _ h => ⟨?_, ?_⟩)
    · rintro _ rfl
      rw [htext, hword]
    · cases kind <;> cases hword <;> decide
    · rintro _ ⟨⟩
      rw [hword]
      rfl
    · simpa [hword] using h

theorem modifiers :
    S.Does around (S.Worded start words) Grammar.modifiers fun m lexer =>
      (∀ kind ∈ m.accessor, kind.word?.isSome) ∧
        S.Worded start (words ++ modifierWords false m.isAsync m.isGenerator
          (m.accessor.bind MethodKind.word?)) lexer := by
  have hstar : Punctuator.star.spelling = "*" := rfl
  unfold Grammar.modifiers
  refine .bind asyncModifier fun isAsync => .bind (acceptWorded .star) fun isGenerator => ?_
  refine .ite (fun _ => .pure fun _ h => ⟨nofun, ?_⟩) fun _ => ?_
  · simpa [modifierWords, hstar] using h
  · refine .bind accessorModifier fun accessor => .pure fun _ h => ⟨h.1, ?_⟩
    simpa [modifierWords, hstar] using h.2

/-! ## Keys behind modifiers -/

theorem spanned {P : Lexer → Prop} {Q : α → Lexer → Prop} {position : Position}
    {q : Span → Parse σ α} (hq : ∀ stop, S.Does around P (q ⟨position, stop⟩) Q) :
    S.Does around P (Parse.spanFrom position >>= q) Q :=
  fun s hs h => hq s.lexer.lastSpan.stop s hs h

variable [Surveyed S g]

theorem propertyKey :
    S.Does around (S.Worded start words) g.propertyKey fun x _ =>
      S.positioned → Words S.source start words x.1.start.offset := by
  unfold Grammar.propertyKey
  refine .hereWords fun position hexact hwords => .proceed fun token => ?_
  split
  case _ | _ | _ | _ | _ => exact .spanned fun _ => .pure fun _ _ => hwords
  · refine .proceed fun _ => .proceed fun _ => .spanned fun _ => .pure fun _ _ => hwords
  · exact .halt (.unexpectedAt hexact)

theorem privateName :
    S.Does around (S.Worded start words) Grammar.privateName fun name _ =>
      S.positioned → Words S.source start words name.span.start.offset := by
  unfold Grammar.privateName
  refine .hereWords fun position hexact hwords => .proceed fun token => ?_
  split
  · refine .guarded (fun _ => inferInstance) fun _ => ?_
    exact .spanned fun _ => .pure fun _ _ => hwords
  · exact .halt (.unexpectedAt hexact)

theorem classKey :
    S.Does around (S.Worded start words) g.classKey fun x _ =>
      S.positioned → Words S.source start words x.1.start.offset := by
  unfold Grammar.classKey
  refine .observe fun c => .ite (fun _ => ?_) fun _ => propertyKey
  exact .bind privateName fun _ => .pure fun _ h => h

/-- A key, and the words in front of it. -/
theorem key {low : Nat} {p : Parse σ (PropertyKey × Bool)} {fit : PropertyKey × Bool → Prop}
    {q : PropertyKey × Bool → Parse σ α} {Q : α → Lexer → Prop}
    [hp : Yields S p (one fun x => .propertyKey x.1) fit]
    (hkey : S.Does around (S.Worded start words) p fun x _ =>
      S.positioned → Words S.source start words x.1.start.offset)
    (hq : ∀ x, fit x → (S.positioned → Words S.source start words x.1.start.offset) →
      S.Does around (S.Past around low (one .propertyKey x.1)) (q x) Q) :
    S.Does around (Also (S.Before around low []) (S.Worded start words)) (p >>= q) Q := by
  refine bind ((hp.yields around low).and hkey) fun x => ?_
  refine assume (fun _ h => And.intro h.1.1 h.2) fun ⟨hfit, hwords⟩ => ?_
  exact (hq x hfit hwords).weaken fun _ _ h => h.1.2

end Does

end Survey

end EcmaScript
