import EcmaScript.Proofs.Orderly

/-!
How orderly scripts are built, and the steps that they are built of.
-/

namespace EcmaScript

/-! ## Tokens that open and close nothing -/

def Punctuator.isBrace : Punctuator → Bool
  | .lBrace | .rBrace => true
  | _ => false

namespace Token

theorem isPlain_keyword (word : Keyword) : IsPlain (.keyword word) := ⟨fun _ => rfl, rfl⟩

theorem isPlain_identifier (name : String) (escaped : Bool) :
    IsPlain (.identifier name escaped) := ⟨fun _ => rfl, rfl⟩

theorem isPlain_number (value : Binary64) : IsPlain (.number value) := ⟨fun _ => rfl, rfl⟩

theorem isPlain_bigInt (text : String) : IsPlain (.bigInt text) := ⟨fun _ => rfl, rfl⟩

theorem isPlain_string (value : String) : IsPlain (.string value) := ⟨fun _ => rfl, rfl⟩

theorem isPlain_punctuator {symbol : Punctuator} (h : symbol.isBrace = false) :
    IsPlain (.punctuator symbol) := by
  cases symbol <;> first | exact ⟨fun _ => rfl, rfl⟩ | cases h

/-- A token that is told to be something that braces, the texts of templates and the end of the
source are not. -/
theorem isPlain_of_some {α : Type} {token : Token} {f : Token → Option α} {a : α}
    (h : f token = some a) (hopens : f (.punctuator .lBrace) = none)
    (hcloses : f (.punctuator .rBrace) = none) (hhead : ∀ cooked, f (.templateHead cooked) = none)
    (hmiddle : ∀ cooked, f (.templateMiddle cooked) = none) (hend : f .endOfInput = none) :
    token.IsPlain := by
  cases token with
  | punctuator symbol =>
    refine isPlain_punctuator ?_
    cases symbol with
    | lBrace => exact absurd (hopens.symm.trans h) (by simp)
    | rBrace => exact absurd (hcloses.symm.trans h) (by simp)
    | _ => rfl
  | templateHead cooked => exact absurd ((hhead cooked).symm.trans h) (by simp)
  | templateMiddle cooked => exact absurd ((hmiddle cooked).symm.trans h) (by simp)
  | endOfInput => exact absurd (hend.symm.trans h) (by simp)
  | _ => exact ⟨fun _ => rfl, rfl⟩

end Token

theorem Known.past_of_isPlain {known : Known} {token : Token} (h : token.IsPlain) :
    known.past token = known.further := by
  unfold Known.past Known.further
  simp only [h.nest_eq, h.isEnd_eq, Bool.not_false, Bool.true_or]

namespace Script

variable {α β γ : Type} [Bare α] [Bare β] [Bare γ] {place : Setting} {known : Known}

/-! ## How orderly scripts are built -/

namespace Orderly

variable {first first' : Script β} {next next' : β → Script α} {between : β → Known}
  {after : α → Known}

/-- An answer, where enough is known. -/
theorem ret {a a' : α} [h : Twins a a'] (hknown : known.Implies (after a)) :
    Orderly place known (Pure.pure a) (Pure.pure a') after :=
  .weaken hknown (.pure h) fun _ => .refl

/-- One script behind another one whose answer has no positions. -/
theorem step [Exact β] (hfirst : Orderly place known first first' between)
    (hnext : ∀ b, Orderly place (between b) (next b) (next' b) after) :
    Orderly place known (first >>= next) (first' >>= next') after :=
  .bind hfirst fun b _ hb => hb.eq ▸ hnext b

/-- A script behind the answer to a question. -/
theorem choose {question question' : Script Bool} {known₁ known₂ : Known}
    {yes yes' no no' : Script α}
    (h : Orderly place known question question' fun b => if b = true then known₁ else known₂)
    (hyes : Orderly place known₁ yes yes' after) (hno : Orderly place known₂ no no' after) :
    Orderly place known (question >>= fun b => if b = true then yes else no)
      (question' >>= fun b => if b = true then yes' else no') after := by
  refine h.step fun b => ?_
  cases b with
  | true => exact hyes
  | false => exact hno

/-- A script behind the answer to a question that says nothing of the next token. -/
theorem ask {question question' : Script Bool} {known₁ : Known} {yes yes' no no' : Script α}
    (h : Orderly place known question question' fun _ => known₁)
    (hyes : Orderly place known₁ yes yes' after) (hno : Orderly place known₁ no no' after) :
    Orderly place known (question >>= fun b => if b = true then yes else no)
      (question' >>= fun b => if b = true then yes' else no') after := by
  refine h.step fun b => ?_
  cases b with
  | true => exact hyes
  | false => exact hno

/-- A choice that does not depend on positions. -/
theorem either {c c' : Bool} [h : Twins c c'] {yes yes' no no' : Script α}
    (hyes : c = true → Orderly place known yes yes' after)
    (hno : c = false → Orderly place known no no' after) :
    Orderly place known (if c = true then yes else no) (if c' = true then yes' else no') after := by
  rw [← h.eq]
  cases c with
  | true => exact hyes rfl
  | false => exact hno rfl

/-- A script behind a check that does not depend on positions. -/
theorem checked {c c' : Bool} [h : Twins c c'] {fails fails' : Script Unit}
    {rest rest' : Unit → Script α} (hfails : Orderly place known fails fails' fun _ => known)
    (hrest : Orderly place known (rest ()) (rest' ()) after) :
    Orderly place known (if c = true then fails >>= fun u => rest u else rest ())
      (if c' = true then fails' >>= fun u => rest' u else rest' ()) after :=
  either (fun _ => hfails.step fun _ => hrest) fun _ => hrest

/-- A script behind a check that fails at a position that is asked for. -/
theorem checkedAt {c c' : Bool} [h : Twins c c'] {cause cause' : Cause}
    {question question' : Script Position} {rest rest' : Unit → Script α}
    (hquestion : Orderly place known question question' fun _ => known)
    (hrest : Orderly place known (rest ()) (rest' ()) after) :
    Orderly place known
      (if c = true then question >>= fun p => fail cause p >>= fun u => rest u else rest ())
      (if c' = true then question' >>= fun p => fail cause' p >>= fun u => rest' u
        else rest' ()) after := by
  refine either (fun _ => hquestion.bind fun p p' _ => ?_) fun _ => hrest
  have hfails : Orderly place known (fail cause p : Script Unit) (fail cause' p')
      fun _ => known := .raise _ _
  exact hfails.step fun _ => hrest

/-- A script that goes on only where a check that does not depend on positions succeeds. -/
theorem required {c c' : Bool} [h : Twins c c'] {fails fails' : Script Unit}
    {rest rest' : Unit → Script α} (hfails : Orderly place known fails fails' fun _ => known)
    (hrest : Orderly place known (rest ()) (rest' ()) after) :
    Orderly place known (if c = true then rest () else fails >>= fun u => rest u)
      (if c' = true then rest' () else fails' >>= fun u => rest' u) after :=
  either (fun _ => hrest) fun _ => hfails.step fun _ => hrest

theorem map {f f' : β → α} {known' : Known} [hf : ∀ x : TwinPair β, Twins (f x.left) (f' x.right)]
    (h : Orderly place known first first' fun _ => known') :
    Orderly place known (f <$> first) (f' <$> first') fun _ => known' :=
  .bind h fun b b' hb => by
    have hf := hf ⟨b, b', hb⟩
    exact .ret .refl

end Orderly

/-! ## Context, checks and hooks -/

theorem orderly_fail (cause cause' : Cause) (position position' : Position)
    {after : α → Known} :
    Orderly place known (fail cause position) (fail cause' position') after :=
  .raise _ _

theorem orderly_unexpectedAt (position position' : Position) {after : α → Known} :
    Orderly place known (unexpectedAt position) (unexpectedAt position') after :=
  orderly_fail _ _ _ _

theorem orderly_ensure {check check' : Except Diagnostic α} [h : Agree check check'] :
    Orderly place known (ensure check) (ensure check') fun _ => known := by
  cases hcheck : check with
  | error d => exact .raise d _
  | ok a =>
    obtain ⟨a', hcheck', ha⟩ := h.of_ok hcheck
    rw [hcheck']
    exact .ret .refl

theorem orderly_context : Orderly place known context context fun _ => known := .context

theorem orderly_nameRules : Orderly place known nameRules nameRules fun _ => known :=
  orderly_context.step fun _ => .step .options fun _ => .ret .refl

theorem orderly_declarePrivate {name name' : PrivateName} [h : Twins name name']
    (hnamed : known.named = true) (kind : MemberKind) (start start' : Position) :
    Orderly place known (declarePrivate name kind start) (declarePrivate name' kind start')
      fun _ => known :=
  .declareMember hnamed h kind start start'

theorem orderly_referenceName {name name' : PrivateName} [h : Twins name name']
    (hnamed : known.named = true) :
    Orderly place known (referenceName name) (referenceName name') fun _ => known :=
  .referenceName hnamed h

theorem orderly_afterAtom {atom atom' : Expression} [h : Twins atom atom'] (following : Token) :
    Orderly place known (afterAtom atom following) (afterAtom atom' following) fun _ => known :=
  .afterAtom h following

/-! ## Steps of the lexer -/

theorem orderly_peek : Orderly place known peek peek fun token => known.facing token := .peek

theorem orderly_startPosition :
    Orderly place known startPosition startPosition fun _ => known := .peekStart

theorem orderly_newlineBefore :
    Orderly place known newlineBefore newlineBefore fun _ => known := .newlineBefore

theorem orderly_lastEnd : Orderly place known lastEnd lastEnd fun _ => known := .lastEnd

theorem orderly_next :
    Orderly place known next next fun token => (known.past token).naming token.isPrivateName :=
  .next

theorem orderly_peekSecond {token : Token} (h : token.isWord = true) :
    Orderly place (known.facing token) peekSecond peekSecond fun _ => known.facing token :=
  .peekSecond h

theorem orderly_spanFrom (start start' : Position) :
    Orderly place known (spanFrom start) (spanFrom start') fun _ => known :=
  orderly_lastEnd.bind fun _ _ _ => .ret .refl

/-- An answer with a span. -/
theorem Orderly.spanned {start start' : Position} {f f' : Span → α} {after : α → Known}
    [∀ span span', Twins (f span) (f' span')] (hknown : ∀ span, known.Implies (after (f span))) :
    Orderly place known (spanFrom start >>= fun span => Pure.pure (f span))
      (spanFrom start' >>= fun span => Pure.pure (f' span)) after :=
  (orderly_spanFrom start start').bind fun span _ _ => .ret (hknown span)

theorem orderly_unexpected {after : α → Known} :
    Orderly place known unexpected unexpected after :=
  orderly_startPosition.bind fun _ _ _ => orderly_unexpectedAt _ _

theorem orderly_skip {token : Token} (h : token.IsPlain) :
    Orderly place (known.facing token) skip skip fun _ => known.further := by
  have hskip : Orderly place (known.facing token) next next fun _ => known.past token :=
    .skip token
  rw [Known.past_of_isPlain h] at hskip
  exact hskip.step fun _ => .ret .refl

/-- A script behind a look at the next token. -/
theorem orderly_look {rest rest' : Token → Script α} {after : α → Known}
    (h : ∀ token, Orderly place (known.facing token) (rest token) (rest' token) after) :
    Orderly place known (peek >>= rest) (peek >>= rest') after :=
  orderly_peek.step h

/-- A question about the next token, of which nothing is remembered. -/
theorem orderly_asking [Exact β] {f : Token → Script β}
    (h : ∀ token, ∃ b, f token = Pure.pure b) :
    Orderly place known (peek >>= f) (peek >>= f) fun _ => known := by
  obtain ⟨answer, hanswer⟩ := Classical.axiomOfChoice h
  obtain rfl : f = fun token => Pure.pure (answer token) := funext hanswer
  obtain ⟨view, opened, moved, named⟩ := known
  cases view with
  | any => exact orderly_look fun token => .ret .forget
  | facing token => exact @Orderly.askAgain _ ⟨.any, opened, moved, named⟩ _ _ _ token _ rfl

/-- Where the next token turns out to be the expected one, it is known. -/
theorem orderly_nextIsToken (expected : Token) :
    Orderly place known (do return (← peek) == expected) (do return (← peek) == expected)
      fun isNext => if isNext = true then known.facing expected else known := by
  obtain ⟨view, opened, moved, named⟩ := known
  cases view with
  | any =>
    refine orderly_peek.step fun token => ?_
    by_cases htoken : token = expected
    · rw [htoken, beq_self_eq_true]
      exact .ret .refl
    · rw [beq_false_of_ne htoken]
      exact .ret .forget
  | facing token =>
    refine @Orderly.askAgain _ ⟨.any, opened, moved, named⟩ _ _ _ token _ ?_
    by_cases htoken : token = expected
    · rw [htoken, beq_self_eq_true, if_pos rfl]
    · rw [beq_false_of_ne htoken, if_neg Bool.false_ne_true]

theorem orderly_nextIs (symbol : Punctuator) :
    Orderly place known (nextIs symbol) (nextIs symbol)
      fun isNext => if isNext = true then known.facing (.punctuator symbol) else known :=
  orderly_nextIsToken _

/-- The same question, of which nothing is remembered. -/
theorem orderly_askNextIs (symbol : Punctuator) :
    Orderly place known (nextIs symbol) (nextIs symbol) fun _ => known :=
  orderly_asking fun _ => ⟨_, rfl⟩

theorem orderly_nextIsWord (word : Keyword) :
    Orderly place known (nextIsWord word) (nextIsWord word)
      fun isNext => if isNext = true then known.facing (.keyword word) else known :=
  orderly_nextIsToken _

theorem orderly_nextIsName (name : String) :
    Orderly place known (nextIsName name) (nextIsName name)
      fun isNext => if isNext = true then known.facing (.identifier name false) else known :=
  orderly_nextIsToken _

theorem orderly_nextIsIdentifier :
    Orderly place known nextIsIdentifier nextIsIdentifier fun _ => known :=
  orderly_asking fun _ => ⟨_, rfl⟩

/-- Consuming the expected token, if it is next. -/
theorem orderly_acceptToken {question : Script Bool} {known₁ known₂ : Known}
    (hasks : Orderly place known question question fun b => if b = true then known₁ else known)
    (hskip : Orderly place known₁ skip skip fun _ => known₂) :
    Orderly place known
      (question >>= fun b => if b = true then skip >>= fun _ => Pure.pure true else Pure.pure false)
      (question >>= fun b => if b = true then skip >>= fun _ => Pure.pure true else Pure.pure false)
      fun accepted => if accepted = true then known₂ else known :=
  hasks.choose (hskip.step fun _ => .ret .refl) (.ret .refl)

theorem orderly_accept {symbol : Punctuator} (h : symbol.isBrace = false) :
    Orderly place known (accept symbol) (accept symbol)
      fun accepted => if accepted = true then known.further else known :=
  orderly_acceptToken (orderly_nextIs symbol) (orderly_skip (Token.isPlain_punctuator h))

/-- The token may be there or not. -/
theorem orderly_acceptAny {symbol : Punctuator} (h : symbol.isBrace = false) :
    Orderly place known (accept symbol) (accept symbol) fun _ => known.blind := by
  refine .weaken .refl (orderly_accept h) fun accepted => ?_
  cases accepted with
  | true => exact .behind
  | false => exact .forget

theorem orderly_acceptWord (word : Keyword) :
    Orderly place known (acceptWord word) (acceptWord word)
      fun accepted => if accepted = true then known.further else known :=
  orderly_acceptToken (orderly_nextIsWord word) (orderly_skip (Token.isPlain_keyword word))

/-- Consuming the expected token, which must be next. -/
theorem orderly_expectToken {question : Script Bool} {known₁ : Known}
    (h : Orderly place known question question
      fun accepted => if accepted = true then known₁ else known) :
    Orderly place known
      (question >>= fun b => if b = true then Pure.pure () else unexpected)
      (question >>= fun b => if b = true then Pure.pure () else unexpected) fun _ => known₁ :=
  h.choose (.ret .refl) orderly_unexpected

theorem orderly_expect {symbol : Punctuator} (h : symbol.isBrace = false) :
    Orderly place known (expect symbol) (expect symbol) fun _ => known.further :=
  orderly_expectToken (orderly_accept h)

theorem orderly_expectWord (word : Keyword) :
    Orderly place known (expectWord word) (expectWord word) fun _ => known.further :=
  orderly_expectToken (orderly_acceptWord word)

theorem orderly_atStatementEnd :
    Orderly place known atStatementEnd atStatementEnd fun _ => known :=
  orderly_newlineBefore.ask (.ret .refl) (orderly_asking fun _ => ⟨_, rfl⟩)

theorem orderly_endStatement :
    Orderly place known endStatement endStatement fun _ => known.blind := by
  refine (orderly_accept rfl).choose (.ret .behind) ?_
  exact orderly_atStatementEnd.ask (.ret .forget) orderly_unexpected

/-! ## Braces -/

/-- Consuming the expected token, where it is known what is open behind it. -/
theorem orderly_skipTo {token : Token} {opened : Nesting}
    (hopened : ∀ around, token.nest (known.opened around) = opened around)
    (hend : token.isEnd = false) :
    Orderly place (known.facing token) skip skip fun _ => ⟨.any, opened, true, known.named⟩ := by
  have hskip : Orderly place (known.facing token) next next fun _ => known.past token :=
    .skip token
  have hpast : known.past token = ⟨.any, opened, true, known.named⟩ := by
    unfold Known.past
    rw [hend, funext hopened, Bool.not_false, Bool.true_or]
  rw [hpast] at hskip
  exact hskip.step fun _ => .ret .refl

theorem orderly_expectOpen :
    Orderly place known (expect .lBrace) (expect .lBrace) fun _ => known.braced :=
  orderly_expectToken (orderly_acceptToken (orderly_nextIs .lBrace)
    (orderly_skipTo (fun _ => rfl) rfl))

theorem orderly_acceptClose {view : View} {opened : Nesting} {moved named : Bool} :
    Orderly place ⟨view, fun around => .brace :: opened around, moved, named⟩ (accept .rBrace)
      (accept .rBrace) fun accepted => if accepted = true then ⟨.any, opened, true, named⟩
        else ⟨view, fun around => .brace :: opened around, moved, named⟩ :=
  orderly_acceptToken (orderly_nextIs .rBrace) (orderly_skipTo (fun _ => rfl) rfl)

theorem orderly_expectClose {view : View} {opened : Nesting} {moved named : Bool} :
    Orderly place ⟨view, fun around => .brace :: opened around, moved, named⟩ (expect .rBrace)
      (expect .rBrace) fun _ => ⟨.any, opened, true, named⟩ :=
  orderly_expectToken orderly_acceptClose

/-! ## Rules that recur -/

theorem orderly_statement (hhead : place.inHead = false) (h : place.IsReady known) :
    Orderly place known statement statement fun _ => known.further :=
  .call .statement ⟨hhead, h⟩

theorem orderly_assignment (h : place.IsReady known ∨ place.leads = true) :
    Orderly place known assignment assignment fun _ => known.further :=
  .call .assignment h

theorem orderly_binary (least : Nat) (h : place.IsReady known) :
    Orderly place known (binary least) (binary least) fun _ => known.further :=
  .call (.binary least) h

theorem orderly_unary (h : place.IsReady known) :
    Orderly place known unary unary fun _ => known.further :=
  .call .unary h

theorem orderly_leftHandSide (h : place.IsReady known) :
    Orderly place known leftHandSide leftHandSide fun _ => known.further :=
  .call .leftHandSide h

theorem orderly_newExpression (h : place.IsReady known) :
    Orderly place known newExpression newExpression fun _ => known.further :=
  .call .newExpression h

theorem orderly_bindingTarget (h : place.IsReady known) :
    Orderly place known bindingTarget bindingTarget fun _ => known.further :=
  .call .bindingTarget h

/-! ## Regions -/

theorem orderly_allowingIn {body body' : Script α} {after : α → Known}
    (h : Orderly { place with inHead := false } known body body' after) :
    Orderly place known (allowingIn body) (allowingIn body') after :=
  .within .brackets h

theorem orderly_withoutIn {body body' : Script α} {after : α → Known}
    (h : Orderly { place with inHead := true } known body body' after) :
    Orderly place known (withoutIn body) (withoutIn body') after :=
  .within .loopHead h

end Script

end EcmaScript
