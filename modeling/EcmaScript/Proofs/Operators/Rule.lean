import EcmaScript.Proofs.Feed
import EcmaScript.Proofs.WellFormed

/-!
What the rules for expressions make of the tokens that they are fed.

One lemma for each rule says how it goes on behind the rule that it begins with: an operand is read,
and what is applied to it or joined with it follows. An arrow function is no operand, so where a
rule asks for one, the lemma asks what becomes of it. An expression statement is a program if the
source ends behind it, and no program if some other token follows.
-/

namespace EcmaScript

/-- A token on the same line as the one in front of it. -/
def Lexeme.of (token : Token) : Lexeme := { token }

/-- The token of the operator. -/
def InfixOperator.token : InfixOperator → Token
  | .logical .nullishCoalesce => .punctuator .nullishCoalesce
  | .logical .or => .punctuator .orOr
  | .logical .and => .punctuator .andAnd
  | .binary .bitwiseOr => .punctuator .or
  | .binary .bitwiseXor => .punctuator .xor
  | .binary .bitwiseAnd => .punctuator .and
  | .binary .eq => .punctuator .eqEq
  | .binary .notEq => .punctuator .notEq
  | .binary .strictEq => .punctuator .eqEqEq
  | .binary .strictNotEq => .punctuator .notEqEq
  | .binary .lt => .punctuator .lt
  | .binary .gt => .punctuator .gt
  | .binary .ltEq => .punctuator .ltEq
  | .binary .gtEq => .punctuator .gtEq
  | .binary .instanceof => .keyword .instanceof
  | .binary .in_ => .keyword .in_
  | .binary .leftShift => .punctuator .ltLt
  | .binary .rightShift => .punctuator .gtGt
  | .binary .unsignedRightShift => .punctuator .gtGtGt
  | .binary .add => .punctuator .plus
  | .binary .sub => .punctuator .minus
  | .binary .mul => .punctuator .star
  | .binary .div => .punctuator .slash
  | .binary .mod => .punctuator .percent
  | .binary .exp => .punctuator .starStar

theorem InfixOperator.ofToken?_token (operator : InfixOperator) :
    ofToken? true operator.token = some operator := by
  rcases operator with operator | operator <;> cases operator <;> rfl

namespace Token

/-- Whether the token is a name, a number or an opening parenthesis. -/
def opensOperand : Token → Bool
  | .identifier _ _ | .number _ | .punctuator .lParen => true
  | _ => false

/-- Whether something that is applied to an operand begins with the token: a member access, a call
or a template. -/
def opensSubscript : Token → Bool
  | .punctuator .dot | .punctuator .optionalChain | .punctuator .lBracket | .punctuator .lParen
  | .templateLiteral _ | .templateHead _ => true
  | _ => false

/-- No operator of at least the given precedence is next. -/
def BindsLooser (token : Token) (least : Nat) : Prop :=
  ∀ operator, InfixOperator.ofToken? true token = some operator → operator.precedence < least

theorem ne_of_opensOperand {token other : Token} (h : token.opensOperand = true)
    (hother : other.opensOperand = false) : token ≠ other := by
  rintro rfl
  rw [h] at hother
  cases hother

theorem ne_of_not_opensSubscript {token other : Token} (h : token.opensSubscript = false)
    (hother : other.opensSubscript = true) : token ≠ other := by
  rintro rfl
  rw [h] at hother
  cases hother

theorem unaryOperator_of_opensOperand {token : Token} (h : token.opensOperand = true) :
    UnaryOperator.ofToken? token = none ∧ UpdateOperator.ofToken? token = none := by
  unfold opensOperand at h
  split at h <;> first | exact ⟨rfl, rfl⟩ | cases h

end Token

structure Hooks.LetsPass {σ : Type} (hooks : Hooks σ) (atRest : σ → Prop) (e : Expression) :
    Prop where
  afterUnary : ∀ s, atRest s → hooks.afterUnary e s = .ok () s
  afterAtom : ∀ next s, atRest s → hooks.afterAtom e next s = .ok () s

namespace Parses

variable {σ α β : Type} {atRest : σ → Prop} {context : Context} {first next : Lexeme}
  {lexemes rest rest' : List Lexeme} {g : Grammar σ}

theorem ensure {a : α} :
    Parses atRest (Parse.ensure (.ok a) : Parse σ α) context lexemes (· = a) lexemes :=
  pure rfl

/-- A hook that lets what it is asked about pass. -/
theorem hook {action : Hook σ Unit} (h : ∀ s, atRest s → action s = .ok () s) :
    Parses atRest (Parse.hook action) context lexemes (fun _ => True) lexemes := by
  intro s hcontext hhooks hfeeds
  simp only [Ends, Parse.hook, h s.hooks hhooks]
  exact ⟨trivial, hcontext, hhooks, hfeeds⟩

/-- A hook that never fails. -/
theorem update {f : σ → α × σ} (h : ∀ s, atRest s → atRest (f s).2) :
    Parses atRest (Parse.update f) context lexemes (fun _ => True) lexemes :=
  fun s hcontext hhooks hfeeds => ⟨trivial, hcontext, h s.hooks hhooks, hfeeds⟩

theorem nextIs_false {symbol : Punctuator} (h : first.token ≠ .punctuator symbol) :
    Parses atRest (Parse.nextIs symbol : Parse σ Bool) context (first :: lexemes) (· = false)
      (first :: lexemes) := by
  rw [← beq_false_of_ne h]
  exact nextIs symbol

theorem nextIsArrow_false (h : first.token ≠ .punctuator .arrow) :
    Parses atRest (Grammar.nextIsArrow : Parse σ Bool) context (first :: lexemes) (· = false)
      (first :: lexemes) :=
  (nextIs_false h).seq (pure rfl)

theorem nextIsTemplate_false (h : first.token.opensSubscript = false) :
    Parses atRest (Grammar.nextIsTemplate : Parse σ Bool) context (first :: lexemes) (· = false)
      (first :: lexemes) := by
  refine peek.seq ?_
  split
  · next htoken => rw [htoken] at h; cases h
  · next htoken => rw [htoken] at h; cases h
  · exact pure rfl

/-! ## Operands -/

variable {P Q : Expression → Prop} {start : Position} {least : Nat}

/-- A name reads as itself. -/
theorem atom_name {word : String} (hword : rejectWord? word context.strict g.options.goal = none)
    (hnext : next.token ≠ .punctuator .arrow) :
    Parses atRest g.atom context (.of (.identifier word false) :: next :: rest)
      (fun e => ∃ span, e = .identifier word span) (next :: rest) := by
  refine startPosition.step fun start => peek.seq ?_
  change Parses atRest (g.identifierOrArrow start) _ _ _ _
  have hreference : Parses atRest g.identifierReference context
      (.of (.identifier word false) :: next :: rest) (·.1 = word) (next :: rest) := by
    refine startPosition.step fun start => (Parses.next rfl).seq ?_
    refine (pure rfl).seq ((nameRules g).seq ?_)
    have hcheck : NameRules.checkWord ⟨context.strict, g.options.goal⟩ word start = .ok () := by
      rw [NameRules.checkWord, hword]
    rw [hcheck]
    exact ensure.seq ((spanFrom start).step fun span => pure rfl)
  refine hreference.bind fun ⟨name, span⟩ hname => ?_
  obtain rfl : name = word := hname
  exact (nextIsArrow_false hnext).seq (pure ⟨span, rfl⟩)

/-- A number reads as itself. -/
theorem atom_number (value : Binary64) :
    Parses atRest g.atom context (.of (.number value) :: lexemes)
      (fun e => ∃ span, e = .literal (.number value) span) lexemes := by
  refine startPosition.step fun start => peek.seq ?_
  exact (skip rfl).step fun _ => (spanFrom start).step fun span => pure ⟨span, rfl⟩

/-- Nothing more is applied to an operand. -/
theorem subscripts_stop {base : Expression} {m : Nat} (hnext : next.token.opensSubscript = false)
    (hbase : P base) :
    Parses atRest (repeatRounds (g.subscriptsRound start false) m base) context (next :: rest) P
      (next :: rest) := by
  have hother {symbol : Punctuator} (h : (Token.punctuator symbol).opensSubscript = true) :
      next.token ≠ .punctuator symbol := Token.ne_of_not_opensSubscript hnext h
  have hround : Parses atRest (g.subscriptsRound start false base) context (next :: rest)
      (· = .stop base) (next :: rest) := by
    refine (declines (hother rfl)).seq ((nextIs_false (hother rfl)).seq ?_)
    refine (declines (hother rfl)).seq ((nextIs_false (hother rfl)).seq ?_)
    exact (nextIsTemplate_false hnext).seq (pure rfl)
  exact rounds fun m => hround.seq (pure hbase)

theorem leftHandSideRule_of_atom (hfirst : first.token.opensOperand = true)
    (hatom : Parses atRest g.atom context (first :: lexemes) P (next :: rest))
    (hpass : ∀ e, P e → ∀ next s, atRest s → g.hooks.afterAtom e next s = .ok () s)
    (hgo : ∀ start e, P e → Parses atRest (if e.isArrow then Pure.pure e else
      g.subscripts e start false) context (next :: rest) Q rest') :
    Parses atRest g.leftHandSideRule context (first :: lexemes) Q rest' := by
  have hprimary : Parses atRest g.primary context (first :: lexemes) P (next :: rest) := by
    refine hatom.bind fun e he => peek.seq ?_
    exact (hook (hpass e he _)).step fun _ => pure he
  refine startPosition.step fun start => (nextIsWord .new).seq ?_
  rw [beq_false_of_ne (Token.ne_of_opensOperand hfirst rfl)]
  exact hprimary.bind fun e he => hgo start e he

theorem unaryRule_of_leftHandSideRule (hfirst : first.token.opensOperand = true)
    (hnext : UpdateOperator.ofToken? next.token = none)
    (hleft : Parses atRest g.leftHandSideRule context (first :: lexemes) P (next :: rest))
    (hpass : ∀ e, P e → ∀ s, atRest s → g.hooks.afterUnary e s = .ok () s) :
    Parses atRest g.unaryRule context (first :: lexemes) P (next :: rest) := by
  have hupdate (start : Position) :
      Parses atRest (g.updateBehind start) context (first :: lexemes) P (next :: rest) := by
    refine hleft.bind fun e he => peek.seq ?_
    rw [hnext]
    exact pure he
  have hbody : Parses atRest g.unaryBody context (first :: lexemes) P (next :: rest) := by
    refine startPosition.step fun start => peek.seq ?_
    obtain ⟨hunary, hupdate'⟩ := Token.unaryOperator_of_opensOperand hfirst
    rw [hunary, hupdate']
    refine context_eq.seq ?_
    rw [beq_false_of_ne (Token.ne_of_opensOperand hfirst rfl), Bool.and_false]
    exact hupdate start
  exact hbody.bind fun e he => (hook (hpass e he)).step fun _ => pure he

/-- An operand to which nothing is applied. -/
theorem unaryRule_of_atom (hfirst : first.token.opensOperand = true)
    (hnext : next.token.opensSubscript = false ∧ UpdateOperator.ofToken? next.token = none)
    (hatom : Parses atRest g.atom context (first :: lexemes) P (next :: rest))
    (hpass : ∀ e, P e → g.hooks.LetsPass atRest e) :
    Parses atRest g.unaryRule context (first :: lexemes) P (next :: rest) := by
  refine unaryRule_of_leftHandSideRule hfirst hnext.2 ?_ fun e he => (hpass e he).afterUnary
  refine leftHandSideRule_of_atom hfirst hatom (fun e he => (hpass e he).afterAtom)
    fun start e he => ?_
  split
  · exact pure he
  · exact subscripts_stop hnext.1 he

/-! ## Operators between operands -/

/-- The loop over the operators stops in front of one that binds looser. -/
theorem binaryRound_stop {e : Expression} (hin : context.inForInit = false)
    (hlooser : next.token.BindsLooser least) :
    Parses atRest (g.binaryRound start least e) context (next :: rest) (· = .stop e)
      (next :: rest) := by
  refine context_eq.seq (peek.seq ?_)
  rw [hin, Bool.not_false]
  cases hoperator : InfixOperator.ofToken? true next.token with
  | none => exact pure rfl
  | some operator =>
    dsimp only
    rw [if_pos (hlooser operator hoperator)]
    exact pure rfl

theorem rounds_stop {e : Expression} {m : Nat} (hin : context.inForInit = false)
    (hlooser : next.token.BindsLooser least) (he : P e) :
    Parses atRest (repeatRounds (g.binaryRound start least) m e) context (next :: rest) P
      (next :: rest) :=
  rounds fun _ => (binaryRound_stop hin hlooser).seq (pure he)

/-- The loop over the operators goes on behind an operator and its right operand. -/
theorem rounds_of_operator {operator : InfixOperator} {e : Expression} {m : Nat}
    (hin : context.inForInit = false) (hleast : least ≤ operator.precedence)
    (hright : Parses atRest (g.binary operator.rightPrecedence) context lexemes P (next :: rest))
    (hgo : ∀ m right span, P right → Parses atRest (repeatRounds (g.binaryRound start least) m
      (operator.join e right span)) context (next :: rest) Q rest') :
    Parses atRest (repeatRounds (g.binaryRound start least) m e) context
      (.of operator.token :: lexemes) Q rest' := by
  refine rounds fun m => ?_
  have hround : Parses atRest (g.binaryRound start least e) context (.of operator.token :: lexemes)
      (fun r => ∃ right span, P right ∧ r = .again (operator.join e right span))
      (next :: rest) := by
    refine context_eq.seq (peek.seq ?_)
    rw [hin, Bool.not_false, Lexeme.of, operator.ofToken?_token]
    dsimp only
    rw [if_neg (Nat.not_lt.2 hleast)]
    refine (skip rfl).step fun _ => hright.bind fun right hP => (spanFrom start).step fun span => ?_
    exact pure ⟨right, span, hP, rfl⟩
  refine hround.bind ?_
  rintro _ ⟨right, span, hP, rfl⟩
  exact hgo m right span hP

theorem binaryRule_of_unaryRule
    (hunary : Parses atRest g.unaryRule context (first :: lexemes) P (next :: rest))
    (hgo : ∀ start e, P e → Parses atRest (if e.isArrow then Pure.pure e else
      g.loop (g.binaryRound start least) e) context (next :: rest) Q rest') :
    Parses atRest (g.binaryRule least) context (first :: lexemes) Q rest' :=
  startPosition.step fun start => hunary.bind fun e he => hgo start e he

/-- An operand in front of an operator that binds looser. -/
theorem binaryRule_alone (hin : context.inForInit = false) (hlooser : next.token.BindsLooser least)
    (hunary : Parses atRest g.unaryRule context (first :: lexemes) P (next :: rest)) :
    Parses atRest (g.binaryRule least) context (first :: lexemes) P (next :: rest) := by
  refine binaryRule_of_unaryRule hunary fun start e he => ?_
  split
  · exact pure he
  · exact rounds_stop hin hlooser he

/-! ## Complete expressions -/

theorem conditional_of_binaryRule
    (hbinary : Parses atRest (g.binaryRule 0) context (first :: lexemes) P (next :: rest))
    (hgo : ∀ e, P e → e.isArrow = false → next.token ≠ .punctuator .question) :
    Parses atRest g.conditional context (first :: lexemes) P (next :: rest) := by
  refine startPosition.step fun start => hbinary.bind fun e he => ?_
  split
  · exact pure he
  · next harrow => exact (declines (hgo e he (Bool.eq_false_iff.2 harrow))).seq (pure he)

theorem assignmentRule_of_conditional (hfirst : first.token.opensOperand = true)
    (hnext : AssignmentOperator.ofToken? next.token = none)
    (hconditional : Parses atRest g.conditional context (first :: lexemes) P (next :: rest)) :
    Parses atRest g.assignmentRule context (first :: lexemes) P (next :: rest) := by
  refine context_eq.seq ?_
  cases context.inGenerator
  case true =>
    refine (nextIsWord .yield).seq ?_
    rw [beq_false_of_ne (Token.ne_of_opensOperand hfirst rfl)]
    refine startPosition.step fun start => hconditional.bind fun e he => peek.seq ?_
    rw [hnext]
    exact pure he
  case false =>
    refine startPosition.step fun start => hconditional.bind fun e he => peek.seq ?_
    rw [hnext]
    exact pure he

theorem expression_of_assignment (hnext : next.token ≠ .punctuator .comma)
    (hassignment : Parses atRest g.assignment context (first :: lexemes) P (next :: rest)) :
    Parses atRest g.expression context (first :: lexemes) P (next :: rest) := by
  refine startPosition.step fun start => hassignment.bind fun e he => ?_
  exact (nextIs_false hnext).seq (pure he)

end Parses

/-! ## Statements and programs -/

section

variable {σ : Type} {atRest : σ → Prop} {context : Context} {options : Options} {hooks : Hooks σ}
  {bound depth : Nat} {first next : Lexeme} {lexemes rest : List Lexeme} {g : Grammar σ}
  {P : Expression → Prop}

open Grammar Parses

/-- What is read as a conditional expression is an expression, if nothing is assigned to it. -/
theorem expression_of_conditional {deepest : Nat} (hfirst : first.token.opensOperand = true)
    (hassign : AssignmentOperator.ofToken? next.token = none)
    (hcomma : next.token ≠ .punctuator .comma)
    (hconditional : ∀ depth ≤ deepest, Parses atRest (ofDepth options hooks bound depth).conditional
      context (first :: lexemes) P (next :: rest)) (hle : depth ≤ deepest) :
    Parses atRest (ofDepth options hooks bound depth).expression context (first :: lexemes) P
      (next :: rest) := by
  refine expression_of_assignment hcomma ?_
  cases depth with
  | zero => exact exhausted
  | succ depth =>
    exact assignmentRule_of_conditional hfirst hassign (hconditional depth (by omega))

def Statement.IsExpression (P : Expression → Prop) (s : Statement) : Prop :=
  ∃ e span, s = .expression e span ∧ P e

/-- The tokens behind an expression statement at the end of a source. -/
def Lexeme.closingStatement (semicolon : Bool) : List Lexeme :=
  if semicolon then [.of (.punctuator .semicolon), .of .endOfInput] else [.of .endOfInput]

/-- A statement ends at its semicolon, or at the end of the source. -/
theorem parses_endStatement (semicolon : Bool) :
    Parses atRest (Parse.endStatement : Parse σ Unit) context (Lexeme.closingStatement semicolon)
      (fun _ => True) [.of .endOfInput] := by
  cases semicolon with
  | true => exact (accept rfl rfl).seq (pure trivial)
  | false =>
    refine (declines (by decide)).seq ?_
    have hend : Parses atRest (Parse.atStatementEnd : Parse σ Bool) context [.of .endOfInput]
        (· = true) [.of .endOfInput] :=
      newlineBefore.seq (peek.seq (pure rfl))
    exact hend.seq (pure trivial)

theorem Lexeme.exists_closingStatement (semicolon : Bool) :
    ∃ next rest, closingStatement semicolon = next :: rest ∧
      next.token ≠ .punctuator .colon := by
  cases semicolon with
  | true => exact ⟨_, _, rfl, by decide⟩
  | false => exact ⟨_, _, rfl, by decide⟩

theorem parses_expressionStatement (semicolon : Bool) (start : Position)
    (hexpression : Parses atRest g.expression context lexemes P
      (Lexeme.closingStatement semicolon)) :
    Parses atRest (g.expressionStatement start) context lexemes (Statement.IsExpression P)
      [.of .endOfInput] := by
  refine hexpression.bind fun e he => ?_
  have hstatement : Parses atRest (do
      Parse.endStatement
      return .expression e (← Parse.spanFrom start) : Parse σ Statement) context
      (Lexeme.closingStatement semicolon) (Statement.IsExpression P) [.of .endOfInput] :=
    (parses_endStatement semicolon).step fun _ => (spanFrom start).step fun span =>
      pure ⟨e, span, rfl, he⟩
  obtain ⟨next, rest, hclosing, hcolon⟩ := Lexeme.exists_closingStatement semicolon
  rw [hclosing] at hstatement ⊢
  cases labelOf? e with
  | none => exact hstatement
  | some label => exact (declines hcolon).seq hstatement

theorem parses_statementRule {P : Statement → Prop} (hfirst : first.token.opensOperand = true)
    (hstatement : ∀ start, Parses atRest (g.expressionStatement start) context (first :: lexemes) P
      rest) :
    Parses atRest g.statementRule context (first :: lexemes) P rest := by
  refine startPosition.step fun start => peek.seq ?_
  generalize first.token = token at hfirst
  unfold Token.opensOperand at hfirst
  split at hfirst <;> first | exact hstatement start | cases hfirst

/-- An expression that is no directive is a program. -/
theorem parses_program (hreset : ∀ s, atRest s → atRest (hooks.reset s))
    (hfirst : first.token.opensOperand = true) (semicolon : Bool)
    (hexpression : ∀ inner < depth, Parses atRest (ofDepth options hooks bound inner).expression
      context (first :: lexemes) P (Lexeme.closingStatement semicolon))
    (hdirective : ∀ e span, P e → (Statement.expression e span).directive? = none) :
    Parses atRest (ofDepth options hooks bound depth).program context (first :: lexemes)
      (fun p => ∃ s span, p = ⟨[s], span⟩ ∧ s.IsExpression P) [.of .endOfInput] := by
  have hstatement : Parses atRest (ofDepth options hooks bound depth).statement context
      (first :: lexemes) (Statement.IsExpression P) [.of .endOfInput] := by
    cases depth with
    | zero => exact exhausted
    | succ depth =>
      exact parses_statementRule hfirst fun start =>
        parses_expressionStatement semicolon start (hexpression depth (Nat.lt_succ_self depth))
  let g : Grammar σ := ofDepth options hooks bound depth
  have hdone {first : Lexeme} {rest : List Lexeme} : Parses atRest (do
      return (← Parse.peek) == .endOfInput : Parse σ Bool) context (first :: rest)
      (· = (first.token == .endOfInput)) (first :: rest) :=
    peek.seq (pure rfl)
  have hround : Parses atRest
      (g.statementListRound (do return (← Parse.peek) == .endOfInput) {}) context
      (first :: lexemes) (fun r => ∃ s, s.IsExpression P ∧ r = .again ⟨[s], false⟩)
      [.of .endOfInput] := by
    refine hdone.seq ?_
    rw [beq_false_of_ne (Token.ne_of_opensOperand hfirst rfl)]
    refine hstatement.bind fun s hs => ?_
    obtain ⟨e, span, rfl, he⟩ := hs
    dsimp only
    rw [if_pos rfl, hdirective e span he]
    exact pure ⟨_, ⟨e, span, rfl, he⟩, rfl⟩
  have hstatements : Parses atRest g.statements context (first :: lexemes)
      (fun body => ∃ s, s.IsExpression P ∧ body = [s]) [.of .endOfInput] := by
    refine rounds fun m => hround.bind ?_
    rintro _ ⟨s, hs, rfl⟩
    have hstop : Parses atRest (g.statementListRound (do return (← Parse.peek) == .endOfInput)
        ⟨[s], false⟩) context [.of .endOfInput] (· = .stop [s]) [.of .endOfInput] :=
      hdone.seq (pure rfl)
    exact rounds fun m => hstop.seq (pure ⟨s, hs, rfl⟩)
  have hhooks : g.hooks = hooks := by
    dsimp only [g]
    cases depth <;> rfl
  refine (update fun s hs => ?_).step fun _ => hstatements.bind fun body ⟨s, hs, hbody⟩ => ?_
  · rw [hhooks]
    exact hreset s hs
  · subst hbody
    exact startPosition.step fun stop => pure ⟨s, _, rfl, hs⟩

end

/-! ## Tokens that are refused -/

/-- Where the lexer feeds `lexemes` and the hooks are at rest, the rule fails at a token that it
does not expect, unless its depth or its rounds run out. -/
def Refused {σ α : Type} (atRest : σ → Prop) (p : Parse σ α) (context : Context)
    (lexemes : List Lexeme) : Prop :=
  ∀ s, s.context = context → atRest s.hooks → s.lexer.Feeds lexemes →
    Ends (fun e _ => e = .exhausted ∨ ∃ position, e = .error (.located .unexpectedToken position))
      p s fun _ _ => False

section

variable {σ α β : Type} {atRest : σ → Prop} {context : Context} {options : Options}
  {hooks : Hooks σ} {bound depth : Nat} {first next : Lexeme} {lexemes middle rest : List Lexeme}
  {g : Grammar σ}

open Grammar Parses

namespace Refused

theorem exhausted : Refused atRest (throw .exhausted : Parse σ α) context lexemes :=
  fun _ _ _ _ => .inl rfl

/-- What is refused is not gone on with. -/
theorem bind {p : Parse σ α} {q : α → Parse σ β} (h : Refused atRest p context lexemes) :
    Refused atRest (p >>= q) context lexemes :=
  fun s hcontext hhooks hfeeds => (h s hcontext hhooks hfeeds).bind fun _ _ => False.elim

/-- What a rule leaves is refused. -/
theorem behind {p : Parse σ α} {q : α → Parse σ β} {P : α → Prop}
    (hp : Parses atRest p context lexemes P middle)
    (hq : ∀ a, P a → Refused atRest (q a) context middle) :
    Refused atRest (p >>= q) context lexemes :=
  fun s hcontext hhooks hfeeds =>
    ((hp s hcontext hhooks hfeeds).mono (fun _ _ h => h) fun _ _ => .inl).bind
      fun a s' ⟨ha, hcontext', hhooks', hfeeds'⟩ => hq a ha s' hcontext' hhooks' hfeeds'

theorem unexpected : Refused atRest (Parse.unexpected : Parse σ α) context (first :: lexemes) :=
  behind startPosition fun position _ _ _ _ _ => .inr ⟨position, rfl⟩

/-- A loop whose first round is refused. -/
theorem rounds {round : α → Parse σ (Round α β)} {a : α} {m : Nat}
    (h : Refused atRest (round a) context lexemes) :
    Refused atRest (repeatRounds round m a) context lexemes := by
  cases m with
  | zero => exact exhausted
  | succ m => exact h.bind

/-- No statement ends in front of some other token on the same line. -/
theorem endStatement (hline : next.newlineBefore = false)
    (hnext : next.token ≠ .punctuator .semicolon ∧ next.token ≠ .endOfInput ∧
      next.token ≠ .punctuator .rBrace) :
    Refused atRest (Parse.endStatement : Parse σ Unit) context (next :: rest) := by
  have hend : Parses atRest (Parse.atStatementEnd : Parse σ Bool) context (next :: rest)
      (· = false) (next :: rest) := by
    refine newlineBefore.seq ?_
    rw [hline]
    refine peek.seq ?_
    rw [beq_false_of_ne hnext.1, beq_false_of_ne hnext.2.1, beq_false_of_ne hnext.2.2]
    exact pure rfl
  refine behind (declines hnext.1) ?_
  rintro _ rfl
  refine behind hend ?_
  rintro _ rfl
  exact unexpected

/-- An expression that ends in front of some other token is refused as a program. -/
theorem program (hreset : ∀ s, atRest s → atRest (hooks.reset s))
    (hfirst : first.token.opensOperand = true) {P : Expression → Prop}
    (hlabel : ∀ e, P e → labelOf? e = none)
    (hline : next.newlineBefore = false)
    (hnext : next.token ≠ .punctuator .semicolon ∧ next.token ≠ .endOfInput ∧
      next.token ≠ .punctuator .rBrace)
    (hexpression : ∀ inner < depth, Parses atRest (ofDepth options hooks bound inner).expression
      context (first :: lexemes) P (next :: rest)) :
    Refused atRest (ofDepth options hooks bound depth).program context (first :: lexemes) := by
  have hstatement : Refused atRest (ofDepth options hooks bound depth).statement context
      (first :: lexemes) := by
    cases depth with
    | zero => exact exhausted
    | succ depth =>
      have hrule (start : Position) : Refused atRest
          ((ofDepth options hooks bound depth).expressionStatement start) context
          (first :: lexemes) := by
        refine behind (hexpression depth (Nat.lt_succ_self depth)) fun e he => ?_
        rw [hlabel e he]
        exact (endStatement hline hnext).bind
      refine behind startPosition fun start _ => behind peek ?_
      rintro _ rfl
      have hopens := hfirst
      generalize first.token = token at hopens
      unfold Token.opensOperand at hopens
      split at hopens <;> first | exact hrule start | cases hopens
  have hround : Refused atRest ((ofDepth options hooks bound depth).statementListRound
      (do return (← Parse.peek) == .endOfInput) {}) context (first :: lexemes) := by
    refine behind (peek.seq (pure rfl)) ?_
    rintro _ rfl
    rw [beq_false_of_ne (Token.ne_of_opensOperand hfirst rfl)]
    exact hstatement.bind
  have hhooks : (ofDepth options hooks bound depth).hooks = hooks := by
    cases depth <;> rfl
  refine behind (update fun s hs => ?_) fun _ _ => (rounds hround).bind
  rw [hhooks]
  exact hreset s hs

end Refused

end

/-! ## Parses of sources -/

section

variable {σ : Type} {atRest : σ → Prop} {source : String} {options : Options} {hooks : Hooks σ}
  {initial : σ} {lexemes rest : List Lexeme}

/-- What the grammar makes of the tokens that a source feeds, the parse of the source returns. -/
theorem exists_program_of_parses {P : Program → Prop}
    (hadvances : ∀ rule ∈ hooks.tokenRules, rule.Advances) (hinitial : atRest initial)
    (hfeeds : (Lexer.ofSource source hooks.tokenRules).Feeds lexemes)
    (hprogram : Parses atRest (Parser.ofSource source options hooks initial).grammar.program
      { strict := options.goal == .module } lexemes P rest) :
    ∃ p, parseWith source options hooks initial = .ok p ∧ P p := by
  have hends := hprogram (Parser.ofSource source options hooks initial).state rfl hinitial hfeeds
  have hresult := ends_parseWith source options hooks initial hadvances
  unfold parseWith Parser.parse at hresult ⊢
  unfold Ends at hends
  split at hends
  · next p s hp =>
    rw [hp]
    exact ⟨p, rfl, hends.1⟩
  · next e s hp =>
    obtain rfl := hends
    rw [hp] at hresult
    exact absurd rfl hresult

/-- What the grammar refuses of the tokens that a source feeds, the parse of the source refuses. -/
theorem exists_error_of_refused (hadvances : ∀ rule ∈ hooks.tokenRules, rule.Advances)
    (hinitial : atRest initial) (hfeeds : (Lexer.ofSource source hooks.tokenRules).Feeds lexemes)
    (hprogram : Refused atRest (Parser.ofSource source options hooks initial).grammar.program
      { strict := options.goal == .module } lexemes) :
    ∃ position, parseWith source options hooks initial =
      .error (.error (.located .unexpectedToken position)) := by
  have hends := hprogram (Parser.ofSource source options hooks initial).state rfl hinitial hfeeds
  have hresult := ends_parseWith source options hooks initial hadvances
  unfold parseWith Parser.parse at hresult ⊢
  unfold Ends at hends
  split at hends
  · exact hends.elim
  · next e s hp =>
    rw [hp] at hresult ⊢
    obtain rfl | ⟨position, rfl⟩ := hends
    · exact absurd rfl hresult
    · exact ⟨position, rfl⟩

end

end EcmaScript
