import EcmaScript.Proofs.ClassScope.Twins
import EcmaScript.Proofs.Enclosed.Operand

/-!
What follows an expression in parentheses.

The parentheses are an operand: the callee of a call, the object of a member access, a summand, a
summand behind `||`, and the test of a conditional expression. The tree keeps no trace of them, and
the rules that go on behind an operand stop behind an arrow function, in parentheses or not; then
what follows is refused, or belongs to an outer operator.
-/

namespace EcmaScript

/-- A use of an expression in parentheses. -/
inductive OperandUse where
  /-- `(E)()` -/
  | callee
  /-- `(E).m` -/
  | object
  /-- `(E) + 1` -/
  | summand
  /-- `a || (E) + 1` -/
  | alternative
  /-- `(E) ? 1 : 2` -/
  | test

namespace OperandUse

/-- The text in front of the expression. -/
def front : OperandUse → String
  | .alternative => "a || ("
  | _ => "("

/-- The text behind the expression and the closing parenthesis. -/
def back : OperandUse → String
  | .callee => "()"
  | .object => ".m"
  | .summand | .alternative => " + 1"
  | .test => " ? 1 : 2"

/-- The text with the given one in the parentheses. -/
def text (use : OperandUse) (source : String) : String :=
  use.front ++ source ++ ")" ++ use.back

/-- The literal of a number. -/
def literal (value : Nat) : Expression := .literal (.number (.ofNat value)) (.empty .start)

/-- The expression with the given one in the parentheses, up to spans. -/
def toExpression (use : OperandUse) (e : Expression) : Expression :=
  match use with
  | .callee => .call e [] false (.empty .start)
  | .object => .member e (.identifier "m" (.empty .start)) false false (.empty .start)
  | .summand => .binary .add e (literal 1) (.empty .start)
  | .alternative =>
    .logical .or (.identifier "a" (.empty .start)) (.binary .add e (literal 1) (.empty .start))
      (.empty .start)
  | .test => .conditional e (literal 1) (literal 2) (.empty .start)

/-- What is read if the parentheses hold an arrow function, which nothing can follow: the sum is not
the right operand of `||`, and everything else is refused. -/
def misreading (use : OperandUse) (e : Expression) : Option Expression :=
  match use with
  | .alternative =>
    some (.binary .add (.logical .or (.identifier "a" (.empty .start)) e (.empty .start))
      (literal 1) (.empty .start))
  | _ => none

/-- The tokens in front of the expression. -/
def frontLexemes : OperandUse → List Lexeme
  | .alternative =>
    [.of (.identifier "a" false), .of (.punctuator .orOr), .of (.punctuator .lParen)]
  | _ => [.of (.punctuator .lParen)]

/-- The tokens behind the expression and the closing parenthesis. -/
def backLexemes : OperandUse → List Lexeme
  | .callee => [.of (.punctuator .lParen), .of (.punctuator .rParen)]
  | .object => [.of (.punctuator .dot), .of (.identifier "m" false)]
  | .summand | .alternative => [.of (.punctuator .plus), .of (.number (.ofNat 1))]
  | .test => [.of (.punctuator .question), .of (.number (.ofNat 1)), .of (.punctuator .colon),
    .of (.number (.ofNat 2))]

end OperandUse

def Program.ofExpression (e : Expression) : Program :=
  ⟨[.expression e (.empty .start)], .empty .start⟩

/-- In grammars up to the given depth the tokens behind an opening parenthesis read as the
expression. -/
structure ReadsEnclosed {σ : Type} (atRest : σ → Prop) (options : Options) (hooks : Hooks σ)
    (bound deepest : Nat) (context : Context) (inside : List Lexeme) (e : Expression) :
    Prop where
  atom : ∀ depth ≤ deepest, ∀ next rest, next.token ≠ .punctuator .arrow →
    Parses atRest (Grammar.ofDepth options hooks bound depth).atom context
      (.of (.punctuator .lParen) :: (inside ++ next :: rest)) (Twins e) (next :: rest)
  inAllowed : context.inForInit = false
  reset : ∀ s, atRest s → atRest (hooks.reset s)
  passes : ∀ x : Expression, x.isPrivateDelete = false → hooks.LetsPass atRest x
  insidePasses : ∀ e' : Expression, Twins e e' → hooks.LetsPass atRest e'

namespace ReadsEnclosed

open Grammar Parses

variable {σ : Type} {atRest : σ → Prop} {options : Options} {hooks : Hooks σ}
  {bound depth deepest : Nat} {context : Context} {inside : List Lexeme} {e : Expression}
  {first next : Lexeme} {lexemes rest : List Lexeme} {P : Expression → Prop}

/-- What the parentheses hold passes the hooks of every grammar. -/
theorem letsPassInside (h : ReadsEnclosed atRest options hooks bound deepest context inside e)
    {e' : Expression} (he : Twins e e') :
    (ofDepth options hooks bound depth).hooks.LetsPass atRest e' := by
  rw [hooks_ofDepth]
  exact h.insidePasses e' he

/-- Whatever is the same up to positions passes the hooks. -/
theorem letsPass (h : ReadsEnclosed atRest options hooks bound deepest context inside e)
    {x x' : Expression} (hx : x.isPrivateDelete = false) (htwins : Twins x x') :
    (ofDepth options hooks bound depth).hooks.LetsPass atRest x' := by
  rw [hooks_ofDepth]
  exact h.passes x' ((Expression.isPrivateDelete_eq htwins).symm.trans hx)

variable (h : ReadsEnclosed atRest options hooks bound deepest context inside e)
include h

/-- An operand by itself is an assignment expression, if no operator follows it. -/
theorem assignment_of_unaryRule (hfirst : first.token.opensOperand = true)
    (hlooser : next.token.BindsLooser 0) (hassign : AssignmentOperator.ofToken? next.token = none)
    (hquestion : next.token ≠ .punctuator .question)
    (hunary : ∀ depth ≤ deepest, Parses atRest (ofDepth options hooks bound depth).unaryRule context
      (first :: lexemes) P (next :: rest)) (hle : depth ≤ deepest) :
    Parses atRest (ofDepth options hooks bound depth).assignment context (first :: lexemes) P
      (next :: rest) := by
  cases depth with
  | zero => exact exhausted
  | succ depth =>
    exact assignmentRule_of_conditional hfirst hassign
      (conditional_of_binaryRule (binaryRule_alone h.inAllowed hlooser (hunary depth (by omega)))
        fun _ _ _ => hquestion)

/-- A number is a unary expression. -/
theorem unaryRule_number (value : Nat) (hsubscript : next.token.opensSubscript = false)
    (hupdate : UpdateOperator.ofToken? next.token = none) :
    Parses atRest (ofDepth options hooks bound depth).unaryRule context
      (.of (.number (.ofNat value)) :: next :: rest) (Twins (OperandUse.literal value))
      (next :: rest) := by
  have hatom : Parses atRest (ofDepth options hooks bound depth).atom context
      (.of (.number (.ofNat value)) :: next :: rest) (Twins (OperandUse.literal value))
      (next :: rest) := by
    refine (atom_number (.ofNat value)).mono ?_
    rintro _ ⟨span, rfl⟩
    exact .literal _
  exact unaryRule_of_atom rfl ⟨hsubscript, hupdate⟩ hatom fun x hx => h.letsPass rfl hx

/-- The loop over the operators goes on with a sum, up to the end of the source. -/
theorem rounds_add {start : Position} {least m : Nat} (hleast : least ≤ 9) {left left' : Expression}
    (hleft : Twins left left') :
    Parses atRest (repeatRounds ((ofDepth options hooks bound depth).binaryRound start least) m
      left') context (OperandUse.summand.backLexemes ++ [.of .endOfInput])
      (Twins (.binary .add left (OperandUse.literal 1) (.empty .start))) [.of .endOfInput] := by
  have hlooser (least : Nat) : Token.endOfInput.BindsLooser least := nofun
  have hright : Parses atRest ((ofDepth options hooks bound depth).binary 10) context
      [.of (.number (.ofNat 1)), .of .endOfInput] (Twins (OperandUse.literal 1))
      [.of .endOfInput] := by
    cases depth with
    | zero => exact exhausted
    | succ depth => exact binaryRule_alone h.inAllowed (hlooser 10) (h.unaryRule_number 1 rfl rfl)
  have hprecedence : least ≤ InfixOperator.precedence (.binary .add) := hleast
  refine rounds_of_operator h.inAllowed hprecedence hright fun m right span hright => ?_
  exact rounds_stop h.inAllowed (hlooser least) (.binary .add)

/-- The parentheses, with what is applied to them unless they hold an arrow function. -/
theorem leftHandSideRule (hle : depth ≤ deepest) (hnext : next.token ≠ .punctuator .arrow)
    (hgo : ∀ start e', Twins e e' → Parses atRest (if e'.isArrow then Pure.pure e' else
      (ofDepth options hooks bound depth).subscripts e' start false) context (next :: lexemes) P
      rest) :
    Parses atRest (ofDepth options hooks bound depth).leftHandSideRule context
      (.of (.punctuator .lParen) :: (inside ++ next :: lexemes)) P rest :=
  leftHandSideRule_of_atom rfl (h.atom depth hle next lexemes hnext)
    (fun _ he => (h.letsPassInside he).afterAtom) hgo

/-- The parentheses alone, if nothing is applied to them or they hold an arrow function. -/
theorem unaryRule (hle : depth ≤ deepest) (hnext : next.token ≠ .punctuator .arrow)
    (hsubscript : e.isArrow = false → next.token.opensSubscript = false)
    (hupdate : UpdateOperator.ofToken? next.token = none) :
    Parses atRest (ofDepth options hooks bound depth).unaryRule context
      (.of (.punctuator .lParen) :: (inside ++ next :: rest)) (Twins e) (next :: rest) := by
  refine unaryRule_of_leftHandSideRule rfl hupdate ?_
    fun _ he => (h.letsPassInside he).afterUnary
  refine h.leftHandSideRule hle hnext fun start e' he => ?_
  split
  · exact pure he
  · next harrow =>
    have hbare : e.isArrow = false :=
      (Twins.isArrow (h := he)).eq.trans (Bool.eq_false_iff.2 harrow)
    exact subscripts_stop (hsubscript hbare) he

/-- Something is applied to the parentheses. -/
theorem unaryRule_applied (hle : depth ≤ deepest) (harrow : e.isArrow = false)
    (hnext : next.token ≠ .punctuator .arrow) {x : Expression} (hx : x.isPrivateDelete = false)
    (hround : ∀ start e', Twins e e' → Parses atRest
      ((ofDepth options hooks bound depth).subscriptsRound start false e') context
      (next :: lexemes) (fun r => ∃ x', r = .again x' ∧ Twins x x') [.of .endOfInput]) :
    Parses atRest (ofDepth options hooks bound depth).unaryRule context
      (.of (.punctuator .lParen) :: (inside ++ next :: lexemes)) (Twins x)
      [.of .endOfInput] := by
  refine unaryRule_of_leftHandSideRule rfl rfl ?_ fun x' hx' => (h.letsPass hx hx').afterUnary
  refine h.leftHandSideRule hle hnext fun start e' he => ?_
  rw [← (Twins.isArrow (h := he)).eq, harrow]
  refine rounds fun m => (hround start e' he).bind ?_
  rintro _ ⟨x', rfl, hx'⟩
  exact subscripts_stop rfl hx'

theorem unaryRule_callee (hle : depth ≤ deepest) (harrow : e.isArrow = false) :
    Parses atRest (ofDepth options hooks bound depth).unaryRule context
      (.of (.punctuator .lParen) :: (inside ++ (OperandUse.callee.backLexemes ++
        [.of .endOfInput]))) (Twins (OperandUse.callee.toExpression e)) [.of .endOfInput] := by
  refine h.unaryRule_applied hle harrow (by decide) rfl fun start e' he => ?_
  have hnone : Parses atRest ((ofDepth options hooks bound depth).argumentsRound []) context
      [.of (.punctuator .rParen), .of .endOfInput] (· = .stop []) [.of .endOfInput] :=
    (accept rfl rfl).seq (pure rfl)
  have harguments : Parses atRest (ofDepth options hooks bound depth).arguments context
      (OperandUse.callee.backLexemes ++ [.of .endOfInput]) (· = []) [.of .endOfInput] := by
    have hloop : Parses atRest ((ofDepth options hooks bound depth).loop
        (ofDepth options hooks bound depth).argumentsRound []) context
        [.of (.punctuator .rParen), .of .endOfInput] (· = []) [.of .endOfInput] :=
      rounds fun m => hnone.seq (pure rfl)
    exact (expect rfl rfl).step fun _ => (allowingIn h.inAllowed hloop).seq (pure rfl)
  have hcall : Parses atRest
      ((ofDepth options hooks bound depth).callOrAsyncArrow e' start) context
      (OperandUse.callee.backLexemes ++ [.of .endOfInput])
      (fun r => ∃ x', r = .again x' ∧ Twins (OperandUse.callee.toExpression e) x')
      [.of .endOfInput] := by
    refine harguments.seq ?_
    dsimp only
    split
    · refine (nextIsArrow_false (by decide)).seq ?_
      exact (spanFrom start).step fun span => pure ⟨_, rfl, .call false⟩
    · exact (spanFrom start).step fun span => pure ⟨_, rfl, .call false⟩
  refine (declines (by decide)).seq ((nextIs_false (by decide)).seq ?_)
  exact (declines (by decide)).seq ((nextIs .lParen).seq hcall)

theorem unaryRule_object (hle : depth ≤ deepest) (harrow : e.isArrow = false) :
    Parses atRest (ofDepth options hooks bound depth).unaryRule context
      (.of (.punctuator .lParen) :: (inside ++ (OperandUse.object.backLexemes ++
        [.of .endOfInput]))) (Twins (OperandUse.object.toExpression e)) [.of .endOfInput] := by
  refine h.unaryRule_applied hle harrow (by decide) rfl fun start e' he => ?_
  have hproperty : Parses atRest (ofDepth options hooks bound depth).memberProperty context
      [.of (.identifier "m" false), .of .endOfInput] (Twins (.identifier "m" (.empty .start)))
      [.of .endOfInput] := by
    have hpublic : Parses atRest (nextIsPrivateName : Parse σ Bool) context
        [.of (.identifier "m" false), .of .endOfInput] (· = false)
        [.of (.identifier "m" false), .of .endOfInput] :=
      peek.seq (pure rfl)
    refine hpublic.seq (startPosition.step fun start => (Parses.next rfl).seq ?_)
    exact (spanFrom start).step fun span => pure inferInstance
  refine (accept rfl rfl).seq (hproperty.bind fun property hproperty => ?_)
  exact (spanFrom start).step fun span => pure ⟨_, rfl, .member false false⟩

/-- The parentheses are the left operand of a sum, which may itself be a right operand. -/
theorem binaryRule_summand (hle : depth ≤ deepest) (harrow : e.isArrow = false) {least : Nat}
    (hleast : least ≤ 9) :
    Parses atRest ((ofDepth options hooks bound depth).binaryRule least) context
      (.of (.punctuator .lParen) :: (inside ++ (OperandUse.summand.backLexemes ++
        [.of .endOfInput]))) (Twins (OperandUse.summand.toExpression e)) [.of .endOfInput] := by
  refine binaryRule_of_unaryRule (h.unaryRule hle (by decide) (fun _ => rfl) rfl)
    fun start e' he => ?_
  rw [← (Twins.isArrow (h := he)).eq, harrow]
  exact h.rounds_add hleast he

/-- A right operand of `||` behind `a`, with the loop over the operators behind it. -/
theorem binaryRule_alternative {right : Expression} {lexemes' : List Lexeme}
    (hright : ∀ depth ≤ deepest, Parses atRest ((ofDepth options hooks bound depth).binaryRule 2)
      context lexemes (Twins right) (next :: lexemes'))
    (hgo : ∀ start m left, Twins (.logical .or (.identifier "a" (.empty .start)) right
      (.empty .start)) left → Parses atRest
        (repeatRounds ((ofDepth options hooks bound depth).binaryRound start 0) m left) context
        (next :: lexemes') P rest) (hle : depth ≤ deepest) :
    Parses atRest ((ofDepth options hooks bound depth).binaryRule 0) context
      (.of (.identifier "a" false) :: .of (.punctuator .orOr) :: lexemes) P rest := by
  have hword (strict : Bool) (goal : Goal) : rejectWord? "a" strict goal = none := by
    cases strict <;> cases goal <;> decide
  have hatom : Parses atRest (ofDepth options hooks bound depth).atom context
      (.of (.identifier "a" false) :: .of (.punctuator .orOr) :: lexemes)
      (Twins (.identifier "a" (.empty .start))) (.of (.punctuator .orOr) :: lexemes) := by
    refine (atom_name (hword _ _) (by decide)).mono ?_
    rintro _ ⟨span, rfl⟩
    exact inferInstance
  have hname : Parses atRest (ofDepth options hooks bound depth).unaryRule context
      (.of (.identifier "a" false) :: .of (.punctuator .orOr) :: lexemes)
      (Twins (.identifier "a" (.empty .start))) (.of (.punctuator .orOr) :: lexemes) :=
    unaryRule_of_atom rfl ⟨rfl, rfl⟩ hatom fun x hx => h.letsPass rfl hx
  have hoperand : Parses atRest ((ofDepth options hooks bound depth).binary 2) context lexemes
      (Twins right) (next :: lexemes') := by
    cases depth with
    | zero => exact exhausted
    | succ depth => exact hright depth (by omega)
  refine binaryRule_of_unaryRule hname fun start left hleft => ?_
  rw [← (Twins.isArrow (h := hleft)).eq]
  have hprecedence : 0 ≤ InfixOperator.precedence (.logical .or) := Nat.zero_le _
  refine rounds_of_operator h.inAllowed hprecedence hoperand fun m right' span hright' => ?_
  exact hgo start m _ (.logical .or)

/-- The parentheses are the test of a conditional expression. -/
theorem conditional_test (hle : depth ≤ deepest) (harrow : e.isArrow = false) :
    Parses atRest (ofDepth options hooks bound depth).conditional context
      (.of (.punctuator .lParen) :: (inside ++ (OperandUse.test.backLexemes ++ [.of .endOfInput])))
      (Twins (OperandUse.test.toExpression e)) [.of .endOfInput] := by
  have hlooser {token : Token} (hnone : InfixOperator.ofToken? true token = none) :
      token.BindsLooser 0 := by
    intro operator hoperator
    rw [hnone] at hoperator
    cases hoperator
  have hnumber (value : Nat) {next : Lexeme} {rest : List Lexeme}
      (hnone : InfixOperator.ofToken? true next.token = none)
      (hsubscript : next.token.opensSubscript = false)
      (hupdate : UpdateOperator.ofToken? next.token = none)
      (hassign : AssignmentOperator.ofToken? next.token = none)
      (hquestion : next.token ≠ .punctuator .question) :
      Parses atRest (ofDepth options hooks bound depth).assignment context
        (.of (.number (.ofNat value)) :: next :: rest) (Twins (OperandUse.literal value))
        (next :: rest) :=
    h.assignment_of_unaryRule rfl (hlooser hnone) hassign hquestion
      (fun depth _ => h.unaryRule_number value hsubscript hupdate) hle
  have htest : Parses atRest ((ofDepth options hooks bound depth).binaryRule 0) context
      (.of (.punctuator .lParen) :: (inside ++ (OperandUse.test.backLexemes ++ [.of .endOfInput])))
      (Twins e) (OperandUse.test.backLexemes ++ [.of .endOfInput]) :=
    binaryRule_alone h.inAllowed (hlooser rfl) (h.unaryRule hle (by decide) (fun _ => rfl) rfl)
  refine startPosition.step fun start => htest.bind fun e' he => ?_
  rw [← (Twins.isArrow (h := he)).eq, harrow]
  refine (accept rfl rfl).seq ?_
  refine (allowingIn h.inAllowed (hnumber 1 rfl rfl rfl rfl (by decide))).bind
    fun consequent hconsequent => ?_
  refine (expect rfl rfl).step fun _ => ?_
  refine (hnumber 2 rfl rfl rfl rfl (by decide)).bind fun alternate halternate => ?_
  exact (spanFrom start).step fun span => pure .conditional

/-- Unless they hold an arrow function, the parentheses read as any other operand. -/
theorem expression_use (use : OperandUse) (harrow : e.isArrow = false) (hle : depth ≤ deepest) :
    Parses atRest (ofDepth options hooks bound depth).expression context
      (use.frontLexemes ++ (inside ++ (use.backLexemes ++ [.of .endOfInput])))
      (Twins (use.toExpression e)) [.of .endOfInput] := by
  have hlooser : Token.endOfInput.BindsLooser 0 := nofun
  have hbinary {first : Lexeme} {lexemes : List Lexeme} {x : Expression}
      (hfirst : first.token.opensOperand = true)
      (h' : ∀ depth ≤ deepest, Parses atRest ((ofDepth options hooks bound depth).binaryRule 0)
        context (first :: lexemes) (Twins x) [.of .endOfInput]) :
      Parses atRest (ofDepth options hooks bound depth).expression context (first :: lexemes)
        (Twins x) [.of .endOfInput] :=
    expression_of_conditional hfirst rfl (by decide)
      (fun depth hle => conditional_of_binaryRule (h' depth hle) fun _ _ _ => by decide) hle
  cases use with
  | callee =>
    exact hbinary rfl fun depth hle =>
      binaryRule_alone h.inAllowed hlooser (h.unaryRule_callee hle harrow)
  | object =>
    exact hbinary rfl fun depth hle =>
      binaryRule_alone h.inAllowed hlooser (h.unaryRule_object hle harrow)
  | summand =>
    exact hbinary rfl fun depth hle => h.binaryRule_summand hle harrow (Nat.zero_le _)
  | alternative =>
    exact hbinary rfl fun depth hle => h.binaryRule_alternative
      (fun depth hle => h.binaryRule_summand hle harrow (by decide))
      (fun start m left hleft => rounds_stop h.inAllowed hlooser hleft) hle
  | test =>
    exact expression_of_conditional rfl rfl (by decide)
      (fun depth hle => h.conditional_test hle harrow) hle

/-- Nothing that follows an arrow function in parentheses belongs to it. -/
theorem binaryRule_arrow (hle : depth ≤ deepest) (harrow : e.isArrow = true) {least : Nat}
    (hnext : next.token ≠ .punctuator .arrow)
    (hupdate : UpdateOperator.ofToken? next.token = none) :
    Parses atRest ((ofDepth options hooks bound depth).binaryRule least) context
      (.of (.punctuator .lParen) :: (inside ++ next :: rest)) (Twins e) (next :: rest) := by
  have hunary : Parses atRest (ofDepth options hooks bound depth).unaryRule context
      (.of (.punctuator .lParen) :: (inside ++ next :: rest)) (Twins e) (next :: rest) := by
    refine h.unaryRule hle hnext (fun hnone => ?_) hupdate
    rw [harrow] at hnone
    cases hnone
  refine binaryRule_of_unaryRule hunary fun start e' he => ?_
  rw [← (Twins.isArrow (h := he)).eq, harrow]
  exact pure he

/-- The program that the expression is as its only statement, up to spans. -/
theorem program_of_expression {x : Expression} (hfirst : first.token.opensOperand = true)
    (hx : ∀ span, (Statement.expression x span).directive? = none)
    (hexpression : ∀ depth ≤ deepest, Parses atRest (ofDepth options hooks bound depth).expression
      context (first :: lexemes) (Twins x) [.of .endOfInput]) :
    Parses atRest (ofDepth options hooks bound deepest).program context (first :: lexemes)
      (·.bare = (Program.ofExpression x).bare) [.of .endOfInput] := by
  have hdirective (x' : Expression) (span : Span) (hx' : Twins x x') :
      (Statement.expression x' span).directive? = none := by
    have hstatements : Twins (Statement.expression x span) (.expression x' span) := inferInstance
    rw [← (Twins.directive? (h := hstatements)).eq, hx]
  refine (parses_program h.reset hfirst false (fun inner hinner => hexpression inner hinner.le)
    hdirective).mono ?_
  rintro _ ⟨_, span, rfl, x', span', rfl, hx'⟩
  have hstatements : Twins [Statement.expression x (.empty .start)] [.expression x' span'] :=
    inferInstance
  exact congrArg (Program.mk · (.empty .start)) hstatements.bare_eq.symm

/-- Unless they hold an arrow function, the parentheses are used as any other operand. -/
theorem program_use (use : OperandUse) (harrow : e.isArrow = false) :
    Parses atRest (ofDepth options hooks bound deepest).program context
      (use.frontLexemes ++ (inside ++ (use.backLexemes ++ [.of .endOfInput])))
      (·.bare = (Program.ofExpression (use.toExpression e)).bare) [.of .endOfInput] := by
  have hexpression := fun depth hle => @h.expression_use _ _ _ _ _ depth _ _ _ _ use harrow hle
  cases use <;> exact h.program_of_expression rfl (fun _ => rfl) hexpression

/-- Behind `||` an arrow function in parentheses is the whole operand. -/
theorem program_misreading (use : OperandUse) (harrow : e.isArrow = true) {x : Expression}
    (hx : use.misreading e = some x) :
    Parses atRest (ofDepth options hooks bound deepest).program context
      (use.frontLexemes ++ (inside ++ (use.backLexemes ++ [.of .endOfInput])))
      (·.bare = (Program.ofExpression x).bare) [.of .endOfInput] := by
  cases use with
  | alternative =>
    cases hx
    refine h.program_of_expression rfl (fun _ => rfl) fun depth hle => ?_
    refine expression_of_conditional rfl rfl (by decide) (fun depth hle => ?_) hle
    refine conditional_of_binaryRule ?_ fun _ _ _ => by decide
    exact h.binaryRule_alternative
      (fun depth hle => h.binaryRule_arrow hle harrow (by decide) rfl)
      (fun start m left hleft => h.rounds_add (Nat.zero_le _) hleft) hle
  | _ => cases hx

/-- What follows an arrow function in parentheses is refused. -/
theorem refused_program (use : OperandUse) (harrow : e.isArrow = true)
    (hnone : use.misreading e = none) :
    Refused atRest (ofDepth options hooks bound deepest).program context
      (use.frontLexemes ++ (inside ++ (use.backLexemes ++ [.of .endOfInput]))) := by
  have hlabel (e' : Expression) (he : Twins e e') : labelOf? e' = none := by
    cases e' with
    | identifier name span =>
      have hsame : e.isArrow = false := (Twins.isArrow (h := he)).eq
      rw [harrow] at hsame
      cases hsame
    | _ => rfl
  have hrefused {next : Lexeme} {rest : List Lexeme} (hline : next.newlineBefore = false)
      (hstop : next.token ≠ .punctuator .semicolon ∧ next.token ≠ .endOfInput ∧
        next.token ≠ .punctuator .rBrace)
      (hnext : next.token ≠ .punctuator .arrow)
      (hupdate : UpdateOperator.ofToken? next.token = none)
      (hassign : AssignmentOperator.ofToken? next.token = none)
      (hcomma : next.token ≠ .punctuator .comma) :
      Refused atRest (ofDepth options hooks bound deepest).program context
        (.of (.punctuator .lParen) :: (inside ++ next :: rest)) := by
    have hexpression (depth : Nat) (hdepth : depth < deepest) : Parses atRest
        (ofDepth options hooks bound depth).expression context
        (.of (.punctuator .lParen) :: (inside ++ next :: rest)) (Twins e) (next :: rest) := by
      refine expression_of_conditional rfl hassign hcomma (fun depth hle => ?_) hdepth.le
      refine conditional_of_binaryRule (h.binaryRule_arrow hle harrow hnext hupdate)
        fun e' he hfalse => ?_
      rw [← (Twins.isArrow (h := he)).eq, harrow] at hfalse
      cases hfalse
    exact Refused.program h.reset rfl hlabel hline hstop hexpression
  cases use with
  | alternative => cases hnone
  | _ => exact hrefused rfl (by decide) (by decide) rfl rfl (by decide)

end ReadsEnclosed

end EcmaScript
