import EcmaScript.Proofs.Survey.Primary

/-!
Member accesses, calls and operators, surveyed.

What is applied to a primary expression takes `super` as the object of a member access or as the
callee of a call; where nothing is applied to an expression, the token behind it shows that it is
not `super`.
-/

namespace EcmaScript

def Expression.IsProperty (e : Expression) : Prop := e.role = .operand ∨ e.role = .privateName

/-- The expression may be the object of a member access or the callee of a call. -/
def Expression.IsBase (e : Expression) : Prop := e.role = .operand ∨ e.role = .super

theorem Expression.Opens.isBase {e : Expression} {lexer : Lexer} (h : e.Opens lexer) : e.IsBase :=
  h.imp_right And.left

/-- What is next shows that the expression is not `super`. -/
theorem Expression.Opens.isOperand {e : Expression} {lexer : Lexer} {test : Token → Prop}
    (h : e.Opens lexer) (hfaces : lexer.Faces test)
    (htest : ∀ token, test token → token.followsSuper = false) : e.IsOperand := by
  rcases h with hoperand | ⟨-, hfollows⟩
  · exact hoperand
  · obtain ⟨next, -, htrue, hpasses⟩ := hfollows.and hfaces
    rw [htest _ hpasses] at htrue
    cases htrue

namespace Token

theorem followsSuper_eq_false {token : Token} (hparen : token ≠ .punctuator .lParen)
    (hdot : token ≠ .punctuator .dot) (hbracket : token ≠ .punctuator .lBracket) :
    token.followsSuper = false := by
  unfold followsSuper
  split
  · exact absurd rfl hparen
  · exact absurd rfl hdot
  · exact absurd rfl hbracket
  · rfl

def beginsTemplate : Token → Bool
  | .templateLiteral _ | .templateHead _ => true
  | _ => false

theorem followsSuper_of_beginsTemplate {token : Token} (h : token.beginsTemplate = true) :
    token.followsSuper = false := by
  cases token with
  | templateLiteral | templateHead => rfl
  | _ => cases h

end Token

namespace Survey

open Parse

variable {σ α β : Type} {S : Survey σ} {g : Grammar σ} {around : List Node.Step} {low : Nat}
  [hg : Surveyed S g]

/-! ## Member accesses and calls -/

/-- A private name may be the property behind a dot. -/
theorem recasts_privateName_property {name : PrivateName}
    (h : S.Formed around (.expression (.privateName name))) :
    S.Recasts around (plain [.expression (.privateName name)])
      [.here .property (.expression (.privateName name))] :=
  .leaf h rfl rfl rfl rfl rfl rfl rfl rfl (by rintro _ ⟨⟩) ⟨trivial, trivial, fun _ => trivial⟩

namespace Yields

instance memberProperty :
    Yields S g.memberProperty (fun e => [.here .property (.expression e)]) Expression.IsProperty where
  yields around low := by
    unfold Grammar.memberProperty
    refine .observe fun c => .ite (fun _ => .step fun name _ => ?_) fun _ => ?_
    · refine .formed fun hformed => ?_
      have hname : S.Exact name.span.start := hformed.start rfl
      refine .bind (.hook (hg.hooks.referenceName name g.options hname)) fun c => ?_
      refine .required (fun _ => .unexpectedAt hname) fun _ => ?_
      exact .pure fun _ h => ⟨.inr rfl, Past.recast [] h (recasts_privateName_property hformed)⟩
    · refine .start fun start hstart => .token (.unexpectedAt hstart) fun token => ?_
      split
      case _ | _ =>
        refine .done hstart (fun _ => .plain nofun ⟨?_, trivial, fun _ => trivial⟩) fun _ => .inl rfl
        exact fun hno => absurd rfl hno
      · exact .halt (.unexpectedAt hstart)

instance computedProperty :
    Yields S g.computedProperty (one .expression) Expression.IsOperand where
  yields around low := by
    unfold Grammar.computedProperty
    refine .step fun property hproperty => ?_
    exact .advance fun _ => .pure fun _ h => ⟨hproperty, h⟩

end Yields

instance Tests.nextIsTemplate :
    Tests S (Grammar.nextIsTemplate : Parse σ Bool) Token.beginsTemplate where
  tests around lexer := by
    unfold Grammar.nextIsTemplate
    refine .bind (.lookahead _ lexer) fun token => ?_
    have hend (b : Bool) (hb : token.beginsTemplate = b) :
        S.Does around (fun lexer' => ∃ next, S.Looked lexer next lexer' ∧ token = next.token)
          (Pure.pure b) fun b lexer' =>
            S.Same lexer lexer' ∧ lexer'.Faces (·.beginsTemplate = b) := by
      refine .pure ?_
      rintro lexer' ⟨next, hlooked, rfl⟩
      exact ⟨hlooked.same, next, hlooked.ahead, hb⟩
    cases token <;> exact hend _ rfl

section Subscripts

variable {start : Position} {base : Expression}

theorem Does.optionalLink (hstart : S.Exact start) (hbase : base.IsBase) :
    S.Does around (S.Past around start.offset (one .expression base)) (g.optionalLink base start)
      (S.Made around start.offset (one .expression) Expression.IsOperand) := by
  unfold Grammar.optionalLink
  refine .observe fun c => .ite (fun _ => .step fun arguments harguments => ?_) fun _ => ?_
  · exact .done hstart (fun _ => ⟨rfl, rfl, rfl, rfl, ⟨hbase, harguments⟩, ⟨trivial, trivial⟩,
      trivial, trivial, fun _ => trivial⟩) fun _ => rfl
  refine .proceed fun c => .ite (fun _ => .step fun property hproperty => ?_) fun _ => ?_
  · exact .done hstart
      (fun _ => ⟨rfl, rfl, rfl, rfl, ⟨hbase, .inl hproperty⟩, ⟨trivial, trivial⟩, trivial, trivial,
      fun _ => trivial⟩) fun _ => rfl
  · refine .step fun property hproperty => .done hstart
      (fun _ => ⟨rfl, rfl, rfl, rfl, ⟨hbase, ?_⟩, ⟨trivial, trivial⟩, trivial, trivial,
      fun _ => trivial⟩) fun _ => rfl
    exact hproperty.imp_right fun hprivate => ⟨hprivate, rfl⟩

/-- One more access or call, and then perhaps more of them. -/
theorem Does.applied (make : Span → Expression) {ps : List Node.Part} (hstart : S.Exact start)
    (hmake : ∀ span, S.Composed around .ordinary (.expression (make span)) span ps)
    (hrole : ∀ span, (make span).IsOperand) {Q : Expression → Lexer → Prop} :
    S.Does around (S.Past around start.offset ps)
      (spanFrom start >>= fun span => Pure.pure (Round.again (make span))) fun r lexer =>
        r.Holds (S.Opened around start.offset · lexer) (Q · lexer) :=
  .made (fun span => .expression (make span)) hstart (fun stop => hmake ⟨start, stop⟩) fun span =>
    .pure fun _ h => ⟨h, .inl (hrole span)⟩

theorem Does.callOrAsyncArrow {fit : Expression → Prop} (hfit : ∀ e, e.IsOperand → fit e)
    (hstart : S.Exact start) (hbase : base.IsBase) :
    S.Does around (S.Past around start.offset (one .expression base))
      (g.callOrAsyncArrow base start) fun r lexer =>
        r.Holds (S.Opened around start.offset · lexer)
          (S.Made around start.offset (one .expression) fit · lexer) := by
  unfold Grammar.callOrAsyncArrow
  refine .pointwise fun lexer htracks hfront => .bind (.arguments lexer) fun arguments => ?_
  refine .assume (fun _ h => And.intro h.1 h.2.1) fun ⟨hparen, harguments⟩ => ?_
  refine .weaken (P := S.Past around (lexer.nextStart + 1) (many .expression arguments)) ?_
    fun _ _ h => h.2.2
  have hcall : S.Does around (S.Past around (lexer.nextStart + 1) (many .expression arguments))
      (spanFrom start >>= fun span => Pure.pure (Round.again (.call base arguments false span)))
      fun r lexer => r.Holds (S.Opened around start.offset · lexer)
        (S.Made around start.offset (one .expression) fit · lexer) := by
    refine .weaken (P := S.Past around start.offset
      (one .expression base ++ many .expression arguments)) (.applied
        (fun span => .call base arguments false span) hstart (fun _ => ⟨rfl, rfl, rfl, rfl,
          ⟨hbase, harguments⟩, ⟨trivial, trivial⟩, trivial, trivial, fun _ => trivial⟩)
        fun _ => rfl) fun _ _ h => ?_
    exact .append (hfront.before htracks).fills (h.mono fun _ => Nat.le_succ _)
  refine .ite (fun _ => .observe fun c => .ite (fun _ => .nameRules hg.goal fun rules hrules => ?_)
    fun _ => hcall) fun _ => hcall
  refine .assume (fun _ h => h.formed) fun hformed => ?_
  have hexpressions : ∀ e ∈ arguments, S.Formed around (.expression e) :=
    List.forall_mem_map.1 (allFormed_plain.1 hformed)
  refine .ensure (.argumentsToParams hrules arguments hexpressions)
    fun params ⟨hrecasts, hparams⟩ => ?_
  -- The name `async` in front of the parameters is no part of the arrow function.
  have hbehind (hpositioned : S.positioned) : start.offset < lexer.nextStart :=
    Nat.lt_of_lt_of_le (hfront.less hpositioned) (htracks hpositioned).last_le_nextStart
  refine .weaken (.bind (.arrowFunction hstart hparams true (by rintro ⟨⟩)
    (fun hpositioned => Nat.le_succ_of_le (Nat.le_of_lt (hbehind hpositioned)))
    fun _ hpositioned => .inr ⟨_, hbehind hpositioned, hparen hpositioned, Nat.le_refl _⟩)
    fun arrow => .pure fun _ h => ⟨hfit _ h.1, h.2⟩) fun _ _ h => Past.recast [] h hrecasts

structure EndsSubscripts (calleeOfNew : Bool) (e : Expression) : Prop where
  base : e.IsBase
  operand : calleeOfNew = false → e.IsOperand

/-- A template behind an expression, or the end of what is applied to it. -/
theorem Does.tagOrStop (hstart : S.Exact start) (base : Expression) {calleeOfNew : Bool}
    {test : Token → Prop}
    (htest : calleeOfNew = false → ∀ token, test token → token.followsSuper = false) :
    S.Does around (Also (S.Opened around start.offset base) (Lexer.Faces test)) (do
      if ← Grammar.nextIsTemplate then
        if base.inOptionalChain then
          fail (.optionalChain .templateTag) (← startPosition)
        let quasi ← g.templateLiteral
        return Round.again (Expression.taggedTemplate base quasi (← spanFrom start))
      return Round.stop base) fun r lexer =>
        r.Holds (S.Opened around start.offset · lexer)
          (S.Made around start.offset (one .expression) (EndsSubscripts calleeOfNew) · lexer) := by
  refine .ifNext ?_ ?_
  · refine .assume (fun _ h => h.1.1.2.isOperand h.2 fun _ => Token.followsSuper_of_beginsTemplate)
      fun hbase => .ite (fun _ => .here fun place hplace => .haltThen (.fail _ hplace)) fun _ => ?_
    refine .step fun quasi hquasi => ?_
    exact .applied (fun span => .taggedTemplate base quasi span) hstart
      (fun _ => .plain (by simp [hbase, hquasi])) fun _ => rfl
  · refine .pure fun _ h => ⟨⟨h.1.1.2.isBase, fun hcallee => ?_⟩, h.1.1.1⟩
    exact h.1.1.2.isOperand h.1.2 (htest hcallee)

theorem Does.subscriptsRound (hstart : S.Exact start) (calleeOfNew : Bool) (base : Expression) :
    S.Does around (S.Opened around start.offset base) (g.subscriptsRound start calleeOfNew base)
      fun r lexer => r.Holds (S.Opened around start.offset · lexer)
        (S.Made around start.offset (one .expression) (EndsSubscripts calleeOfNew) · lexer) := by
  unfold Grammar.subscriptsRound
  refine .assume (fun _ h => h.2.isBase) fun hbase => ?_
  refine .ifAccepted (.step fun property hproperty => ?_) ?_
  · refine .applied (fun span => .member base property false false span) hstart
      (fun _ => ⟨rfl, rfl, rfl, rfl, ⟨hbase, ?_⟩, ⟨trivial, trivial⟩, trivial, trivial,
      fun _ => trivial⟩) fun _ => rfl
    exact hproperty.imp_right fun hprivate => ⟨hprivate, rfl⟩
  refine .ifNext ?_ ?_
  · refine .ite (fun _ => .here fun place hplace => .haltThen (.fail _ hplace)) fun _ => ?_
    refine .skipping ?_ (.bind (.optionalLink hstart hbase) fun link => ?_)
    · rintro _ hchain rfl
      cases hchain
    · exact .pure fun _ h => ⟨h.2, .inl h.1⟩
  refine .ifAccepted (.step fun property hproperty => ?_) ?_
  · exact .applied (fun span => .member base property true false span) hstart
      (fun _ => ⟨rfl, rfl, rfl, rfl, ⟨hbase, .inl hproperty⟩, ⟨trivial, trivial⟩, trivial, trivial,
      fun _ => trivial⟩) fun _ => rfl
  refine .ite (fun hcallee => .ifNext ?_ ?_) fun hcallee => ?_
  · refine (callOrAsyncArrow (fun e he => ⟨.inl he, fun _ => he⟩) hstart hbase).weaken ?_
    exact fun _ _ h => h.1.1.1.1.1
  · refine (tagOrStop hstart base fun _ token htoken => ?_).weaken fun _ _ h =>
      ⟨h.1.1.1.1, (h.1.1.1.2.and h.1.2).and h.2⟩
    obtain ⟨⟨hdot, hbracket⟩, hparen⟩ := htoken
    exact Token.followsSuper_eq_false (by simpa using hparen) hdot hbracket
  · refine (tagOrStop hstart base fun hfalse => ?_).weaken fun _ _ h => ⟨h.1.1.1, h.2⟩
    simp [hfalse] at hcallee

theorem Does.subscripts (hstart : S.Exact start) (calleeOfNew : Bool) (base : Expression) :
    S.Does around (S.Opened around start.offset base) (g.subscripts base start calleeOfNew)
      (S.Made around start.offset (one .expression) (EndsSubscripts calleeOfNew)) :=
  .loop (Does.subscriptsRound hstart calleeOfNew) fun _ h => h

end Subscripts

namespace Yields

instance newExpressionRule :
    Yields S g.newExpressionRule (one .expression) Expression.IsOperand where
  yields around low := by
    unfold Grammar.newExpressionRule
    refine .start fun start hstart => .advance fun _ => ?_
    refine .inner fun calleeStart hcalleeStart hfront => ?_
    have hend (callee : Expression) (arguments : List Expression) (hcallee : callee.IsBase)
        (harguments : ∀ e ∈ arguments, e.IsArgument) :
        S.Does around
          (S.Past around start.offset (one .expression callee ++ many .expression arguments))
          (do return .new callee arguments (← spanFrom start))
          (S.Made around start.offset (one .expression) Expression.IsOperand) :=
      .done hstart (fun _ => ⟨rfl, rfl, rfl, rfl, ⟨hcallee, harguments⟩, ⟨trivial, trivial⟩,
        trivial, trivial, fun _ => trivial⟩) fun _ => rfl
    have hrest (callee : Expression) : S.Does around (S.Opened around calleeStart.offset callee) (do
        let callee ← g.subscripts callee calleeStart true
        let arguments ← if ← nextIs .lParen then g.arguments else pure []
        return .new callee arguments (← spanFrom start))
        (S.Made around start.offset (one .expression) Expression.IsOperand) := by
      refine .after (.subscripts hcalleeStart true callee) fun callee hcallee => ?_
      refine .weaken (P := S.Past around start.offset (one .expression callee)) ?_ fun _ _ h =>
        Past.append hfront h
      refine .observe fun c => .ite (fun _ => .step fun arguments harguments => ?_) fun _ => ?_
      · exact hend callee arguments hcallee.base harguments
      · exact hend callee [] hcallee.base nofun
    refine .observe fun c => .ite (fun _ => ?_) fun _ => .bind .primary hrest
    exact .bind (.opened (hg.newExpression.yields around _)) hrest

instance leftHandSideRule :
    Yields S g.leftHandSideRule (one .expression) Expression.IsOperand where
  yields around low := by
    unfold Grammar.leftHandSideRule
    have hrest {start : Position} (hstart : S.Exact start) (base : Expression) :
        S.Does around (S.Opened around start.offset base) (do
          if base.isArrow then
            return base
          g.subscripts base start false)
          (S.Made around start.offset (one .expression) Expression.IsOperand) := by
      refine .ite (fun harrow => .pure fun _ h => ⟨?_, h.1⟩) fun _ => ?_
      · cases base with
        | arrow => rfl
        | _ => cases harrow
      · exact (Does.subscripts hstart false base).mono (fun _ _ h => h) fun _ _ _ h =>
          ⟨h.1.operand rfl, h.2⟩
    refine .start fun start hstart => .observe fun c => .ite (fun _ => ?_) fun _ => ?_
    · exact .bind (.opened (newExpressionRule.yields around _)) (hrest hstart)
    · exact .bind .primary (hrest hstart)

end Yields

/-! ## Operators -/

/-- `delete` of a name is refused in strict code. -/
theorem Does.checkDelete {P : Lexer → Prop} (operator : UnaryOperator) (argument : Expression)
    {start : Position} (hstart : S.Exact start) :
    S.Does around P (Grammar.checkDelete operator argument start) fun _ => Also P fun _ =>
      ∀ span, S.IsNamed around .ordinary (.expression (.unary operator argument span)) := by
  unfold Grammar.checkDelete
  refine .strictContext fun context hstrict => .ite (fun _ => ?_) fun hno => ?_
  · cases argument with
    | identifier => exact .halt (.fail _ hstart)
    | _ => exact .pure fun _ h => ⟨h, fun _ => by cases operator <;> trivial⟩
  · refine .pure fun _ h => ⟨h, fun span => ?_⟩
    cases operator with
    | delete =>
      cases argument with
      | identifier => exact fun h => hno (by rw [hstrict h]; rfl)
      | _ => trivial
    | _ => trivial

/-- An update of what may be assigned to. -/
theorem composed_update {usage : Node.Usage} (operator : UpdateOperator) (isPrefix : Bool)
    {argument : Expression} (span : Span) (hargument : argument.IsOperand)
    (hassignable : argument.IsAssignable)
    (hassigns : ∀ name span, argument = .identifier name span → S.Assigns around name) :
    S.Composed around usage (.expression (.update operator isPrefix argument span)) span
      (one .expression argument) := by
  refine .plain (by simp [hargument]) ⟨?_, trivial, fun _ => trivial⟩ rfl rfl rfl rfl rfl
    ⟨hassignable, trivial⟩
  cases argument with
  | identifier name span => exact hassigns name span rfl
  | _ => trivial

instance Continues.updateBehind (start : Position) :
    Continues S start (g.updateBehind start) (one .expression) Expression.IsOperand where
  continues around hstart := by
    unfold Grammar.updateBehind
    refine .step fun argument hargument => .observe fun token => ?_
    split
    · exact .pure fun _ h => ⟨hargument, h⟩
    refine .observe fun newline => .ite (fun _ => .pure fun _ h => ⟨hargument, h⟩) fun _ => ?_
    refine .formed fun hformed => .nameRules hg.goal fun rules hrules => ?_
    refine .ensure (.simpleTarget hrules argument (hformed.start rfl))
      fun _ ⟨hassignable, hassigns⟩ => .proceed fun _ => ?_
    exact .done hstart (fun _ => composed_update _ _ _ hargument hassignable hassigns) fun _ => rfl

namespace Yields

instance unaryBody : Yields S g.unaryBody (one .expression) Expression.IsOperand where
  yields around low := by
    unfold Grammar.unaryBody
    refine .start fun start hstart => .observe fun token => ?_
    split
    · refine .proceed fun _ => .step fun argument hargument => ?_
      refine .bind (.checkDelete _ _ hstart) fun _ => .assume (fun _ h => h.2) fun hnamed => ?_
      refine .weaken (.done hstart (fun _ => .plain (by simp [hargument])
        ⟨hnamed _, trivial, fun _ => trivial⟩) fun _ => rfl) fun _ _ h => h.1
    split
    · refine .proceed fun _ => .step fun argument hargument => .nameRules hg.goal fun rules hrules => ?_
      refine .formed fun hformed => ?_
      refine .ensure (.simpleTarget hrules argument (hformed.start rfl))
        fun _ ⟨hassignable, hassigns⟩ => ?_
      exact .done hstart (fun _ => composed_update _ _ _ hargument hassignable hassigns) fun _ => rfl
    refine .context fun context hgrants => .ite (fun hawait => ?_) fun _ => ?_
    · rw [Bool.and_eq_true] at hawait
      refine .proceed fun _ => .step fun argument hargument => ?_
      refine .done hstart (fun _ => ⟨rfl, rfl, rfl, hgrants.allowAwait hawait.1, ?_,
        ⟨trivial, trivial⟩, trivial, trivial, fun _ => trivial⟩) fun _ => rfl
      change ∀ c ∈ [Node.expression argument], c.isOrdinary
      simp [hargument]
    · exact (Continues.updateBehind start).continues around hstart

instance unaryRule : Yields S g.unaryRule (one .expression) Expression.IsOperand where
  yields around low := by
    unfold Grammar.unaryRule
    refine .step fun value hvalue => .formed fun hformed => ?_
    refine .bind (.hook (hg.hooks.afterUnary value (hformed.start rfl))) fun _ => ?_
    exact .pure fun _ h => ⟨hvalue, h⟩

end Yields

theorem Does.binaryRound {start : Position} (hstart : S.Exact start) (least : Nat)
    (left : Expression) :
    S.Does around (S.Made around start.offset (one .expression) Expression.IsOperand left)
      (g.binaryRound start least left) fun r lexer =>
        r.Holds (S.Made around start.offset (one .expression) Expression.IsOperand · lexer)
          (S.Made around start.offset (one .expression) Expression.IsOperand · lexer) := by
  refine .assume (fun _ h => h.1) fun hleft => ?_
  refine .weaken (P := S.Past around start.offset (one .expression left)) ?_ fun _ _ h => h.2
  unfold Grammar.binaryRound
  refine .observe fun context => .observe fun token => ?_
  split
  · exact .pure fun _ h => ⟨hleft, h⟩
  · next operator _ =>
    refine .ite (fun _ => .pure fun _ h => ⟨hleft, h⟩) fun _ => .proceed fun _ => ?_
    refine .step fun right hright => .made (fun span => .expression (operator.join left right span))
      hstart (fun span => ?_) fun span => .pure fun _ h => ⟨?_, h⟩
    · cases operator <;> exact .plain (by simp [InfixOperator.join, hleft, hright])
    · cases operator <;> rfl

namespace Yields

instance binaryRule (least : Nat) :
    Yields S (g.binaryRule least) (one .expression) Expression.IsOperand where
  yields around low := by
    unfold Grammar.binaryRule
    refine .start fun start hstart => .step fun first hfirst => ?_
    refine .ite (fun _ => .pure fun _ h => ⟨hfirst, h⟩) fun _ => ?_
    exact .loop (Does.binaryRound hstart least) fun _ h => ⟨hfirst, h⟩

instance conditional : Yields S g.conditional (one .expression) Expression.IsOperand where
  yields around low := by
    unfold Grammar.conditional
    refine .start fun start hstart => .step fun test htest => ?_
    refine .ite (fun _ => .pure fun _ h => ⟨htest, h⟩) fun _ => .proceed fun c => ?_
    refine .ite (fun _ => ?_) fun _ => .pure fun _ h => ⟨htest, h⟩
    refine .step fun consequent hconsequent => .advance fun _ => ?_
    refine .step fun alternate halternate => ?_
    exact .done hstart (fun _ => .plain (by simp [htest, hconsequent, halternate])) fun _ => rfl

end Yields

/-! ## Assignments -/

theorem Does.yieldExpression {test : Token → Prop}
    (htest : ∀ token, test token → token ≠ .endOfInput)
    (hyield : Enclosure.allowYield (Node.enclosures around)) :
    S.Does around (Also (S.Before around low []) (Lexer.Faces test)) g.yieldExpression
      (S.Made around low (one .expression) Expression.IsOperand) := by
  unfold Grammar.yieldExpression
  refine .startFacing fun start hstart => .skipping htest (.observe fun newline => ?_)
  refine .observe fun token => .ite (fun _ => ?_) fun _ => .proceed fun delegate => ?_
  · exact .done hstart (fun _ => ⟨rfl, rfl, rfl, hyield, nofun, ⟨trivial, trivial⟩, trivial, trivial,
      fun _ => trivial⟩) fun _ => rfl
  · refine .step fun argument hargument => .done hstart
      (fun _ => ⟨rfl, rfl, rfl, hyield, ?_, ⟨trivial, trivial⟩, trivial, trivial,
      fun _ => trivial⟩) fun _ => rfl
    change ∀ c ∈ [Node.expression argument], c.isOrdinary
    simp [hargument]

instance Yields.assignmentRule :
    Yields S g.assignmentRule (one .expression) Expression.IsOperand where
  yields around low := by
    unfold Grammar.assignmentRule
    have hrest : S.Does around (S.Before around low []) (do
        let start ← startPosition
        let left ← g.conditional
        match AssignmentOperator.ofToken? (← peek) with
        | none => return left
        | some operator =>
          let target ← ensure (left.toTarget (← g.nameRules) operator)
          skip
          let value ← g.assignment
          return .assignment operator target value (← spanFrom start))
        (S.Made around low (one .expression) Expression.IsOperand) := by
      refine .start fun start hstart => .step fun left hleft => .observe fun token => ?_
      split
      · exact .pure fun _ h => ⟨hleft, h⟩
      · refine .formed fun hformed => .nameRules hg.goal fun rules hrules => ?_
        refine .ensure (.toTarget hrules _ left hformed) fun target ⟨htarget, hfits⟩ => ?_
        refine .weaken (P := S.Past around start.offset (one .assignmentTarget target)) ?_
          fun _ _ h => Past.recast [] h htarget
        refine .proceed fun _ => .step fun value hvalue => ?_
        exact .done hstart (fun _ => .plain (by simp [hvalue]) ⟨trivial, trivial, fun _ => trivial⟩
          rfl rfl rfl rfl rfl (hfits.isSettable value _)) fun _ => rfl
    refine .context fun context hgrants => .ite (fun hgenerator => .ifNext ?_ ?_) fun _ => hrest
    · refine .yieldExpression ?_ (hgrants.allowYield hgenerator)
      rintro _ hword rfl
      cases hword
    · exact hrest.weaken fun _ _ h => h.1

end Survey

end EcmaScript
