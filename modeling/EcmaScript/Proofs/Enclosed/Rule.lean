import EcmaScript.Proofs.Enclosed.Run

/-!
Rules up to the end of the source, copied in front of a closing parenthesis.

Two grammars are tied if the rules of the second one copy those of the first one. Each rule is
built of others in the same way in both grammars, so it is copied as well, with instances in the
order of the rules; and grammars of any depth are tied, by induction on the depth.
-/

namespace EcmaScript

variable {σ α β κ : Type}

/-- The second grammar does what the first one does, up to positions, and takes a closing
parenthesis for the end of the source. -/
class Tied (R : σ → σ → Prop) (g g' : Grammar σ) : Prop where
  options_eq : g'.options = g.options
  hooks_eq : g'.hooks = g.hooks
  ignores : g.hooks.IgnorePositions R
  atEnd : ∀ {atom atom' : Expression}, Twins atom atom' →
    Echoed R (g.hooks.afterAtom atom .endOfInput) (g.hooks.afterAtom atom' (.punctuator .rParen))
  orderly : ∀ {α κ : Type} [Bare α] {place : Setting} {known : Known} {after : α → Known}
    {script : Script α}, script.Orderly place known script after →
      Copies R known.view (script.denote g) (fun (_ : κ) => script.denote g') .alike
  assignment : Copies R .any g.assignment (fun (_ : Unit) => g'.assignment) .consuming
  binary : ∀ least, Copies R .any (g.binary least) (fun (_ : Unit) => g'.binary least) .consuming
  unary : Copies R .any g.unary (fun (_ : Unit) => g'.unary) .consuming
  leftHandSide : Copies R .any g.leftHandSide (fun (_ : Unit) => g'.leftHandSide) .consuming
  newExpression : Copies R .any g.newExpression (fun (_ : Unit) => g'.newExpression) .consuming

namespace Copies

open Parse Grammar

variable {R : σ → σ → Prop} {view : View} {reach reach' : Reach} [Bare α] [Bare β]
  {g g' : Grammar σ} [tied : Tied R g g']

instance assignment : Copies R view g.assignment (fun (_ : κ) => g'.assignment) .consuming :=
  (tied.assignment.reindex fun _ => ()).anywhere

instance binary (least : Nat) :
    Copies R view (g.binary least) (fun (_ : κ) => g'.binary least) .consuming :=
  ((tied.binary least).reindex fun _ => ()).anywhere

instance unary : Copies R view g.unary (fun (_ : κ) => g'.unary) .consuming :=
  (tied.unary.reindex fun _ => ()).anywhere

instance leftHandSide :
    Copies R view g.leftHandSide (fun (_ : κ) => g'.leftHandSide) .consuming :=
  (tied.leftHandSide.reindex fun _ => ()).anywhere

instance newExpression :
    Copies R view g.newExpression (fun (_ : κ) => g'.newExpression) .consuming :=
  (tied.newExpression.reindex fun _ => ()).anywhere

instance nameRules : Copies R view g.nameRules (fun (_ : κ) => g'.nameRules) .enclosed := by
  unfold Grammar.nameRules
  rw [tied.options_eq]
  exact step _ (fun _ => pure) rfl

/-- The check and the span of a name that has been read. -/
theorem checkedName (name : String) {start : Position} {start' : κ → Position} :
    Copies R .any
      (do
        let rules ← g.nameRules
        Parse.ensure (rules.checkWord name start)
        let span ← Parse.spanFrom start
        Pure.pure (name, span))
      (fun i => do
        let rules ← g'.nameRules
        Parse.ensure (rules.checkWord name (start' i))
        let span ← Parse.spanFrom (start' i)
        Pure.pure (name, span)) .enclosed :=
  step _ (fun _ => step _ (fun _ => stepTwins _ (fun _ => pure) rfl) rfl) rfl

instance identifierReference :
    Copies R view g.identifierReference (fun (_ : κ) => g'.identifierReference) .consuming := by
  unfold Grammar.identifierReference
  refine stepTwins .consuming (fun start => ?_) rfl
  refine taking (fun token => ?_) fun _ _ _ => nofun
  cases token with
  | identifier name _ => exact checkedName name
  | keyword word =>
    exact step .enclosed (fun _ => either _ _ (checkedName _) (fail_bind _ _) rfl) rfl
  | _ => exact (fail_bind _ _).atLeast rfl

instance bindingIdentifier :
    Copies R view g.bindingIdentifier (fun (_ : κ) => g'.bindingIdentifier) .consuming := by
  unfold Grammar.bindingIdentifier
  refine stepPair .enclosed (fun name span => ?_) rfl
  exact step _ (fun _ => step _ (fun _ => pure) rfl) rfl

instance privateName :
    Copies R view Grammar.privateName (fun (_ : κ) => Grammar.privateName) .consuming := by
  unfold Grammar.privateName
  refine stepTwins .consuming (fun start => ?_) rfl
  refine taking (fun token => ?_) fun _ _ _ => nofun
  cases token with
  | privateName name => exact either _ _ unexpected_bind (stepTwins _ (fun _ => pure) rfl) rfl
  | _ => exact atLeast (unexpectedAt _) rfl

instance nextIsPrivateName :
    Copies R view Grammar.nextIsPrivateName (fun (_ : κ) => Grammar.nextIsPrivateName)
      .enclosed := by
  unfold Grammar.nextIsPrivateName
  refine peek (fun token => ?_) fun _ _ => rfl
  cases token <;> exact pure

instance nextIsTemplate :
    Copies R view Grammar.nextIsTemplate (fun (_ : κ) => Grammar.nextIsTemplate) .enclosed := by
  unfold Grammar.nextIsTemplate
  refine peek (fun token => ?_) fun _ _ => rfl
  cases token <;> exact pure

/-! ## Parts in brackets -/

instance : IsInner .comma := ⟨nofun⟩
instance : IsInner .spread := ⟨nofun⟩
instance : IsInner .arrow := ⟨nofun⟩
instance : IsInner .star := ⟨nofun⟩
instance : IsInner .dot := ⟨nofun⟩
instance : IsInner .optionalChain := ⟨nofun⟩
instance : IsInner .question := ⟨nofun⟩
instance : IsInner .semicolon := ⟨nofun⟩
instance : IsInner .lParen := ⟨nofun⟩
instance : IsInner .lBracket := ⟨nofun⟩
instance : IsInner .rBracket := ⟨nofun⟩
instance : IsInner .lBrace := ⟨nofun⟩
instance : IsInner .rBrace := ⟨nofun⟩

/-- A rule that a script denotes. -/
theorem ofScript (rule : Grammar σ → Parse σ α) {script : Script α} {after : α → Known}
    (h : script.Orderly Script.programPlace .nothing script after)
    (hrule : ∀ g : Grammar σ, script.denote g = rule g) :
    Copies R view (rule g) (fun (_ : κ) => rule g') .alike := by
  rw [← hrule g, ← hrule g']
  exact (tied.orderly h).anywhere

instance statementList :
    Copies R view (g.statementList (Parse.nextIs .rBrace))
      (fun (_ : κ) => g'.statementList (Parse.nextIs .rBrace)) .alike :=
  ofScript (fun g => g.statementList (Parse.nextIs .rBrace))
    (Script.orderly_statementList rfl rfl rfl (Script.orderly_askNextIs .rBrace)) fun g => by simp

instance restElement : Copies R view g.restElement (fun (_ : κ) => g'.restElement) .alike :=
  ofScript Grammar.restElement Script.orderly_restElement fun g => by simp

instance bindingElement :
    Copies R view g.bindingElement (fun (_ : κ) => g'.bindingElement) .alike :=
  ofScript Grammar.bindingElement (Script.orderly_bindingElement rfl) fun g => by simp

instance objectProperty :
    Copies R view g.objectProperty (fun (_ : κ) => g'.objectProperty) .alike :=
  ofScript Grammar.objectProperty Script.orderly_objectProperty fun g => by simp

instance classElement : Copies R view g.classElement (fun (_ : κ) => g'.classElement) .alike :=
  ofScript Grammar.classElement Script.orderly_classElement fun g => by simp

instance parenItems : Copies R view g.parenItems (fun (_ : κ) => g'.parenItems) .alike :=
  ofScript Grammar.parenItems (Script.orderly_parenItems rfl) fun g => by simp

instance functionBody : Copies R view g.functionBody (fun (_ : κ) => g'.functionBody) .settled := by
  unfold Grammar.functionBody
  exact step _ (fun _ => stepTwins _ (fun _ => step _ (fun _ => pure) rfl) rfl) rfl

instance formalParameters :
    Copies R view g.formalParameters (fun (_ : κ) => g'.formalParameters) .settled := by
  unfold Grammar.formalParameters
  have hloop : Copies R .any (g.loop g.formalParametersRound [])
      (fun (_ : κ) => g'.loop g'.formalParametersRound []) .settled := by
    refine loopSettled fun rest rest' hrest params => ?_
    unfold Grammar.formalParametersRound
    simp only [bind_assoc, bind_ite, pure_bind, continued]
    refine choosing .enclosed .settled pure (step .settled (fun isRest => ?_) rfl) rfl
      fun _ => nofun
    refine either .settled .settled ?_ (stepTwins .settled (fun param => ?_) rfl) rfl
    · exact stepTwins _ (fun _ => step _ (fun _ => pure) rfl) rfl
    · exact ifAccepts _ _ (hrest _ _ _) (step _ (fun _ => pure) rfl) rfl
  exact step _ (fun _ => stepTwins _ (fun _ => pure) rfl) rfl

instance functionRest {start : Position} {start' : κ → Position}
    (isAsync isGenerator isMethod : Bool) :
    Copies R view (g.functionRest start isAsync isGenerator isMethod)
      (fun i => g'.functionRest (start' i) isAsync isGenerator isMethod) .settled := by
  unfold Grammar.functionRest
  refine stepBoth
    (h := within _ _ (h := stepTwins _ (fun _ => stepTwins _ (fun _ => pure) rfl) rfl))
    .enclosed (fun params body => ?_) rfl
  exact stepTwins _ (fun _ => pure) rfl

instance functionExpression {start : Position} {start' : κ → Position} (isAsync : Bool) :
    Copies R view (g.functionExpression start isAsync)
      (fun i => g'.functionExpression (start' i) isAsync) .settled := by
  unfold Grammar.functionExpression
  refine step .settled (fun _ => ?_) rfl
  refine step .settled (fun isGenerator => step .settled (fun isNamed => ?_) rfl) rfl
  refine either .settled .settled ?_ (step .settled (fun name => ?_) rfl) rfl
  · exact step _ (fun _ => stepTwins _ (fun _ => pure) rfl) rfl
  · exact stepTwins _ (fun _ => pure) rfl

instance expression : Copies R view g.expression (fun (_ : κ) => g'.expression) .consuming := by
  have hround {ι : Type} (expressions : List Expression) :
      Copies R .any (g.expressionRound expressions)
        (fun x : ι × TwinOf expressions => g'.expressionRound x.2.value) .enclosed := by
    unfold Grammar.expressionRound
    exact ifAccepts _ _ (stepTwins _ (fun _ => pure) rfl) pure rfl
  unfold Grammar.expression
  refine stepTwins .consuming (fun start => stepTwins .enclosed (fun first => ?_) rfl) rfl
  refine step .enclosed (fun isSequence => either .enclosed _ ?_ pure rfl) rfl
  exact stepTwins (h := loop .enclosed hround rfl) _ (fun _ => stepTwins _ (fun _ => pure) rfl) rfl

instance spreadOrAssignment :
    Copies R view g.spreadOrAssignment (fun (_ : κ) => g'.spreadOrAssignment) .consuming := by
  unfold Grammar.spreadOrAssignment
  refine step .consuming (fun isSpread => either .consuming .consuming ?_ assignment rfl) rfl
  refine stepTwins .consuming (fun start => skipBefore .consuming (fun _ => ?_) rfl) rfl
  exact stepTwins _ (fun _ => stepTwins _ (fun _ => pure) rfl) rfl

instance arguments : Copies R view g.arguments (fun (_ : κ) => g'.arguments) .settled := by
  unfold Grammar.arguments
  have hloop : Copies R .any (g.loop g.argumentsRound [])
      (fun (_ : κ) => g'.loop g'.argumentsRound []) .settled := by
    refine loopSettled fun rest rest' hrest arguments => ?_
    unfold Grammar.argumentsRound
    simp only [bind_assoc, bind_ite, pure_bind, continued]
    refine choosing _ _ pure (stepTwins .settled (fun argument => ?_) rfl) rfl fun _ => nofun
    exact ifAccepts _ _ (hrest _ _ _) (step _ (fun _ => pure) rfl) rfl
  exact step _ (fun _ => stepTwins _ (fun _ => pure) rfl) rfl

instance arrayLiteral {start : Position} {start' : κ → Position} :
    Copies R view (g.arrayLiteral start) (fun i => g'.arrayLiteral (start' i)) .settled := by
  unfold Grammar.arrayLiteral
  have hloop : Copies R .any (g.loop g.arrayLiteralRound [])
      (fun (_ : κ) => g'.loop g'.arrayLiteralRound []) .settled := by
    refine loopSettled fun rest rest' hrest elements => ?_
    unfold Grammar.arrayLiteralRound
    simp only [bind_assoc, bind_ite, pure_bind, continued]
    refine ifAccepts _ _ pure (ifAccepts _ .settled (hrest _ _ _) ?_ rfl) rfl
    refine stepTwins .settled (fun element => ?_) rfl
    exact ifAccepts _ _ (hrest _ _ _) (step _ (fun _ => pure) rfl) rfl
  exact step _ (fun _ => stepTwins _ (fun _ => stepTwins _ (fun _ => pure) rfl) rfl) rfl

instance objectLiteral {start : Position} {start' : κ → Position} :
    Copies R view (g.objectLiteral start) (fun i => g'.objectLiteral (start' i)) .settled := by
  unfold Grammar.objectLiteral
  have hloop : Copies R .any (g.loop g.objectLiteralRound [])
      (fun (_ : κ) => g'.loop g'.objectLiteralRound []) .settled := by
    refine loopSettled fun rest rest' hrest properties => ?_
    unfold Grammar.objectLiteralRound
    simp only [bind_assoc, bind_ite, pure_bind, continued]
    refine ifAccepts _ _ pure (stepTwins .settled (fun property => ?_) rfl) rfl
    exact ifAccepts _ _ (hrest _ _ _) (step _ (fun _ => pure) rfl) rfl
  exact step _ (fun _ => stepTwins _ (fun _ => stepTwins _ (fun _ => pure) rfl) rfl) rfl

/-- The text of a template behind a substitution. -/
theorem templateContinued (reach : Reach) {rest : Token → Parse σ α}
    {rest' : κ → Token → Parse σ α}
    (hrest : ∀ token, Copies R .any (rest token) (fun i => rest' i token) reach)
    (hreach : Reach.settled.join reach = .settled) :
    Copies R view
      (Parse.nextIs .rBrace >>= fun closes =>
        if closes then
          Parse.skip >>= fun _ => Parse.lexing Lexing.readTemplateContinuation >>= rest
        else
          Parse.unexpected >>= fun (_ : PUnit) => Parse.skip >>= fun _ =>
            Parse.lexing Lexing.readTemplateContinuation >>= rest)
      (fun i => Parse.nextIs .rBrace >>= fun closes =>
        if closes then
          Parse.skip >>= fun _ => Parse.lexing Lexing.readTemplateContinuation >>= rest' i
        else
          Parse.unexpected >>= fun (_ : PUnit) => Parse.skip >>= fun _ =>
            Parse.lexing Lexing.readTemplateContinuation >>= rest' i) .settled := by
  unfold Parse.nextIs
  simp only [bind_assoc, pure_bind, Script.unexpected_bind]
  refine peek (fun token => ?_) nofun
  by_cases hbrace : token = .punctuator .rBrace
  · subst hbrace
    have htext : Copies R (.facing (.punctuator .rBrace))
        (Parse.lexing LexStep.templateContinuation.run)
        (fun (_ : κ) => Parse.lexing LexStep.templateContinuation.run) .settled :=
      templateContinuation
    have hwhole : Copies R (.facing (.punctuator .rBrace))
        (Parse.lexing LexStep.templateContinuation.run >>= rest)
        (fun i => Parse.lexing LexStep.templateContinuation.run >>= rest' i) .settled :=
      step reach hrest hreach
    simp only [← Script.skip_readTemplateContinuation, bind_assoc] at hwhole
    simpa only [beq_self_eq_true, if_true] using hwhole
  · simp only [beq_false_of_ne hbrace, Bool.false_eq_true, if_false]
    exact unexpected

instance templateRest {start : Position} {start' : κ → Position} (head : String) :
    Copies R view (g.templateRest start head) (fun i => g'.templateRest (start' i) head)
      .settled := by
  unfold Grammar.templateRest
  refine loopSettled fun rest rest' hrest template => ?_
  unfold Grammar.templateRound
  simp only [bind_assoc, bind_ite]
  refine stepTwins .settled (fun value => ?_) rfl
  refine templateContinued .enclosed (fun token => ?_) rfl
  cases token with
  | templateMiddle cooked => exact (hrest _ _ _).atLeast rfl
  | templateTail cooked => exact pure
  | _ => exact (fail_bind _ _).atLeast rfl

instance templateLiteral :
    Copies R view g.templateLiteral (fun (_ : κ) => g'.templateLiteral) .consuming := by
  unfold Grammar.templateLiteral
  refine stepTwins .consuming (fun start => ?_) rfl
  refine taking (fun token => ?_) fun _ _ _ => nofun
  cases token with
  | templateLiteral cooked => exact stepTwins _ (fun _ => stepTwins _ (fun _ => pure) rfl) rfl
  | templateHead cooked =>
    exact atLeast (stepTwins _ (fun _ => stepTwins _ (fun _ => pure) rfl) rfl) rfl
  | _ => exact (fail_bind _ _).atLeast rfl

/-! ## Primary expressions -/

instance nextIsArrow :
    Copies R view Grammar.nextIsArrow (fun (_ : κ) => Grammar.nextIsArrow) .enclosed := by
  unfold Grammar.nextIsArrow
  exact step _ (fun _ => either _ _ (step _ (fun _ => pure) rfl) pure rfl) rfl

instance literal {start : Position} {start' : κ → Position} {token : Token} [IsReal token]
    (value : Literal) :
    Copies R (.facing token) (Grammar.literal start value)
      (fun i => Grammar.literal (start' i) value)
      .consuming := by
  unfold Grammar.literal
  exact step _ (fun _ => stepTwins _ (fun _ => pure) rfl) rfl

instance arrowFunction {start : Position} {start' : κ → Position} {params : List Pattern}
    {params' : κ → List Pattern} [∀ i, Twins params (params' i)] (isAsync : Bool) :
    Copies R view (g.arrowFunction start params isAsync)
      (fun i => g'.arrowFunction (start' i) (params' i) isAsync) .settled := by
  unfold Grammar.arrowFunction
  refine step .consuming (fun _ => step .consuming (fun before => ?_) rfl) rfl
  refine step .consuming (fun _ => step .consuming (fun isBlock => ?_) rfl) rfl
  exact stepTwins (h := leaving _ (h := either _ _ map map rfl)) _
    (fun _ => stepTwins _ (fun _ => pure) rfl) rfl

instance identifierOrArrow {start : Position} {start' : κ → Position} :
    Copies R view (g.identifierOrArrow start) (fun i => g'.identifierOrArrow (start' i))
      .consuming := by
  unfold Grammar.identifierOrArrow
  refine stepPair .enclosed (fun name span => ?_) rfl
  refine step .enclosed (fun isArrow => either .settled _ ?_ pure rfl) rfl
  exact step _ (fun _ => step _ (fun _ => arrowFunction _) rfl) rfl

theorem regExpLiteral {start : Position} {start' : κ → Position} {token : Token}
    (h : token.isSlash = true) :
    Copies R (.facing token) (Grammar.regExpLiteral start)
      (fun i => Grammar.regExpLiteral (start' i)) .settled := by
  have htext : Copies R (.facing token) (Parse.lexing LexStep.regExp.run)
      (fun (_ : κ) => Parse.lexing LexStep.regExp.run) .settled :=
    regExp h
  unfold Grammar.regExpLiteral
  simp only [← bind_assoc, Script.skip_rescanRegExp]
  refine step .enclosed (fun token => ?_) rfl
  cases token with
  | regExp pattern flags => exact stepTwins _ (fun _ => pure) rfl
  | _ => exact atLeast (unexpectedAt _) rfl

instance superExpression {start : Position} {start' : κ → Position} {token : Token}
    [IsReal token] :
    Copies R (.facing token) (Grammar.superExpression start)
      (fun i => Grammar.superExpression (start' i))
      .consuming := by
  have hrest : Copies R .any
      (Parse.peek >>= fun token =>
        match token with
        | .punctuator .lParen | .punctuator .dot | .punctuator .lBracket => do
          return Expression.super (← Parse.spanFrom start)
        | _ => Parse.unexpected)
      (fun i => Parse.peek >>= fun token =>
        match token with
        | .punctuator .lParen | .punctuator .dot | .punctuator .lBracket => do
          return Expression.super (← Parse.spanFrom (start' i))
        | _ => Parse.unexpected) .enclosed := by
    have hspan {view : View} : Copies R view (Expression.super <$> Parse.spanFrom start)
        (fun i => Expression.super <$> Parse.spanFrom (start' i)) .enclosed :=
      map
    refine peek (fun token => ?_) fun _ _ => rfl
    cases token with
    | punctuator symbol =>
      cases symbol <;> first | exact hspan | exact atLeast unexpected rfl
    | _ => exact atLeast unexpected rfl
  unfold Grammar.superExpression
  refine step .enclosed (fun _ => step .enclosed (fun context => ?_) rfl) rfl
  exact either _ _ hrest (fail_bind _ _) rfl

instance asyncAtom {start : Position} {start' : κ → Position} :
    Copies R (.facing (.keyword .async)) (g.asyncAtom start) (fun i => g'.asyncAtom (start' i))
      .consuming := by
  have harrow : Copies R (.facing (.keyword .async))
      (do
        Parse.skip
        let (name, span) ← g.bindingIdentifier
        unless ← Grammar.nextIsArrow do Parse.unexpected
        g.arrowFunction start [.identifier name span] true)
      (fun i => do
        Parse.skip
        let (name, span) ← g'.bindingIdentifier
        unless ← Grammar.nextIsArrow do Parse.unexpected
        g'.arrowFunction (start' i) [.identifier name span] true) .settled := by
    refine step .settled (fun _ => stepPair .settled (fun name span => ?_) rfl) rfl
    exact step _ (fun _ => either _ _ (arrowFunction _) unexpected_bind rfl) rfl
  unfold Grammar.asyncAtom
  refine peekSecond rfl (fun answer => ?_) (.refl _) fun _ _ => rfl
  refine either .settled .consuming (step _ (fun _ => functionExpression _) rfl) ?_ rfl
  exact either _ _ harrow identifierOrArrow rfl

/-- The value of the parentheses, by what has been read in them. -/
instance parenValue {items : List Expression} {items' : κ → List Expression}
    [hitems : ∀ i, Twins items (items' i)] {inner : Span} {inner' : κ → Span} :
    Copies R view
      (match items with
      | [] => Parse.unexpected
      | [item] => Pure.pure item
      | items => Pure.pure (Expression.sequence items.reverse inner))
      (fun i => match items' i with
        | [] => Parse.unexpected
        | [item] => Pure.pure item
        | items => Pure.pure (Expression.sequence items.reverse (inner' i))) .enclosed := by
  refine still fun {s t value} _ hrun => ?_
  rcases items with _ | ⟨item, _ | ⟨other, items⟩⟩
  · obtain ⟨_, _, -, hfail⟩ := Parse.bind_eq_ok hrun
    cases hfail
  · cases hrun
    refine ⟨rfl, fun i others s' hmirrors => ?_⟩
    obtain ⟨item', _, hshape, hitem, hnone⟩ := (hitems i).eq_cons
    rw [hshape, hnone.eq_nil]
    exact ⟨hitem, hmirrors⟩
  · cases hrun
    refine ⟨rfl, fun i others s' hmirrors => ?_⟩
    have htwins := hitems i
    obtain ⟨item', _, hshape, -, hmore⟩ := htwins.eq_cons
    obtain ⟨other', items', rfl, -, -⟩ := hmore.eq_cons
    rw [hshape] at htwins ⊢
    exact ⟨inferInstance, hmirrors⟩

instance parenRest {start : Position} {start' : κ → Position} :
    Copies R view (g.parenRest start) (fun i => g'.parenRest (start' i)) .settled := by
  unfold Grammar.parenRest
  refine stepTwins .settled (fun innerStart => ?_) rfl
  refine stepTwins .settled (fun list => ?_) rfl
  refine stepTwins .settled (fun innerStop => ?_) rfl
  refine step .enclosed (fun _ => ?_) rfl
  refine step .enclosed (fun isArrow => either .settled .enclosed ?_ ?_ rfl) rfl
  · exact step _ (fun _ => stepTwins _ (fun _ => arrowFunction _) rfl) rfl
  · exact either _ _ unexpected parenValue rfl

instance parenthesized {start : Position} {start' : κ → Position} :
    Copies R view (g.parenthesized start) (fun i => g'.parenthesized (start' i)) .settled := by
  unfold Grammar.parenthesized
  exact step _ (fun _ => allowingIn) rfl

/-! ## Classes -/

instance classElements : Copies R view g.classElements (fun (_ : κ) => g'.classElements)
    .settled := by
  unfold Grammar.classElements
  have hloop : Copies R view (g.loop g.classElementsRound [])
      (fun (_ : κ) => g'.loop g'.classElementsRound []) .settled := by
    refine loopSettled fun rest rest' hrest elements => ?_
    unfold Grammar.classElementsRound
    simp only [bind_assoc, bind_ite, pure_bind, continued]
    refine ifAccepts _ .settled (hrest _ _ _) (ifAccepts _ .settled pure ?_ rfl) rfl
    exact stepTwins _ (fun _ => either _ _ (fail_bind _ _) (hrest _ _ _) rfl) rfl
  exact stepTwins _ (fun _ => pure) rfl

instance classBody : Copies R view g.classBody (fun (_ : κ) => g'.classBody) .settled := by
  have henter {ι : Type} : Copies R .any (Parse.update fun s => ((), g.hooks.enterClass s))
      (fun (_ : ι) => Parse.update fun s => ((), g'.hooks.enterClass s)) .enclosed := by
    rw [tied.hooks_eq]
    exact update tied.ignores.enterClass
  have helements {ι : Type} :
      Copies R .any (Parse.closing (Parse.hook g.hooks.exitClass) g.classElements)
      (fun (_ : ι) => Parse.closing (Parse.hook g'.hooks.exitClass) g'.classElements)
        .settled := by
    rw [tied.hooks_eq]
    exact closing tied.ignores.exitClass
  unfold Grammar.classBody
  refine stepTwins .settled (fun start => step .settled (fun _ => ?_) rfl) rfl
  rw [tied.hooks_eq] at *
  exact step _ (fun _ => stepTwins _ (fun _ => stepTwins _ (fun _ => pure) rfl) rfl) rfl

instance classDefinition {start : Position} {start' : κ → Position} (isDeclaration : Bool) :
    Copies R view (g.classDefinition start isDeclaration)
      (fun i => g'.classDefinition (start' i) isDeclaration) .settled := by
  have hrest {ι : Type} (name : Option String) {start : Position} {start' : ι → Position} :
      Copies R .any
        (do
          let superClass ←
            if ← Parse.acceptWord .extends_ then some <$> g.leftHandSide else Pure.pure none
          let body ← g.classBody
          return (name, (⟨superClass, body, ← Parse.spanFrom start⟩ : Class)))
        (fun i => do
          let superClass ←
            if ← Parse.acceptWord .extends_ then some <$> g'.leftHandSide else Pure.pure none
          let body ← g'.classBody
          return (name, (⟨superClass, body, ← Parse.spanFrom (start' i)⟩ : Class))) .settled := by
    refine ifAcceptsWord .settled .settled (stepTwins .settled (fun superClass => ?_) rfl)
      (stepTwins .settled (fun superClass => ?_) rfl) rfl
    · exact stepTwins _ (fun _ => stepTwins _ (fun _ => pure) rfl) rfl
    · exact stepTwins _ (fun _ => stepTwins _ (fun _ => pure) rfl) rfl
  unfold Grammar.classDefinition
  refine step .settled (fun _ => within _ _ (h := step .settled (fun isNamed => ?_) rfl)) rfl
  refine either .settled .settled (step _ (fun name => hrest name) rfl) ?_ rfl
  exact either .settled .settled unexpected_bind (step _ (fun name => hrest name) rfl) rfl

instance classExpression {start : Position} {start' : κ → Position} :
    Copies R view (g.classExpression start) (fun i => g'.classExpression (start' i))
      .settled := by
  unfold Grammar.classExpression
  exact stepPair .enclosed (fun name definition => pure) rfl

/-! ## Atoms -/

instance keywordAtom {start : Position} {start' : κ → Position} (word : Keyword) :
    Copies R (.facing (.keyword word)) (g.keywordAtom start word)
      (fun i => g'.keywordAtom (start' i) word) .consuming := by
  cases word with
  | this => exact step _ (fun _ => stepTwins _ (fun _ => pure) rfl) rfl
  | super => exact superExpression
  | function => exact atLeast (functionExpression _) rfl
  | async => exact asyncAtom
  | class_ => exact atLeast classExpression rfl
  | true_ | false_ | null => exact literal _
  | _ =>
    dsimp only [Grammar.keywordAtom]
    exact either _ _ identifierOrArrow unexpected rfl

instance punctuatorAtom {start : Position} {start' : κ → Position} (symbol : Punctuator) :
    Copies R (.facing (.punctuator symbol)) (g.punctuatorAtom start symbol)
      (fun i => g'.punctuatorAtom (start' i) symbol) .settled := by
  cases symbol with
  | slash | slashEq => exact regExpLiteral rfl
  | lParen => exact parenthesized
  | lBracket => exact arrayLiteral
  | lBrace => exact objectLiteral
  | _ => exact unexpected

instance atom : Copies R view g.atom (fun (_ : κ) => g'.atom) .consuming := by
  unfold Grammar.atom
  refine stepTwins .consuming (fun start => ?_) rfl
  refine peek (fun token => ?_) nofun
  cases token with
  | keyword word => exact keywordAtom word
  | punctuator symbol => exact atLeast (punctuatorAtom symbol) rfl
  | number _ | bigInt _ | string _ => exact literal _
  | templateLiteral _ | templateHead _ => exact templateLiteral
  | identifier _ _ => exact identifierOrArrow
  | _ => exact atLeast unexpected rfl

/-- Reporting a primary expression in front of the end of the source, or of a closing
parenthesis. -/
instance reportAtom {value : Expression} {value' : κ → Expression} [∀ i, Twins value (value' i)] :
    Copies R view (Parse.peek >>= fun following => Parse.hook (g.hooks.afterAtom value following))
      (fun i => Parse.peek >>= fun following =>
        Parse.hook (g'.hooks.afterAtom (value' i) following)) .enclosed := by
  rw [tied.hooks_eq]
  refine ⟨fun {s t a} _ hrun => ?_⟩
  obtain ⟨following, middle, hpeek, hreport⟩ := Parse.bind_eq_ok hrun
  obtain ⟨next, hlook, rfl⟩ := Parse.peek_eq_ok hpeek
  have hlexer : t.lexer = middle.lexer := Parse.lexer_of_hook hreport
  have htrail : Trail [] middle.lexer t.lexer := by
    rw [hlexer]
    exact .refl _
  have hasks : Reach.enclosed.Asks [] := .nil
  refine ⟨[], (Trail.nil hlook.takes.2 hlook.lastSpan_eq).append htrail, hasks,
    fun i hsights hmirrors => ?_⟩
  obtain ⟨next', middle', hlook', -, htoken, hmiddle⟩ :=
    hmirrors.exists_looksTo hlook htrail hasks hsights
  have hechoed : Echoed R (g.hooks.afterAtom value next.token)
      (g.hooks.afterAtom (value' i) next'.token) := by
    obtain htoken | ⟨-, hending, hclosing⟩ := htoken
    · rw [htoken]
      exact tied.ignores.afterAtom inferInstance _
    · rw [hending, hclosing]
      exact tied.atEnd inferInstance
  obtain ⟨t', hreport', ht⟩ := hechoed.hook hmiddle hreport
  unfold Ends
  rw [Parse.bind_of_ok hlook'.peek, hreport']
  exact ⟨.refl _, ht⟩

instance primary : Copies R view g.primary (fun (_ : κ) => g'.primary) .consuming := by
  have hreport {ι : Type} {value : Expression} {value' : ι → Expression}
      [∀ i, Twins value (value' i)] : Copies R .any
      ((Parse.peek >>= fun following => Parse.hook (g.hooks.afterAtom value following)) >>=
        fun _ => Pure.pure value)
      (fun i => (Parse.peek >>= fun following =>
        Parse.hook (g'.hooks.afterAtom (value' i) following)) >>= fun _ =>
          Pure.pure (value' i)) .enclosed :=
    step _ (fun _ => pure) rfl
  simp only [bind_assoc] at hreport
  unfold Grammar.primary
  exact stepTwins _ (fun _ => hreport) rfl

/-! ## Accesses and calls -/

instance memberProperty :
    Copies R view g.memberProperty (fun (_ : κ) => g'.memberProperty) .consuming := by
  have hreference {ι : Type} {name : PrivateName} {name' : ι → PrivateName}
      [hname : ∀ i, Twins name (name' i)] :
      Copies R .any (Parse.hook (g.hooks.referenceName name g.options))
        (fun i => Parse.hook (g'.hooks.referenceName (name' i) g'.options)) .enclosed := by
    rw [tied.hooks_eq, tied.options_eq]
    exact hook fun i => tied.ignores.referenceName (hname i) _
  have hname {ι : Type} : Copies R .any
      (do
        let start ← Parse.startPosition
        match ← Parse.next with
        | .identifier name _ => return Expression.identifier name (← Parse.spanFrom start)
        | .keyword word => return Expression.identifier word.spelling (← Parse.spanFrom start)
        | _ => Parse.unexpectedAt start)
      (fun (_ : ι) => do
        let start ← Parse.startPosition
        match ← Parse.next with
        | .identifier name _ => return Expression.identifier name (← Parse.spanFrom start)
        | .keyword word => return Expression.identifier word.spelling (← Parse.spanFrom start)
        | _ => Parse.unexpectedAt start) .consuming := by
    refine stepTwins .consuming (fun start => ?_) rfl
    refine taking (fun token => ?_) fun _ _ _ => nofun
    cases token with
    | identifier name _ => exact stepTwins _ (fun _ => pure) rfl
    | keyword word => exact stepTwins _ (fun _ => pure) rfl
    | _ => exact atLeast (unexpectedAt _) rfl
  unfold Grammar.memberProperty
  refine step .consuming (fun isPrivate => either .consuming .consuming ?_ hname rfl) rfl
  refine stepTwins .enclosed (fun name => step .enclosed (fun accepted => ?_) rfl) rfl
  exact either _ _ pure (fail_bind _ _) rfl

instance computedProperty :
    Copies R view g.computedProperty (fun (_ : κ) => g'.computedProperty) .settled := by
  unfold Grammar.computedProperty
  exact stepTwins _ (fun _ => step _ (fun _ => pure) rfl) rfl

instance optionalLink {base : Expression} {base' : κ → Expression} [∀ i, Twins base (base' i)]
    {start : Position} {start' : κ → Position} :
    Copies R view (g.optionalLink base start) (fun i => g'.optionalLink (base' i) (start' i))
      .consuming := by
  unfold Grammar.optionalLink
  refine step .consuming (fun isCall => either .settled .consuming ?_ ?_ rfl) rfl
  · exact stepTwins _ (fun _ => stepTwins _ (fun _ => pure) rfl) rfl
  refine ifAccepts .settled .consuming ?_ ?_ rfl
  · exact stepTwins _ (fun _ => stepTwins _ (fun _ => pure) rfl) rfl
  · exact stepTwins _ (fun _ => stepTwins _ (fun _ => pure) rfl) rfl

instance callOrAsyncArrow {base : Expression} {base' : κ → Expression}
    [∀ i, Twins base (base' i)] {start : Position} {start' : κ → Position} :
    Copies R view (g.callOrAsyncArrow base start)
      (fun i => g'.callOrAsyncArrow (base' i) (start' i)) .settled := by
  unfold Grammar.callOrAsyncArrow
  have hcall {ι : Type} {base : Expression} {base' : ι → Expression} [∀ i, Twins base (base' i)]
      {start : Position} {start' : ι → Position} {arguments : List Expression}
      {arguments' : ι → List Expression} [∀ i, Twins arguments (arguments' i)] : Copies R .any
      (do
        let span ← Parse.spanFrom start
        Pure.pure (Round.again (.call base arguments false span) : Round Expression Expression))
      (fun i => do
        let span ← Parse.spanFrom (start' i)
        Pure.pure (Round.again (.call (base' i) (arguments' i) false span))) .enclosed :=
    stepTwins _ (fun _ => pure) rfl
  refine stepTwins .enclosed (fun arguments => either .enclosed .enclosed ?_ hcall rfl) rfl
  refine step .enclosed (fun isArrow => either .settled .enclosed ?_ hcall rfl) rfl
  exact step _ (fun _ => stepTwins _ (fun _ => stepTwins _ (fun _ => pure) rfl) rfl) rfl

instance subscripts {base : Expression} {base' : κ → Expression} [∀ i, Twins base (base' i)]
    {start : Position} {start' : κ → Position} (calleeOfNew : Bool) :
    Copies R view (g.subscripts base start calleeOfNew)
      (fun i => g'.subscripts (base' i) (start' i) calleeOfNew) .enclosed := by
  have hround {ι : Type} {start : Position} {start' : ι → Position} (base : Expression) :
      Copies R .any (g.subscriptsRound start calleeOfNew base)
        (fun x : ι × TwinOf base => g'.subscriptsRound (start' x.1) calleeOfNew x.2.value)
        .enclosed := by
    have htag : Copies R .any
        (do
          if ← Grammar.nextIsTemplate then
            if base.inOptionalChain then
              Parse.fail (.optionalChain .templateTag) (← Parse.startPosition)
            let quasi ← g.templateLiteral
            return .again (.taggedTemplate base quasi (← Parse.spanFrom start))
          return (.stop base : Round Expression Expression))
        (fun x : ι × TwinOf base => do
          if ← Grammar.nextIsTemplate then
            if x.2.value.inOptionalChain then
              Parse.fail (.optionalChain .templateTag) (← Parse.startPosition)
            let quasi ← g'.templateLiteral
            return .again (.taggedTemplate x.2.value quasi (← Parse.spanFrom (start' x.1)))
          return .stop x.2.value) .enclosed := by
      refine step .enclosed (fun isTemplate => either .consuming _ ?_ pure rfl) rfl
      refine either .settled .consuming ?_ ?_ rfl
      · exact stepTwins _ (fun _ => fail_bind _ _) rfl
      · exact stepTwins _ (fun _ => stepTwins _ (fun _ => pure) rfl) rfl
    unfold Grammar.subscriptsRound
    refine ifAccepts .consuming .enclosed ?_ (step .enclosed (fun isOptional => ?_) rfl) rfl
    · exact stepTwins _ (fun _ => stepTwins _ (fun _ => pure) rfl) rfl
    refine either .consuming .enclosed ?_ (ifAccepts .settled .enclosed ?_ ?_ rfl) rfl
    · refine either .settled .consuming ?_ ?_ rfl
      · exact stepTwins _ (fun _ => fail_bind _ _) rfl
      · exact skipBefore _ (fun _ => stepTwins _ (fun _ => pure) rfl) rfl
    · exact stepTwins _ (fun _ => stepTwins _ (fun _ => pure) rfl) rfl
    · exact either _ _ (step _ (fun _ => either _ _ callOrAsyncArrow htag rfl) rfl) htag rfl
  unfold Grammar.subscripts
  exact loop .enclosed hround rfl

instance newExpressionRule :
    Copies R view g.newExpressionRule (fun (_ : κ) => g'.newExpressionRule) .consuming := by
  have hrest {ι : Type} {start calleeStart : Position} {start' calleeStart' : ι → Position}
      {callee : Expression} {callee' : ι → Expression} [∀ i, Twins callee (callee' i)] :
      Copies R .any
        (do
          let callee ← g.subscripts callee calleeStart true
          let arguments ← if ← Parse.nextIs .lParen then g.arguments else Pure.pure []
          return Expression.new callee arguments (← Parse.spanFrom start))
        (fun i => do
          let callee ← g'.subscripts (callee' i) (calleeStart' i) true
          let arguments ← if ← Parse.nextIs .lParen then g'.arguments else Pure.pure []
          return Expression.new callee arguments (← Parse.spanFrom (start' i))) .enclosed := by
    refine stepTwins .enclosed (fun callee => step .enclosed (fun isCall => ?_) rfl) rfl
    refine either .settled .enclosed ?_ ?_ rfl
    · exact stepTwins _ (fun _ => stepTwins _ (fun _ => pure) rfl) rfl
    · exact stepTwins _ (fun _ => stepTwins _ (fun _ => pure) rfl) rfl
  unfold Grammar.newExpressionRule
  refine stepTwins .consuming (fun start => step .enclosed (fun _ => ?_) rfl) rfl
  refine stepTwins .enclosed (fun calleeStart => step .enclosed (fun isNew => ?_) rfl) rfl
  refine (either .consuming .consuming ?_ ?_ rfl).atLeast rfl
  · exact stepTwins _ (fun _ => hrest) rfl
  · exact stepTwins _ (fun _ => hrest) rfl

instance leftHandSideRule :
    Copies R view g.leftHandSideRule (fun (_ : κ) => g'.leftHandSideRule) .consuming := by
  have hrest {ι : Type} {start : Position} {start' : ι → Position} {base : Expression}
      {base' : ι → Expression} [∀ i, Twins base (base' i)] : Copies R .any
        (if base.isArrow then Pure.pure base else g.subscripts base start false)
        (fun i => if (base' i).isArrow then Pure.pure (base' i)
          else g'.subscripts (base' i) (start' i) false) .enclosed :=
    either _ _ pure (subscripts _) rfl
  unfold Grammar.leftHandSideRule
  refine stepTwins .consuming (fun start => step .consuming (fun isNew => ?_) rfl) rfl
  refine either .consuming .consuming ?_ ?_ rfl
  · exact stepTwins _ (fun _ => hrest) rfl
  · exact stepTwins _ (fun _ => hrest) rfl

/-! ## Operators -/

/-- Only the name of a variable is refused behind `delete`. -/
theorem checkDelete_eq (operator : UnaryOperator) (argument : Expression) (start : Position) :
    (Grammar.checkDelete operator argument start : Parse σ Unit) = (do
      if operator == .delete && (← Parse.context).strict then
        if (Grammar.labelOf? argument).isSome then
          Parse.fail .strictDelete start) := by
  cases argument <;> rfl

instance checkDelete (operator : UnaryOperator) {argument : Expression}
    {argument' : κ → Expression} [∀ i, Twins argument (argument' i)] {start : Position}
    {start' : κ → Position} :
    Copies R view (Grammar.checkDelete operator argument start)
      (fun i => Grammar.checkDelete operator (argument' i) (start' i)) .enclosed := by
  simp only [checkDelete_eq]
  exact step _ (fun _ => either _ _ (either _ _ (fail _ _) pure rfl) pure rfl) rfl

instance updateBehind {start : Position} {start' : κ → Position} :
    Copies R view (g.updateBehind start) (fun i => g'.updateBehind (start' i)) .consuming := by
  unfold Grammar.updateBehind
  refine stepTwins .enclosed (fun argument => ?_) rfl
  refine peek (fun token => ?_) fun _ _ => rfl
  cases hupdate : UpdateOperator.ofToken? token with
  | none => exact pure
  | some operator =>
    have hreal : IsReal token := ⟨by rintro rfl; cases hupdate⟩
    -- The operator is still in sight behind the checks.
    refine behindLook .enclosed (fun newline => either .enclosed .consuming pure ?_ rfl) rfl
    refine behindLook .consuming (fun rules => behindLook .consuming (fun _ => ?_) rfl) rfl
    exact step _ (fun _ => stepTwins _ (fun _ => pure) rfl) rfl

instance unaryBody : Copies R view g.unaryBody (fun (_ : κ) => g'.unaryBody) .consuming := by
  unfold Grammar.unaryBody
  refine stepTwins .consuming (fun start => ?_) rfl
  refine peek (fun token => ?_) nofun
  cases UnaryOperator.ofToken? token with
  | some operator =>
    refine skipBefore .consuming (fun _ => stepTwins .enclosed (fun argument => ?_) rfl) rfl
    exact step _ (fun _ => stepTwins _ (fun _ => pure) rfl) rfl
  | none =>
    cases UpdateOperator.ofToken? token with
    | some operator =>
      refine skipBefore .consuming (fun _ => stepTwins .enclosed (fun argument => ?_) rfl) rfl
      exact step _ (fun _ => step _ (fun _ => stepTwins _ (fun _ => pure) rfl) rfl) rfl
    | none =>
      refine step .consuming (fun context => either .consuming .consuming ?_ updateBehind rfl) rfl
      refine skipBefore .consuming (fun _ => ?_) rfl
      exact stepTwins _ (fun _ => stepTwins _ (fun _ => pure) rfl) rfl

instance afterUnary {value : Expression} {value' : κ → Expression}
    [hvalue : ∀ i, Twins value (value' i)] :
    Copies R view (Parse.hook (g.hooks.afterUnary value))
      (fun i => Parse.hook (g'.hooks.afterUnary (value' i))) .enclosed := by
  rw [tied.hooks_eq]
  exact hook fun i => tied.ignores.afterUnary (hvalue i)

instance unaryRule : Copies R view g.unaryRule (fun (_ : κ) => g'.unaryRule) .consuming := by
  unfold Grammar.unaryRule
  exact stepTwins _ (fun _ => step _ (fun _ => pure) rfl) rfl

instance binaryRule (least : Nat) :
    Copies R view (g.binaryRule least) (fun (_ : κ) => g'.binaryRule least) .consuming := by
  have hround {ι : Type} (start : Position) (start' : ι → Position) (left : Expression) :
      Copies R .any (g.binaryRound start least left)
        (fun x : ι × TwinOf left => g'.binaryRound (start' x.1) least x.2.value) .enclosed := by
    unfold Grammar.binaryRound
    refine step .enclosed (fun context => ?_) rfl
    refine peek (fun token => ?_) fun _ _ => rfl
    cases InfixOperator.ofToken? (!context.inForInit) token with
    | none => exact pure
    | some operator =>
      refine either .enclosed .consuming pure (skipBefore .consuming (fun _ => ?_) rfl) rfl
      exact stepTwins _ (fun _ => stepTwins _ (fun _ => pure) rfl) rfl
  unfold Grammar.binaryRule
  refine stepTwins .consuming (fun start => stepTwins .enclosed (fun first => ?_) rfl) rfl
  have hrounds := hround start fun x : (κ × TwinOf start) × TwinOf first => x.1.2.value
  exact either _ _ pure (loop .enclosed hrounds rfl) rfl

instance conditional : Copies R view g.conditional (fun (_ : κ) => g'.conditional) .consuming := by
  unfold Grammar.conditional
  refine stepTwins .consuming (fun start => stepTwins .enclosed (fun test => ?_) rfl) rfl
  refine either .enclosed .enclosed pure (ifAccepts .settled .enclosed ?_ pure rfl) rfl
  refine stepTwins .settled (fun consequent => step .consuming (fun _ => ?_) rfl) rfl
  exact stepTwins _ (fun _ => stepTwins _ (fun _ => pure) rfl) rfl

instance yieldExpression :
    Copies R (.facing (.keyword .yield)) g.yieldExpression (fun (_ : κ) => g'.yieldExpression)
      .consuming := by
  unfold Grammar.yieldExpression
  refine behindLookTwins .consuming (fun start => ?_) rfl
  refine step .enclosed (fun _ => ?_) rfl
  refine step .enclosed (fun newline => ?_) rfl
  -- A `yield` ends in front of a closing parenthesis as it does at the end of the source.
  refine peek (fun token => either .enclosed .consuming ?_ ?_ rfl) fun _ _ => rfl
  · exact stepTwins _ (fun _ => pure) rfl
  · exact step _ (fun _ => stepTwins _ (fun _ => stepTwins _ (fun _ => pure) rfl) rfl) rfl

instance assignmentRule :
    Copies R view g.assignmentRule (fun (_ : κ) => g'.assignmentRule) .consuming := by
  have hrest {ι : Type} {view : View} : Copies R view
      (do
        let start ← Parse.startPosition
        let left ← g.conditional
        match AssignmentOperator.ofToken? (← Parse.peek) with
        | none => return left
        | some operator =>
          let target ← Parse.ensure (left.toTarget (← g.nameRules) operator)
          Parse.skip
          let value ← g.assignment
          return .assignment operator target value (← Parse.spanFrom start))
      (fun (_ : ι) => do
        let start ← Parse.startPosition
        let left ← g'.conditional
        match AssignmentOperator.ofToken? (← Parse.peek) with
        | none => return left
        | some operator =>
          let target ← Parse.ensure (left.toTarget (← g'.nameRules) operator)
          Parse.skip
          let value ← g'.assignment
          return .assignment operator target value (← Parse.spanFrom start)) .consuming := by
    refine stepTwins .consuming (fun start => ?_) rfl
    refine stepTwins .enclosed (fun left => ?_) rfl
    refine peek (fun token => ?_) fun _ _ => rfl
    cases AssignmentOperator.ofToken? token with
    | none => exact pure
    | some operator =>
      refine step .enclosed (fun rules => stepTwins .enclosed (fun target => ?_) rfl) rfl
      refine (skipBefore .consuming (fun _ => ?_) rfl).atLeast rfl
      exact stepTwins _ (fun _ => stepTwins _ (fun _ => pure) rfl) rfl
  unfold Grammar.assignmentRule
  refine step .consuming (fun context => either .consuming .consuming ?_ hrest rfl) rfl
  exact ifNextIsWord .yield yieldExpression hrest

end Copies

/-! ## Grammars of some depth -/

section

variable {R : σ → σ → Prop} {hooks : Hooks σ} [Bare α]

/-- An orderly script imitates itself where its tokens look alike. -/
theorem Copies.of_orderly (hignores : hooks.IgnorePositions R) (options : Options)
    (bound bound' depth depth' : Nat) {place : Setting} {known : Known} {after : α → Known}
    {script : Script α} (h : script.Orderly place known script after) :
    Copies R known.view (script.denote (.ofDepth options hooks bound depth))
      (fun (_ : κ) => script.denote (.ofDepth options hooks bound' depth')) .alike := by
  refine ⟨fun {s t a} hsees hrun => ?_⟩
  rw [Grammar.observe_plug] at hrun
  obtain ⟨htrail, -⟩ :=
    (h.feedsOn (Grammar.feedsOn_routines options bound depth)).feedsOn hooks options hsees hrun
  refine ⟨_, htrail, trivial, fun {tokens others s'} k hsights hmirrors => ?_⟩
  have himitates := h.imitates hignores (by simp) (Grammar.feedsOn_routines options bound depth)
    (Grammar.imitates_routines hignores bound bound' depth depth')
  have hends := himitates.imitates hsees hrun
    ⟨hsights.feedsAt, hsights.orderly, hsights.admits⟩ hmirrors
  unfold Ends
  rw [Grammar.observe_plug]
  unfold Observed.EndsIn at hends
  cases hrun' : (Procedure.observe hooks options _ s').1 <;> rw [hrun'] at hends <;> exact hends

/-- The rules that recur in expressions, which consume a token. -/
def Recurring.consumes : {α : Type} → Recurring α → Prop
  | _, .statement | _, .bindingTarget => False
  | _, _ => True

/-- Grammars of whatever depth are tied. -/
theorem tied_ofDepth (hignores : hooks.IgnorePositions R)
    (hatEnd : ∀ {atom atom' : Expression}, Twins atom atom' →
      Echoed R (hooks.afterAtom atom .endOfInput) (hooks.afterAtom atom' (.punctuator .rParen)))
    (options : Options) (bound bound' depth depth' : Nat) :
    Tied R (Grammar.ofDepth options hooks bound depth)
      (Grammar.ofDepth options hooks bound' depth') := by
  have hoptions (bound depth : Nat) :
      (Grammar.ofDepth options hooks bound depth).options = options := by
    cases depth <;> rfl
  -- All but the rules that recur is the same at every depth.
  have htied {depth depth' : Nat} (hrules : ∀ {α : Type} (callee : Recurring α),
      callee.consumes → @Copies σ α Unit R .any callee.bare
        (callee.rule (.ofDepth options hooks bound depth))
        (fun _ => callee.rule (.ofDepth options hooks bound' depth')) .consuming) :
      Tied R (Grammar.ofDepth options hooks bound depth)
        (Grammar.ofDepth options hooks bound' depth') := by
    refine ⟨?_, ?_, ?_, ?_, ?_, hrules .assignment trivial,
      fun least => hrules (.binary least) trivial,
      hrules .unary trivial, hrules .leftHandSide trivial, hrules .newExpression trivial⟩
    · rw [hoptions, hoptions]
    · rw [Grammar.hooks_ofDepth, Grammar.hooks_ofDepth]
    · rw [Grammar.hooks_ofDepth]
      exact hignores
    · intro atom atom' htwins
      rw [Grammar.hooks_ofDepth]
      exact hatEnd htwins
    · intro α κ _ place known after script h
      exact .of_orderly hignores options bound bound' depth depth' h
  induction depth generalizing depth' with
  | zero =>
    refine htied fun callee _ => ?_
    let _ := callee.bare
    rw [callee.rule_zero]
    exact Copies.of_fails fun _ _ _ hrun => by cases hrun
  | succ depth ih =>
    refine htied fun callee hconsumes => ?_
    let _ := callee.bare
    have hunfold (depth' : Nat) : Copies R .any (callee.unfold (.ofDepth options hooks bound depth))
        (fun (_ : Unit) => callee.unfold (.ofDepth options hooks bound' depth')) .consuming := by
      have _ := ih depth'
      cases callee with
      | statement | bindingTarget => cases hconsumes
      | assignment => exact .assignmentRule
      | binary least => exact .binaryRule least
      | unary => exact .unaryRule
      | leftHandSide => exact .leftHandSideRule
      | newExpression => exact .newExpressionRule
    rw [callee.rule_succ]
    cases depth' with
    | zero => exact (hunfold 0).exhausted fun _ => callee.rule_zero _ _ _
    | succ depth' =>
      simp only [callee.rule_succ]
      exact hunfold depth'

end

end EcmaScript
