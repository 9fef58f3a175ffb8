import EcmaScript.Proofs.Telling.Rule

/-!
Patterns, functions, classes, literals and parentheses tell their accounts.
-/

namespace EcmaScript.Tells

open Parse TellsFrom

variable {α β : Type} {g : Grammar (Unit × List Event)} [Telling g]

/-! ## Names and patterns -/

instance propertyKey : Tells g.propertyKey where
  tells := by
    unfold Grammar.propertyKey
    refine quiet fun start => quiet fun token => ?_
    split
    case h_6 =>
      refine step fun expression _ => quiet fun _ => quiet fun span => done ?_ trivial
      simp [Node.account_eq (.propertyKey _)]
    case h_7 => exact raise _
    all_goals exact quiet fun span => done (by simp [Node.account_eq]) trivial

instance bindingElement : Tells g.bindingElement where
  tells := by
    unfold Grammar.bindingElement
    refine quiet fun start => step fun target _ => quiet fun c => .ite (fun _ => ?_) fun _ => ?_
    · refine step fun default _ => quiet fun span => made ?_ trivial
      simp
    · exact done (by simp) trivial

instance restElement : Tells g.restElement where
  tells := by
    unfold Grammar.restElement
    refine quiet fun start => quiet fun _ => step fun argument _ => quiet fun span => ?_
    refine made ?_ trivial
    simp

instance arrayPattern : Tells g.arrayPattern where
  tells := by
    unfold Grammar.arrayPattern Grammar.arrayPatternRound
    refine quiet fun start => quiet fun _ => ?_
    refine seq (collect g reversed reversed (fun elements => ?_) rfl) ?_
    · refine quiet fun c => .ite (fun _ => done rfl trivial) fun _ => ?_
      refine quiet fun c => .ite (fun _ => done (by simp) trivial) fun _ => ?_
      refine quiet fun c => .ite (fun _ => ?_) fun _ => ?_
      · exact step fun rest _ => quiet fun _ => done (by simp) trivial
      · exact separated (by simp) (by simp)
    · refine fun elements _ => quiet fun span => made ?_ trivial
      rw [reversed, account_holes]
      simp [Function.comp_def]

instance patternProperty : Tells g.patternProperty where
  tells := by
    unfold Grammar.patternProperty
    refine step fun (key, computed) _ => quiet fun c => .ite (fun _ => ?_) fun _ => ?_
    · refine step fun value _ => made ?_ trivial
      simp
    · cases key with
      | identifier name span =>
        refine quiet fun rules => quiet fun _ => quiet fun c => .ite (fun _ => ?_) fun _ => ?_
        · refine step fun default _ => quiet fun stop => made ?_ trivial
          simp [Node.account_eq (.pattern _), Node.account_eq (.propertyKey _)]
        · refine made ?_ trivial
          simp [Node.account_eq (.pattern _), Node.account_eq (.propertyKey _)]
      | _ => exact .unexpected

instance objectPattern : Tells g.objectPattern where
  tells := by
    unfold Grammar.objectPattern Grammar.objectPatternRound
    refine quiet fun start => quiet fun _ => seq (collect g reversed
      (fun read => reversed read.1 + account read.2) (fun properties => ?_) rfl) ?_
    · refine quiet fun c => .ite (fun _ => done (by simp) trivial) fun _ => ?_
      refine quiet fun c => .ite (fun _ => ?_) fun _ => ?_
      · exact step fun rest _ => quiet fun _ => done (by simp) trivial
      · exact separated (by simp) (by simp)
    · rintro ⟨properties, rest⟩ -
      refine quiet fun span => made ?_ trivial
      simp [reversed, Function.comp_def]

instance bindingTargetRule : Tells g.bindingTargetRule where
  tells := by
    unfold Grammar.bindingTargetRule
    refine quiet fun token => ?_
    split
    · exact arrayPattern.tells
    · exact objectPattern.tells
    · refine quiet fun (name, span) => made ?_ trivial
      simp

/-! ## Functions -/

instance statementList {stop : TracedParse Bool} [Silent stop] :
    Tells (g.statementList stop) where
  tells := by
    refine loop g (fun list => reversed list.statements) (fun _ => True) (fun list _ => ?_)
      trivial rfl
    refine quiet fun c => .ite (fun _ => done rfl trivial) fun _ => ?_
    refine step fun statement _ => .ite (fun _ => ?_) fun _ => ?_
    · exact quiet fun _ => done (by simp) trivial
    · exact done (by simp) trivial

instance block : Tells g.block where
  tells := by
    unfold Grammar.block Grammar.blockRound
    refine quiet fun _ => seq (collect g reversed reversed (fun statements => ?_) rfl) ?_
    · refine quiet fun c => .ite (fun _ => done rfl trivial) fun _ => ?_
      exact step fun statement _ => done (by simp) trivial
    · exact fun statements _ => quiet fun _ => done rfl trivial

instance functionBody : Tells g.functionBody where
  tells := by
    unfold Grammar.functionBody
    exact quiet fun _ => step fun body _ => quiet fun _ => done (by simp) trivial

instance formalParameters : Tells g.formalParameters where
  tells := by
    unfold Grammar.formalParameters Grammar.formalParametersRound
    refine quiet fun _ => seq (collect g reversed reversed (fun params => ?_) rfl) fun params _ =>
      done rfl trivial
    refine quiet fun c => .ite (fun _ => done rfl trivial) fun _ => ?_
    refine quiet fun c => .ite (fun _ => ?_) fun _ => ?_
    · exact step fun rest _ => quiet fun _ => done (by simp) trivial
    · exact separated (by simp) (by simp)

instance functionRest (start : Position) (isAsync isGenerator isMethod : Bool) :
    Tells (g.functionRest start isAsync isGenerator isMethod) where
  tells := by
    have hcode : TellsFrom 0 (do
        let params ← g.formalParameters
        let body ← g.functionBody
        return (params, body)) (fun code => account code.1 + account code.2) (fun _ => True) :=
      step fun params _ => step fun body _ => done (by simp) trivial
    unfold Grammar.functionRest
    refine seq hcode.within fun (params, body) _ => quiet fun span => made ?_ trivial
    simp [Function.comp_def]

instance methodFunction (isAsync isGenerator : Bool) :
    Tells (g.methodFunction isAsync isGenerator) where
  tells := quiet fun start => (functionRest start isAsync isGenerator true).tells

instance functionExpression (start : Position) (isAsync : Bool) :
    Tells (g.functionExpression start isAsync) where
  tells := by
    unfold Grammar.functionExpression
    refine quiet fun _ => quiet fun isGenerator => quiet fun c => quietChoice fun name => ?_
    refine step fun f _ => made ?_ rfl
    simp

theorem arrowFunction (start : Position) (params : List Pattern) (isAsync : Bool) :
    TellsFrom (account params) (g.arrowFunction start params isAsync) account whole := by
  unfold Grammar.arrowFunction
  refine quiet fun _ => quiet fun before => quiet fun _ => quiet fun isBlock => ?_
  have hbody : TellsFrom (account params) (if isBlock then ArrowBody.block <$> g.functionBody
      else ArrowBody.expression <$> g.assignment) (fun body => account params + account body)
      (fun _ => True) := by
    simp only [map_eq_pure_bind]
    refine .ite (fun _ => step fun body _ => done ?_ trivial) fun _ =>
      step fun body _ => done ?_ trivial
    · simp [Node.account_eq (.arrowBody _), Function.comp_def]
    · simp [Node.account_eq (.arrowBody _)]
  refine seq hbody.leaving fun body _ => quiet fun span => made ?_ rfl
  simp [Function.comp_def]

/-! ## Classes -/

instance classKey : Tells g.classKey where
  tells := by
    unfold Grammar.classKey
    refine quiet fun c => .ite (fun _ => ?_) fun _ => propertyKey.tells
    refine quiet fun name => done ?_ trivial
    simp [Node.account_eq]

theorem declarePrivate (m : Account) (name : PrivateName) (kind : MemberKind) (start : Position) :
    TellsFrom m (g.declarePrivate name kind start)
      (fun _ => m + .ofCall (.declare name kind start)) (fun _ => True) := by
  unfold Grammar.declarePrivate
  rw [Telling.hooks]
  refine seq (hook (.declareMember name kind start) (pure true)) fun accepted _ => ?_
  exact .ite (fun _ => done rfl trivial) fun _ => raise _

/-- The kind of a method with a private name is the one that is declared. -/
theorem memberKind_methodKind {name : PrivateName} {computed isStatic : Bool}
    {modifiers : Grammar.Modifiers} {kind : MethodKind}
    (h : Grammar.methodKind (.privateName name) computed isStatic modifiers = .ok kind) :
    Grammar.memberKind true modifiers.accessor = kind.memberKind := by
  simp only [Grammar.methodKind, PropertyKey.staticName?, Option.none_beq_some, Bool.and_false,
    Bool.false_eq_true, if_false] at h
  cases h
  cases haccessor : modifiers.accessor with
  | none => rfl
  | some kind => cases kind <;> rfl

theorem classMethod {m : Account} {start : Position} {key : PropertyKey}
    {computed isStatic : Bool} {modifiers : Grammar.Modifiers}
    (hm : ∀ kind f stop, Grammar.methodKind key computed isStatic modifiers = .ok kind →
      (ClassElement.method key kind f isStatic computed ⟨start, stop⟩).declaration +
        account key = m) :
    TellsFrom m (g.classMethod start key computed isStatic modifiers) account whole := by
  unfold Grammar.classMethod
  rw [Telling.hooks]
  refine .ensure fun kind hkind => ?_
  refine seq (update (.enterMethod key false) fun s => rfl) fun saved _ => ?_
  refine seq (behind.closing fun _ => update (.exitMethod saved) fun s => rfl) fun f _ => ?_
  refine quiet fun _ => spanned fun stop => made ?_ trivial
  rw [← hm kind f stop hkind]
  simp [Node.account_eq (.methodValue _ _), add_assoc]

instance inFieldInitializer [Accounted α] {p : TracedParse α} [Tells p] :
    Tells (Grammar.inFieldInitializer p) := within

theorem classField {m : Account} {start : Position} {key : PropertyKey} {computed isStatic : Bool}
    (hm : ∀ value stop,
      (ClassElement.field key value isStatic computed ⟨start, stop⟩).declaration +
        account key = m) :
    TellsFrom m (g.classField start key computed isStatic) account whole := by
  unfold Grammar.classField
  refine guarded fun _ => quiet fun c => choice fun value _ => quiet fun _ => spanned fun stop => ?_
  refine made ?_ trivial
  rw [← hm value stop]
  simp [Function.comp_def, add_assoc]

instance staticBlock (start : Position) : Tells (g.staticBlock start) where
  tells := by
    unfold Grammar.staticBlock
    refine step fun body _ => quiet fun span => made ?_ trivial
    simp [Function.comp_def]

instance classElement : Tells g.classElement where
  tells := by
    unfold Grammar.classElement
    refine quiet fun start => quiet fun role => ?_
    refine .ite (fun _ => (staticBlock start).tells) fun _ => ?_
    refine quiet fun modifiers => step fun (key, computed) _ => quiet fun isMethod => ?_
    refine guarded fun _ => ?_
    cases key with
    | privateName name =>
      refine seq (declarePrivate _ name _ start) fun _ _ => ?_
      refine .ite (fun hmethod => ?_) fun hfield => ?_
      · refine classMethod fun kind f stop hkind => ?_
        simp [Node.account_eq (.propertyKey _), Grammar.elementSpan, hmethod,
          memberKind_methodKind hkind]
      · refine classField fun value stop => ?_
        simp [Node.account_eq (.propertyKey _), Grammar.elementSpan, hfield, Grammar.memberKind]
    | _ =>
      refine .ite (fun _ => classMethod fun kind f stop hkind => ?_) fun _ =>
        classField fun value stop => ?_
      · simp
      · simp

instance classElements : Tells g.classElements where
  tells := by
    unfold Grammar.classElements Grammar.classElementsRound
    refine seq (collect g reversed reversed (fun elements => ?_) rfl) fun elements _ =>
      done rfl trivial
    refine quiet fun c => .ite (fun _ => done rfl trivial) fun _ => ?_
    refine quiet fun c => .ite (fun _ => done rfl trivial) fun _ => ?_
    exact step fun element _ => guarded fun _ => done (by simp) trivial

instance classBody : Tells g.classBody where
  tells := by
    unfold Grammar.classBody
    rw [Telling.hooks]
    refine quiet fun start => quiet fun _ => seq (update .enterClass fun s => rfl) fun _ _ => ?_
    refine seq (behind.closing fun _ => hook .exitClass (pure ())) fun elements _ => ?_
    refine quiet fun span => made ?_ trivial
    simp [Function.comp_def]

instance classDefinition (start : Position) (isDeclaration : Bool) :
    Tells (g.classDefinition start isDeclaration) where
  tells := by
    unfold Grammar.classDefinition
    refine quiet fun _ => TellsFrom.within ?_
    have hrest (name : Option String) : TellsFrom 0 (do
        let superClass ← if ← acceptWord .extends_ then some <$> g.leftHandSide else pure none
        let body ← g.classBody
        return (name, (⟨superClass, body, ← spanFrom start⟩ : Class))) account whole := by
      refine quiet fun c => choice fun superClass _ => step fun body _ => quiet fun span => ?_
      refine done ?_ trivial
      simp [Node.account_eq (.class_ _), Function.comp_def]
    refine quiet fun c => .ite (fun _ => quiet hrest) fun _ => ?_
    exact .ite (fun _ => quiet hrest) fun _ => quiet hrest

/-! ## Literals -/

instance expression : Tells g.expression where
  tells := by
    unfold Grammar.expression Grammar.expressionRound
    refine quiet fun start => step fun first hfirst => quiet fun c => .ite (fun _ => ?_) fun _ => ?_
    · refine seq (collect g reversed reversed (fun expressions => ?_) (by simp))
        fun expressions _ => ?_
      · refine quiet fun c => .ite (fun _ => ?_) fun _ => done rfl trivial
        exact step fun value _ => done (by simp) trivial
      · refine quiet fun span => made ?_ rfl
        simp [reversed, Function.comp_def]
    · exact done (by simp) hfirst

instance headExpression : Tells g.headExpression where
  tells := by
    unfold Grammar.headExpression
    exact quiet fun _ => step fun value hvalue => quiet fun _ => done (by simp) hvalue

instance spreadOrAssignment : Tells g.spreadOrAssignment where
  tells := by
    unfold Grammar.spreadOrAssignment
    refine quiet fun c => .ite (fun _ => ?_) fun _ => Tells.tells
    refine quiet fun start => quiet fun _ => step fun argument _ => quiet fun span => done ?_ rfl
    simp

instance arguments : Tells g.arguments where
  tells := by
    unfold Grammar.arguments Grammar.argumentsRound
    refine quiet fun _ => ?_
    refine seq (TellsFrom.within (collect g reversed reversed (fun arguments => ?_) rfl))
      fun arguments _ => done rfl trivial
    refine quiet fun c => .ite (fun _ => done rfl trivial) fun _ => ?_
    exact separated (by simp) (by simp)

instance arrayLiteral (start : Position) : Tells (g.arrayLiteral start) where
  tells := by
    unfold Grammar.arrayLiteral Grammar.arrayLiteralRound
    refine quiet fun _ => ?_
    refine seq (TellsFrom.within (collect g reversed reversed (fun elements => ?_) rfl))
      fun elements _ => quiet fun span => made ?_ rfl
    · refine quiet fun c => .ite (fun _ => done rfl trivial) fun _ => ?_
      refine quiet fun c => .ite (fun _ => done (by simp) trivial) fun _ => ?_
      exact separated (by simp) (by simp)
    · rw [reversed, account_holes]
      simp [Function.comp_def]

/-- The key, which has been told, is a name: it has no account. -/
theorem shorthandProperty (m : Account) (start : Position) (key : PropertyKey)
    (hm : account key = m) : TellsFrom m (g.shorthandProperty start key) account whole := by
  unfold Grammar.shorthandProperty
  cases key with
  | identifier name span =>
    simp only [pure_bind]
    refine quiet fun rules => quiet fun _ => quiet fun c => .ite (fun _ => ?_) fun _ => ?_
    · refine step fun default _ => quiet fun stop => quiet fun span => made ?_ trivial
      rw [← hm]
      simp [Node.account_eq (.propertyKey _), Node.account_eq (.expression (.assignment _ _ _ _)),
        Node.account_eq (.assignmentTarget _), Node.account_eq (.expression (.identifier _ _))]
    · refine quiet fun span => made ?_ trivial
      rw [← hm]
      simp [Node.account_eq (.propertyKey _), Node.account_eq (.expression (.identifier _ _))]
  | _ => exact .unexpected

instance objectProperty : Tells g.objectProperty where
  tells := by
    unfold Grammar.objectProperty
    refine quiet fun start => quiet fun c => .ite (fun _ => ?_) fun _ => ?_
    · refine step fun argument _ => quiet fun span => made ?_ trivial
      simp
    refine quiet fun modifiers => step fun (key, computed) _ => quiet fun c => ?_
    refine .ite (fun _ => ?_) fun _ => ?_
    · refine step fun f _ => quiet fun span => made ?_ trivial
      simp [Node.account_eq (.expression (.function _ _))]
    refine guarded fun _ => quiet fun c => .ite (fun _ => ?_) fun _ => ?_
    · refine step fun value _ => quiet fun span => made ?_ trivial
      simp
    · exact shorthandProperty _ start key (by simp)

instance objectLiteral (start : Position) : Tells (g.objectLiteral start) where
  tells := by
    unfold Grammar.objectLiteral Grammar.objectLiteralRound
    refine quiet fun _ => ?_
    refine seq (TellsFrom.within (collect g reversed reversed (fun properties => ?_) rfl))
      fun properties _ => quiet fun span => made ?_ rfl
    · refine quiet fun c => .ite (fun _ => done rfl trivial) fun _ => ?_
      exact separated (by simp) (by simp)
    · simp [reversed, Function.comp_def]

theorem templateRest (start : Position) (head : String) :
    TellsFrom 0 (g.templateRest start head) (fun template => reversed template.expressions)
      (fun _ => True) := by
  refine collect g (fun template => reversed template.expressions) _ (fun template => ?_) rfl
  refine step fun value _ => quiet fun c => required fun _ => quiet fun _ => quiet fun token => ?_
  split
  · exact done (by simp) trivial
  · exact done (by simp) trivial
  · exact raise _

instance templateLiteral : Tells g.templateLiteral where
  tells := by
    have hrest (start : Position) (template : Grammar.TemplateRead) :
        TellsFrom (reversed template.expressions) (do
          return Expression.template template.quasis.reverse template.expressions.reverse
            (← spanFrom start)) account whole := by
      refine quiet fun span => made ?_ rfl
      simp [reversed, Function.comp_def]
    unfold Grammar.templateLiteral
    refine quiet fun start => quiet fun token => ?_
    split
    · exact hrest start _
    · exact seq (templateRest start _) fun template _ => hrest start template
    · exact raiseThen _

/-! ## Primary expressions -/

instance literal (start : Position) (value : Literal) : Tells (Grammar.literal start value) where
  tells := by
    unfold Grammar.literal
    refine quiet fun _ => quiet fun span => made ?_ rfl
    simp

instance regExpLiteral (start : Position) : Tells (Grammar.regExpLiteral start) where
  tells := by
    unfold Grammar.regExpLiteral
    refine quiet fun _ => quiet fun token => ?_
    split
    · refine quiet fun span => made ?_ rfl
      simp
    · exact raise _

theorem account_name (name : String) (span : Span) :
    account [Pattern.identifier name span] = 0 := by
  simp [Node.account_eq]

instance identifierOrArrow (start : Position) : Tells (g.identifierOrArrow start) where
  tells := by
    unfold Grammar.identifierOrArrow
    refine quiet fun (name, span) => quiet fun c => .ite (fun _ => ?_) fun _ => ?_
    · refine quiet fun rules => quiet fun _ => ?_
      rw [← account_name name span]
      exact arrowFunction start _ false
    · refine made ?_ rfl
      simp

instance asyncAtom (start : Position) : Tells (g.asyncAtom start) where
  tells := by
    unfold Grammar.asyncAtom
    refine quiet fun (second, newline) => .ite (fun _ => ?_) fun _ => .ite (fun _ => ?_) fun _ => ?_
    · exact quiet fun _ => (functionExpression start true).tells
    · refine quiet fun _ => quiet fun (name, span) => quiet fun c => required fun _ => ?_
      rw [← account_name name span]
      exact arrowFunction start _ true
    · exact (identifierOrArrow start).tells

/-- What is between parentheses has the account of its items and of what is behind `...`. -/
theorem parenItems : TellsFrom 0 g.parenItems (fun list => reversed list.items + account list.rest)
    (fun list => ∀ item ∈ list.items, whole item) := by
  -- Only the last round reads what is behind `...`.
  refine loop g (fun list => reversed list.items)
    (fun list => list.rest = none ∧ ∀ item ∈ list.items, whole item) (fun list hlist => ?_)
    ⟨rfl, by simp⟩ rfl
  obtain ⟨hrest, hitems⟩ := hlist
  refine quiet fun c => .ite (fun _ => done (by simp [hrest]) hitems) fun _ => ?_
  refine quiet fun c => .ite (fun _ => ?_) fun _ => ?_
  · exact step fun rest _ => done (by simp) hitems
  · refine step fun item hitem => quiet fun c => .ite (fun _ => ?_) fun _ => ?_
    · refine quiet fun c => done (by simp) ⟨hrest, ?_⟩
      exact List.forall_mem_cons.mpr ⟨hitem, hitems⟩
    · exact done (by simp [hrest]) (List.forall_mem_cons.mpr ⟨hitem, hitems⟩)

instance parenRest (start : Position) : Tells (g.parenRest start) where
  tells := by
    unfold Grammar.parenRest
    refine quiet fun innerStart => seq parenItems fun list hitems => ?_
    refine quiet fun stop => quiet fun _ => ?_
    refine quiet fun c => .ite (fun _ => ?_) fun _ => ?_
    · refine quiet fun rules => .ensure fun params hparams => ?_
      have hlist : reversed list.items + account list.rest =
          account (params ++ list.rest.toList) := by
        have haccount := account_mapM_toPattern _ hparams
        simpa [reversed, Function.comp_def] using
          congrArg (· + account list.rest) haccount.symm
      rw [hlist]
      exact arrowFunction start _ false
    · refine .ite (fun _ => .unexpected) fun hplain => ?_
      have hrest : list.rest = none := by
        cases hrest : list.rest with
        | none => rfl
        | some rest => simp [hrest] at hplain
      split
      · exact .unexpected
      · next item hone => exact done (by simp [hrest, hone]) (hitems item (by simp [hone]))
      · refine made ?_ rfl
        simp [reversed, hrest, Function.comp_def]

instance parenthesized (start : Position) : Tells (g.parenthesized start) where
  tells := quiet fun _ => TellsFrom.within (parenRest start).tells

instance classExpression (start : Position) : Tells (g.classExpression start) where
  tells := by
    unfold Grammar.classExpression
    refine step fun (name, definition) _ => made ?_ rfl
    simp

end EcmaScript.Tells
