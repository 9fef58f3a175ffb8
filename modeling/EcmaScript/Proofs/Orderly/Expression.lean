import EcmaScript.Proofs.Orderly.Class

/-!
The rules for expressions are orderly.
-/

namespace EcmaScript.Script

open Grammar (ParenRead TemplateRead)

variable {place : Setting} {known : Known} {start start' : Position}

/-! ## Sequences and literals -/

theorem orderly_expressionRound {expressions expressions' : List Expression}
    [Twins expressions expressions'] :
    Orderly place known.inRound (expressionRound expressions) (expressionRound expressions')
      (known.round known.opened) := by
  refine (orderly_accept rfl).choose ?_ (.ret .stopped)
  exact (orderly_assignment (.inl .behind)).bind fun value value' _ => .ret .refl

theorem orderly_expression (h : place.IsReady known ∨ place.leads = true) :
    Orderly place known expression expression fun _ => known.further := by
  refine orderly_startPosition.bind fun start start' _ => ?_
  refine (orderly_assignment h).bind fun first first' _ => ?_
  refine (orderly_askNextIs .comma).ask ?_ (.ret .refl)
  have hrest : Orderly place known.further (loop expressionRound [first])
      (loop expressionRound [first']) fun _ => known.further :=
    .loop (fun _ _ _ => orderly_expressionRound) inferInstance
  exact hrest.bind fun expressions expressions' _ => .spanned fun _ => .refl

theorem orderly_headExpression :
    Orderly place known headExpression headExpression fun _ => known.further := by
  refine (orderly_expect rfl).step fun _ => ?_
  refine (orderly_allowingIn (orderly_expression (.inl .behind))).bind fun value value' _ => ?_
  exact (orderly_expect rfl).step fun _ => .ret .refl

theorem orderly_spreadOrAssignment (h : place.IsReady known) :
    Orderly place known spreadOrAssignment spreadOrAssignment fun _ => known.further := by
  refine (orderly_nextIs .spread).choose ?_ (orderly_assignment (.inl h))
  refine orderly_startPosition.bind fun start start' _ => ?_
  refine (orderly_skip (Token.isPlain_punctuator rfl)).step fun _ => ?_
  exact (orderly_assignment (.inl .behind)).bind fun argument argument' _ => .spanned fun _ => .refl

theorem orderly_argumentsRound {arguments arguments' : List Expression}
    [Twins arguments arguments'] (hbegun : place.begun = true) :
    Orderly place known.inRound (argumentsRound arguments) (argumentsRound arguments')
      (known.round known.opened) := by
  refine (orderly_accept rfl).choose (.ret .stopped) ?_
  refine (orderly_spreadOrAssignment (.begun hbegun)).bind fun argument argument' _ => ?_
  refine (orderly_accept rfl).choose (.ret .refl) ?_
  exact (orderly_expect rfl).step fun _ => .ret .stopped

theorem orderly_arguments :
    Orderly place known arguments arguments fun _ => known.further := by
  refine (orderly_expect rfl).step fun _ => ?_
  refine (orderly_allowingIn (.loop (fun _ _ _ => orderly_argumentsRound rfl) inferInstance)).bind
    fun arguments arguments' _ => ?_
  exact .ret .refl

theorem orderly_arrayLiteralRound {elements elements' : List (Option Expression)}
    [Twins elements elements'] (hbegun : place.begun = true) :
    Orderly place known.inRound (arrayLiteralRound elements) (arrayLiteralRound elements')
      (known.round known.opened) := by
  refine (orderly_accept rfl).choose (.ret .stopped) ?_
  refine (orderly_accept rfl).choose (.ret .refl) ?_
  refine (orderly_spreadOrAssignment (.begun hbegun)).bind fun element element' _ => ?_
  refine (orderly_accept rfl).choose (.ret .refl) ?_
  exact (orderly_expect rfl).step fun _ => .ret .stopped

theorem orderly_arrayLiteral :
    Orderly place known (arrayLiteral start) (arrayLiteral start') fun _ => known.further := by
  refine (orderly_expect rfl).step fun _ => ?_
  refine (orderly_allowingIn (.loop (fun _ _ _ => orderly_arrayLiteralRound rfl)
    inferInstance)).bind fun elements elements' _ => ?_
  exact .spanned fun _ => .refl

theorem orderly_shorthandValue (name : String) (span span' : Span) :
    Orderly place known.further (shorthandValue name span) (shorthandValue name span')
      fun _ => known.further := by
  refine (orderly_accept rfl).choose ?_ (.ret .refl)
  exact (orderly_assignment (.inl .behind)).bind fun value value' _ => .spanned fun _ => .refl

theorem orderly_shorthandProperty {key key' : PropertyKey} [hkey : Twins key key'] :
    Orderly place known.further (shorthandProperty start key) (shorthandProperty start' key')
      fun _ => known.further := by
  cases key with
  | identifier name span =>
    obtain ⟨span', rfl⟩ := hkey.eq_identifierKey
    refine orderly_nameRules.step fun rules => orderly_ensure.step fun _ => ?_
    exact (orderly_shorthandValue name span span').bind fun value value' _ =>
      .spanned fun _ => .refl
  | _ =>
    cases key' with
    | identifier name' span' =>
      obtain ⟨span, hsame⟩ := hkey.symm.eq_identifierKey
      cases hsame
    | _ => exact orderly_unexpected

theorem orderly_objectProperty :
    Orderly place known objectProperty objectProperty fun _ => known.further := by
  refine orderly_startPosition.bind fun start start' _ => ?_
  refine (orderly_accept rfl).choose ?_ ?_
  · exact (orderly_assignment (.inl .behind)).bind fun argument argument' _ =>
      .spanned fun _ => .refl
  refine orderly_modifiers.step fun m => ?_
  refine orderly_propertyKey.bind fun read read' hread => ?_
  obtain ⟨key, computed⟩ := read
  obtain ⟨key', computed'⟩ := read'
  have hkey : Twins key key' := hread.of_fst
  obtain rfl : computed = computed' := hread.of_snd.eq
  refine (orderly_askNextIs .lParen).ask ?_ ?_
  · exact (orderly_methodFunction _ _).bind fun function function' _ => .spanned fun _ => .refl
  refine .checked orderly_unexpected ?_
  refine (orderly_accept rfl).choose ?_ orderly_shorthandProperty
  exact (orderly_assignment (.inl .behind)).bind fun value value' _ => .spanned fun _ => .refl

theorem orderly_objectLiteralRound {properties properties' : List ObjectProperty}
    [Twins properties properties'] :
    Orderly place known.braced.inRound (objectLiteralRound properties)
      (objectLiteralRound properties') (known.braced.round known.opened) := by
  refine orderly_acceptClose.choose (.ret .stopped) ?_
  refine orderly_objectProperty.bind fun property property' _ => ?_
  refine (orderly_accept rfl).choose (.ret .refl) ?_
  exact orderly_expectClose.step fun _ => .ret .stopped

theorem orderly_objectLiteral :
    Orderly place known (objectLiteral start) (objectLiteral start') fun _ => known.further := by
  refine orderly_expectOpen.step fun _ => ?_
  refine (orderly_allowingIn (.loop (fun _ _ _ => orderly_objectLiteralRound) inferInstance)).bind
    fun properties properties' _ => ?_
  exact .spanned fun _ => .refl

/-! ## Templates -/

theorem orderly_templateRound {template template' : TemplateRead} [Twins template template']
    (hbegun : place.begun = true) :
    Orderly place known.substituted.inRound (templateRound start template)
      (templateRound start' template') (known.substituted.round known.opened) := by
  refine (orderly_allowingIn (orderly_expression (.inl (.begun hbegun)))).bind
    fun value value' _ => ?_
  refine (orderly_nextIs .rBrace).choose ?_ orderly_unexpected
  refine .step .templateContinuation fun token => ?_
  cases token with
  | templateMiddle cooked => exact .ret .refl
  | templateTail cooked => exact .ret .stopped
  | _ => exact orderly_unexpectedAt _ _

theorem orderly_templateRest (head : String) :
    Orderly place known.substituted (templateRest start head) (templateRest start' head)
      fun _ => known.further :=
  .loop (fun _ _ _ => orderly_templateRound rfl) inferInstance

theorem orderly_templateParts :
    Orderly place known (templateParts start) (templateParts start') fun _ => known.further := by
  refine orderly_next.step fun token => ?_
  cases token with
  | templateLiteral cooked => exact .ret .refl
  | templateHead cooked => exact orderly_templateRest cooked
  | _ => exact orderly_unexpectedAt _ _

theorem orderly_templateLiteral :
    Orderly place known templateLiteral templateLiteral fun _ => known.further := by
  refine orderly_startPosition.bind fun start start' _ => ?_
  exact orderly_templateParts.bind fun template template' _ => .spanned fun _ => .refl

theorem orderly_nextIsTemplate :
    Orderly place known nextIsTemplate nextIsTemplate fun _ => known := by
  refine orderly_asking fun token => ?_
  cases token <;> exact ⟨_, rfl⟩

/-! ## Primary expressions -/

theorem orderly_nextIsArrow :
    Orderly place known nextIsArrow nextIsArrow fun _ => known :=
  (orderly_askNextIs .arrow).ask (orderly_newlineBefore.step fun _ => .ret .refl) (.ret .refl)

theorem orderly_literal {token : Token} (h : token.IsPlain) (value : Literal) :
    Orderly place (known.facing token) (literal start value) (literal start' value)
      fun _ => known.further :=
  (orderly_skip h).step fun _ => .spanned fun _ => .refl

theorem orderly_regExpLiteral {token : Token} (h : token.isSlash = true) :
    Orderly place (known.facing token) (regExpLiteral start) (regExpLiteral start')
      fun _ => known.further := by
  refine .step (.regExp h) fun token => ?_
  cases token with
  | regExp pattern flags => exact .spanned fun _ => .refl
  | _ => exact orderly_unexpectedAt _ _

theorem orderly_identifierOrArrow :
    Orderly place known (identifierOrArrow start) (identifierOrArrow start')
      fun _ => known.further := by
  refine orderly_identifierReference.bind fun read read' hread => ?_
  obtain ⟨name, span⟩ := read
  obtain ⟨name', span'⟩ := read'
  obtain rfl : name = name' := hread.of_fst.eq
  refine orderly_nextIsArrow.ask ?_ (.ret .refl)
  refine orderly_nameRules.step fun rules => orderly_ensure.step fun _ => ?_
  exact orderly_arrowFunction false

theorem orderly_superExpression :
    Orderly place (known.facing (.keyword .super)) (superExpression start) (superExpression start')
      fun _ => known.further := by
  refine (orderly_skip (Token.isPlain_keyword _)).step fun _ => ?_
  refine orderly_context.step fun context => .required (orderly_fail _ _ _ _) ?_
  refine orderly_look fun token => ?_
  have hsuper : Orderly place (known.further.facing token)
      (spanFrom start >>= fun span => pure (Expression.super span))
      (spanFrom start' >>= fun span => pure (Expression.super span)) fun _ => known.further :=
    .spanned fun _ => .forget
  cases token with
  | punctuator symbol =>
    cases symbol with
    | lParen => exact hsuper
    | dot => exact hsuper
    | lBracket => exact hsuper
    | _ => exact orderly_unexpected
  | _ => exact orderly_unexpected

theorem orderly_asyncAtom :
    Orderly place (known.facing (.keyword .async)) (asyncAtom start) (asyncAtom start')
      fun _ => known.further := by
  refine (orderly_peekSecond rfl).step fun read => ?_
  obtain ⟨second, newline⟩ := read
  refine .either (fun _ => ?_) fun _ => .either (fun _ => ?_) fun _ => orderly_identifierOrArrow
  · exact (orderly_skip (Token.isPlain_keyword _)).step fun _ => orderly_functionExpression true
  refine (orderly_skip (Token.isPlain_keyword _)).step fun _ => ?_
  refine orderly_bindingIdentifier.bind fun read read' hread => ?_
  obtain ⟨name, span⟩ := read
  obtain ⟨name', span'⟩ := read'
  obtain rfl : name = name' := hread.of_fst.eq
  refine orderly_nextIsArrow.ask (orderly_arrowFunction true) ?_
  exact orderly_unexpected.step fun _ => orderly_arrowFunction true

theorem orderly_parenItemsRound {list list' : ParenRead} [Twins list list']
    (hbegun : place.begun = true) :
    Orderly place known.inRound (parenItemsRound list) (parenItemsRound list')
      (known.round known.opened) := by
  refine (orderly_askNextIs .rParen).ask (.ret .stopped) ?_
  refine (orderly_askNextIs .spread).ask ?_ ?_
  · exact orderly_restElement.bind fun rest rest' _ => .ret .stopped
  refine (orderly_assignment (.inl (.begun hbegun))).bind fun item item' _ => ?_
  refine (orderly_accept rfl).choose ?_ (.ret .stopped)
  exact (orderly_askNextIs .rParen).step fun closes => .ret .refl

theorem orderly_parenItems (h : place.IsReady known) :
    Orderly place known parenItems parenItems fun _ => known.blind :=
  .loop (fun _ _ _ => orderly_parenItemsRound h) inferInstance

theorem orderly_parenExpression {items items' : List Expression} [hitems : Twins items items']
    (inner inner' : Span) :
    Orderly place known (parenExpression items inner) (parenExpression items' inner')
      fun _ => known := by
  cases items with
  | nil =>
    obtain rfl := hitems.eq_nil
    exact orderly_unexpected
  | cons item rest =>
    obtain ⟨item', rest', rfl, hitem, hrest⟩ := hitems.eq_cons
    cases rest with
    | nil =>
      obtain rfl := hrest.eq_nil
      exact .ret .refl
    | cons other rest =>
      obtain ⟨other', rest', rfl, _, _⟩ := hrest.eq_cons
      exact .ret .refl

theorem orderly_parenRest :
    Orderly place known.further (parenRest start) (parenRest start') fun _ => known.further := by
  refine orderly_startPosition.bind fun innerStart innerStart' _ => ?_
  refine (orderly_parenItems .behind).bind fun list list' _ => ?_
  refine orderly_lastEnd.bind fun stop stop' _ => ?_
  refine (orderly_expect rfl).step fun _ => ?_
  refine orderly_nextIsArrow.ask ?_ ?_
  · refine orderly_nameRules.step fun rules => orderly_ensure.bind fun params params' _ => ?_
    exact orderly_arrowFunction false
  · exact .either (fun _ => orderly_unexpected) fun _ => orderly_parenExpression _ _

theorem orderly_parenthesized :
    Orderly place known (parenthesized start) (parenthesized start') fun _ => known.further :=
  (orderly_expect rfl).step fun _ => orderly_allowingIn orderly_parenRest

theorem orderly_classExpression :
    Orderly place known (classExpression start) (classExpression start')
      fun _ => known.further := by
  refine (orderly_classDefinition false).bind fun read read' hread => ?_
  obtain ⟨name, definition⟩ := read
  obtain ⟨name', definition'⟩ := read'
  obtain rfl : name = name' := hread.of_fst.eq
  have hdefinition : Twins definition definition' := hread.of_snd
  exact .ret .refl

theorem orderly_keywordAtom (word : Keyword) :
    Orderly place (known.facing (.keyword word)) (keywordAtom start word) (keywordAtom start' word)
      fun _ => known.further := by
  have hname : Orderly place (known.facing (.keyword word))
      (if word.isContextual then identifierOrArrow start else unexpected)
      (if word.isContextual then identifierOrArrow start' else unexpected)
      fun _ => known.further :=
    .either (fun _ => orderly_identifierOrArrow) fun _ => orderly_unexpected
  cases word with
  | this => exact (orderly_skip (Token.isPlain_keyword _)).step fun _ => .spanned fun _ => .refl
  | super => exact orderly_superExpression
  | function => exact orderly_functionExpression false
  | async => exact orderly_asyncAtom
  | class_ => exact orderly_classExpression
  | true_ => exact orderly_literal (Token.isPlain_keyword _) _
  | false_ => exact orderly_literal (Token.isPlain_keyword _) _
  | null => exact orderly_literal (Token.isPlain_keyword _) _
  | _ => exact hname

theorem orderly_punctuatorAtom (symbol : Punctuator) :
    Orderly place (known.facing (.punctuator symbol)) (punctuatorAtom start symbol)
      (punctuatorAtom start' symbol) fun _ => known.further := by
  cases symbol with
  | slash => exact orderly_regExpLiteral rfl
  | slashEq => exact orderly_regExpLiteral rfl
  | lParen => exact orderly_parenthesized
  | lBracket => exact orderly_arrayLiteral
  | lBrace => exact orderly_objectLiteral
  | _ => exact orderly_unexpected

theorem orderly_atom : Orderly place known atom atom fun _ => known.further := by
  refine orderly_startPosition.bind fun start start' _ => orderly_look fun token => ?_
  cases token with
  | keyword word => exact orderly_keywordAtom word
  | punctuator symbol => exact orderly_punctuatorAtom symbol
  | number value => exact orderly_literal (Token.isPlain_number _) _
  | bigInt text => exact orderly_literal (Token.isPlain_bigInt _) _
  | string value => exact orderly_literal (Token.isPlain_string _) _
  | templateLiteral cooked => exact orderly_templateLiteral
  | templateHead cooked => exact orderly_templateLiteral
  | identifier name escaped => exact orderly_identifierOrArrow
  | _ => exact orderly_unexpected

theorem orderly_primary : Orderly place known primary primary fun _ => known.further := by
  refine orderly_atom.bind fun value value' _ => orderly_look fun following => ?_
  exact (orderly_afterAtom following).step fun _ => .ret .forget

/-! ## Members and calls -/

theorem orderly_memberProperty :
    Orderly place known memberProperty memberProperty fun _ => known.further := by
  refine orderly_nextIsPrivateName.ask ?_ ?_
  · refine orderly_privateName.bind fun name name' _ => ?_
    exact (orderly_referenceName rfl).step fun _ => .ret .unnamed
  refine orderly_startPosition.bind fun start start' _ => ?_
  refine orderly_next.step fun token => ?_
  cases token with
  | identifier name escaped => exact .spanned fun _ => .refl
  | keyword word => exact .spanned fun _ => .refl
  | _ => exact orderly_unexpectedAt _ _

theorem orderly_computedProperty :
    Orderly place known.further computedProperty computedProperty fun _ => known.further := by
  refine (orderly_allowingIn (orderly_expression (.inl .behind))).bind fun property property' _ => ?_
  exact (orderly_expect rfl).step fun _ => .ret .refl

theorem orderly_optionalLink {base base' : Expression} [Twins base base'] :
    Orderly place known (optionalLink base start) (optionalLink base' start')
      fun _ => known.further := by
  refine (orderly_askNextIs .lParen).ask ?_ ?_
  · exact orderly_arguments.bind fun arguments arguments' _ => .spanned fun _ => .refl
  refine (orderly_accept rfl).choose ?_ ?_
  · exact orderly_computedProperty.bind fun property property' _ => .spanned fun _ => .refl
  · exact orderly_memberProperty.bind fun property property' _ => .spanned fun _ => .refl

theorem orderly_callOrAsyncArrow {base base' : Expression} [Twins base base'] :
    Orderly place known (callOrAsyncArrow base start) (callOrAsyncArrow base' start')
      (known.round known.opened) := by
  refine orderly_arguments.bind fun arguments arguments' _ => ?_
  have hcall : Orderly place known.further
      (spanFrom start >>= fun span =>
        (pure (.again (.call base arguments false span)) : Script (Round Expression Expression)))
      (spanFrom start' >>= fun span => pure (.again (.call base' arguments' false span)))
      (known.round known.opened) :=
    .spanned fun _ => .refl
  refine .either (fun _ => orderly_nextIsArrow.ask ?_ hcall) fun _ => hcall
  refine orderly_nameRules.step fun rules => orderly_ensure.bind fun params params' _ => ?_
  exact (orderly_arrowFunction true).bind fun value value' _ => .ret .stopped

theorem orderly_taggedTemplate {base base' : Expression} [Twins base base'] :
    Orderly place known.inRound (taggedTemplate start base) (taggedTemplate start' base')
      (known.round known.opened) := by
  refine orderly_nextIsTemplate.ask ?_ (.ret .stopped)
  refine .checkedAt orderly_startPosition ?_
  exact orderly_templateLiteral.bind fun quasi quasi' _ => .spanned fun _ => .refl

theorem orderly_subscriptsRound (calleeOfNew : Bool) {base base' : Expression}
    [Twins base base'] :
    Orderly place known.inRound (subscriptsRound start calleeOfNew base)
      (subscriptsRound start' calleeOfNew base') (known.round known.opened) := by
  refine (orderly_accept rfl).choose ?_ ?_
  · exact orderly_memberProperty.bind fun property property' _ => .spanned fun _ => .refl
  refine (orderly_nextIs .optionalChain).choose ?_ ?_
  · refine .checkedAt orderly_startPosition ?_
    refine (orderly_skip (Token.isPlain_punctuator rfl)).step fun _ => ?_
    exact orderly_optionalLink.bind fun link link' _ => .ret .refl
  refine (orderly_accept rfl).choose ?_ ?_
  · exact orderly_computedProperty.bind fun property property' _ => .spanned fun _ => .refl
  refine .either (fun _ => ?_) fun _ => orderly_taggedTemplate
  exact (orderly_askNextIs .lParen).ask orderly_callOrAsyncArrow orderly_taggedTemplate

theorem orderly_subscripts (calleeOfNew : Bool) {base base' : Expression} [Twins base base'] :
    Orderly place known.further (subscripts base start calleeOfNew)
      (subscripts base' start' calleeOfNew) fun _ => known.further :=
  .loop (fun _ _ _ => orderly_subscriptsRound calleeOfNew) inferInstance

theorem orderly_newCallee :
    Orderly place known.further newCallee newCallee fun _ => known.further :=
  (orderly_nextIsWord .new).choose (orderly_newExpression .behind) orderly_primary

theorem orderly_newArguments :
    Orderly place known newArguments newArguments fun _ => known.blind :=
  (orderly_askNextIs .lParen).ask (.weaken .refl orderly_arguments fun _ => .behind) (.ret .forget)

theorem orderly_newExpressionRule :
    Orderly place known newExpressionRule newExpressionRule fun _ => known.further := by
  refine orderly_startPosition.bind fun start start' _ => ?_
  refine (orderly_expectWord .new).step fun _ => ?_
  refine orderly_startPosition.bind fun calleeStart calleeStart' _ => ?_
  refine orderly_newCallee.bind fun callee callee' _ => ?_
  refine (orderly_subscripts true).bind fun callee callee' _ => ?_
  exact orderly_newArguments.bind fun arguments arguments' _ => .spanned fun _ => .refl

theorem orderly_leftHandSideBase :
    Orderly place known leftHandSideBase leftHandSideBase fun _ => known.further :=
  (orderly_nextIsWord .new).choose orderly_newExpressionRule orderly_primary

theorem orderly_leftHandSideRule :
    Orderly place known leftHandSideRule leftHandSideRule fun _ => known.further := by
  refine orderly_startPosition.bind fun start start' _ => ?_
  refine orderly_leftHandSideBase.bind fun base base' _ => ?_
  exact .either (fun _ => .ret .refl) fun _ => orderly_subscripts false

/-! ## Operators -/

/-- Only a name without anything around it is refused. -/
theorem checkDelete_eq (operator : UnaryOperator) (argument : Expression) (start : Position) :
    checkDelete operator argument start = (do
      if operator == .delete && (← context).strict then
        if (Grammar.labelOf? argument).isSome then fail .strictDelete start) := by
  cases argument <;> rfl

theorem orderly_checkDelete (operator : UnaryOperator) {argument argument' : Expression}
    [Twins argument argument'] :
    Orderly place known (checkDelete operator argument start)
      (checkDelete operator argument' start') fun _ => known := by
  rw [checkDelete_eq, checkDelete_eq]
  refine orderly_context.step fun context => .either (fun _ => ?_) fun _ => .ret .refl
  exact .either (fun _ => orderly_fail _ _ _ _) fun _ => .ret .refl

theorem isPlain_of_updateOperator {token : Token} {operator : UpdateOperator}
    (h : UpdateOperator.ofToken? token = some operator) : token.IsPlain :=
  Token.isPlain_of_some h rfl rfl (fun _ => rfl) (fun _ => rfl) rfl

theorem orderly_updateBehind :
    Orderly place known (updateBehind start) (updateBehind start') fun _ => known.further := by
  refine orderly_leftHandSideRule.bind fun argument argument' _ => orderly_look fun token => ?_
  cases hoperator : UpdateOperator.ofToken? token with
  | none => exact .ret .forget
  | some operator =>
    refine orderly_newlineBefore.step fun newline => .either (fun _ => .ret .forget) fun _ => ?_
    refine orderly_nameRules.step fun rules => orderly_ensure.step fun _ => ?_
    refine (orderly_skip (isPlain_of_updateOperator hoperator)).step fun _ => ?_
    exact .spanned fun _ => .refl

theorem orderly_unaryBody :
    Orderly place known unaryBody unaryBody fun _ => known.further := by
  refine orderly_startPosition.bind fun start start' _ => orderly_look fun token => ?_
  cases hunary : UnaryOperator.ofToken? token with
  | some operator =>
    refine (orderly_skip (Token.isPlain_of_some hunary rfl rfl (fun _ => rfl) (fun _ => rfl)
      rfl)).step fun _ => ?_
    refine (orderly_unary .behind).bind fun argument argument' _ => ?_
    exact (orderly_checkDelete operator).step fun _ => .spanned fun _ => .refl
  | none =>
    cases hupdate : UpdateOperator.ofToken? token with
    | some operator =>
      refine (orderly_skip (isPlain_of_updateOperator hupdate)).step fun _ => ?_
      refine (orderly_unary .behind).bind fun argument argument' _ => ?_
      refine orderly_nameRules.step fun rules => orderly_ensure.step fun _ => ?_
      exact .spanned fun _ => .refl
    | none =>
      refine orderly_context.step fun context => .either (fun hawait => ?_) fun _ =>
        orderly_updateBehind
      obtain rfl : token = .keyword .await := by
        simp only [Bool.and_eq_true, beq_iff_eq] at hawait
        exact hawait.2
      refine (orderly_skip (Token.isPlain_keyword _)).step fun _ => ?_
      exact (orderly_unary .behind).bind fun argument argument' _ => .spanned fun _ => .refl

theorem orderly_unaryRule : Orderly place known unaryRule unaryRule fun _ => known.further :=
  .unaryRule orderly_unaryBody

theorem isPlain_of_infixOperator {allowIn : Bool} {token : Token} {operator : InfixOperator}
    (h : InfixOperator.ofToken? allowIn token = some operator) : token.IsPlain :=
  Token.isPlain_of_some h rfl rfl (fun _ => rfl) (fun _ => rfl) rfl

theorem orderly_binaryRound (least : Nat) {left left' : Expression} [Twins left left'] :
    Orderly place known.inRound (binaryRound start least left) (binaryRound start' least left')
      (known.round known.opened) := by
  refine orderly_context.step fun context => orderly_look fun token => ?_
  cases hoperator : InfixOperator.ofToken? (!context.inForInit) token with
  | none => exact .ret .stopped
  | some operator =>
    by_cases hloose : operator.precedence < least
    · simp only [if_pos hloose]
      exact .ret .stopped
    · simp only [if_neg hloose]
      refine (orderly_skip (isPlain_of_infixOperator hoperator)).step fun _ => ?_
      exact (orderly_binary _ .behind).bind fun right right' _ => .spanned fun _ => .refl

theorem orderly_binaryRule (least : Nat) :
    Orderly place known (binaryRule least) (binaryRule least) fun _ => known.further := by
  refine orderly_startPosition.bind fun start start' _ => ?_
  refine orderly_unaryRule.bind fun first first' hfirst => ?_
  exact .either (fun _ => .ret .refl) fun _ => .loop (fun _ _ _ => orderly_binaryRound least) hfirst

theorem orderly_conditional :
    Orderly place known conditional conditional fun _ => known.further := by
  refine orderly_startPosition.bind fun start start' _ => ?_
  refine (orderly_binaryRule 0).bind fun test test' _ => ?_
  refine .either (fun _ => .ret .refl) fun _ => ?_
  refine (orderly_accept rfl).choose ?_ (.ret .refl)
  refine (orderly_allowingIn (orderly_assignment (.inl .behind))).bind
    fun consequent consequent' _ => ?_
  refine (orderly_expect rfl).step fun _ => ?_
  exact (orderly_assignment (.inl .behind)).bind fun alternate alternate' _ =>
    .spanned fun _ => .refl

theorem orderly_yieldExpression :
    Orderly place (known.facing (.keyword .yield)) yieldExpression yieldExpression
      fun _ => known.further := by
  refine orderly_startPosition.bind fun start start' _ => ?_
  refine (orderly_skip (Token.isPlain_keyword _)).step fun _ => ?_
  refine orderly_newlineBefore.step fun newline => orderly_look fun token => ?_
  refine .either (fun _ => .spanned fun _ => .forget) fun _ => ?_
  refine (orderly_acceptAny rfl).step fun delegate => ?_
  exact (orderly_assignment (.inl .behind)).bind fun argument argument' _ => .spanned fun _ => .refl

theorem orderly_assignmentBody :
    Orderly place known assignmentBody assignmentBody fun _ => known.further := by
  refine orderly_startPosition.bind fun start start' _ => ?_
  refine orderly_conditional.bind fun left left' _ => orderly_look fun token => ?_
  cases hoperator : AssignmentOperator.ofToken? token with
  | none => exact .ret .forget
  | some operator =>
    refine orderly_nameRules.step fun rules => orderly_ensure.bind fun target target' _ => ?_
    refine (orderly_skip (Token.isPlain_of_some hoperator rfl rfl (fun _ => rfl) (fun _ => rfl)
      rfl)).step fun _ => ?_
    exact (orderly_assignment (.inl .behind)).bind fun value value' _ => .spanned fun _ => .refl

theorem orderly_assignmentRule :
    Orderly place known assignmentRule assignmentRule fun _ => known.further := by
  refine orderly_context.step fun context => .either (fun _ => ?_) fun _ => orderly_assignmentBody
  exact (orderly_nextIsWord .yield).choose orderly_yieldExpression orderly_assignmentBody

end EcmaScript.Script
