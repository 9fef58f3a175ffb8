import EcmaScript.Proofs.Orderly.Expression

/-!
The rules for statements and programs are orderly.
-/

namespace EcmaScript

theorem Twins.of_declarator {id id' : Pattern} {init init' : Option Expression}
    (h : Twins (Declarator.mk id init) ⟨id', init'⟩) : Twins id id' ∧ Twins init init' := by
  obtain ⟨hid, hinit⟩ := Declarator.mk.inj h.bare_eq
  rw [bareOptional_eq, bareOptional_eq] at hinit
  exact ⟨⟨hid⟩, ⟨hinit⟩⟩

/-- The word that begins a declaration. -/
@[reducible] def VariableKind.word : VariableKind → Keyword
  | .var => .var
  | .let_ => .let_
  | .const => .const

/-- What is known behind the question whether a declaration begins with the next token. -/
@[reducible] def Known.declaring (known : Known) : Option VariableKind → Known
  | some kind => known.facing (.keyword kind.word)
  | none => known

namespace Script

variable {place : Setting} {known : Known} {start start' : Position} {word : Keyword}

/-! ## Declarations -/

theorem orderly_initializer :
    Orderly place known initializer initializer fun _ => known.blind := by
  refine (orderly_accept rfl).choose ?_ (.ret .forget)
  exact .weaken .refl (.map (orderly_assignment (.inl .behind))) fun _ => .behind

theorem orderly_declaratorsRound (kind : VariableKind) (needInit : Bool)
    {declarators declarators' : List Declarator} [Twins declarators declarators']
    (hbegun : place.begun = true) :
    Orderly place known.inRound (declaratorsRound kind needInit declarators)
      (declaratorsRound kind needInit declarators') (known.round known.opened) := by
  refine (orderly_bindingTarget (.begun hbegun)).bind fun id id' _ => ?_
  refine orderly_initializer.bind fun init init' _ => ?_
  refine .checked orderly_unexpected ?_
  exact (orderly_accept rfl).choose (.ret .refl) (.ret .stopped)

theorem orderly_declarators (kind : VariableKind) (needInit : Bool) :
    Orderly place known.further (declarators kind needInit) (declarators kind needInit)
      fun _ => known.further :=
  (Orderly.loop (fun _ _ _ => orderly_declaratorsRound kind needInit rfl) inferInstance).bind
    fun _ _ _ => .ret .refl

theorem orderly_variableStatement (kind : VariableKind) :
    Orderly place (known.facing (.keyword word)) (variableStatement start kind)
      (variableStatement start' kind) fun _ => known.further := by
  refine (orderly_skip (Token.isPlain_keyword _)).step fun _ => ?_
  refine (orderly_declarators kind true).bind fun declarators declarators' _ => ?_
  exact orderly_endStatement.step fun _ => .spanned fun _ => .refl

theorem orderly_letBeginsDeclaration :
    Orderly place (known.facing (.keyword word)) letBeginsDeclaration letBeginsDeclaration
      fun _ => known.facing (.keyword word) :=
  (orderly_peekSecond rfl).step fun _ => .ret .refl

theorem orderly_asyncBeginsFunction :
    Orderly place (known.facing (.keyword word)) asyncBeginsFunction asyncBeginsFunction
      fun _ => known.facing (.keyword word) :=
  (orderly_peekSecond rfl).step fun _ => .ret .refl

theorem orderly_functionDeclaration (isAsync : Bool) :
    Orderly place known (functionDeclaration start isAsync) (functionDeclaration start' isAsync)
      fun _ => known.further := by
  refine (orderly_expectWord .function).step fun _ => ?_
  refine (orderly_acceptAny rfl).step fun isGenerator => ?_
  refine orderly_bindingIdentifier.bind fun read read' hread => ?_
  obtain ⟨name, span⟩ := read
  obtain ⟨name', span'⟩ := read'
  obtain rfl : name = name' := hread.of_fst.eq
  exact (orderly_functionRest _ _ _).bind fun function function' _ => .ret .refl

theorem orderly_classDeclaration :
    Orderly place known (classDeclaration start) (classDeclaration start')
      fun _ => known.further := by
  refine (orderly_classDefinition true).bind fun read read' hread => ?_
  obtain ⟨name, definition⟩ := read
  obtain ⟨name', definition'⟩ := read'
  obtain rfl : name = name' := hread.of_fst.eq
  have hdefinition : Twins definition definition' := hread.of_snd
  cases name with
  | some name => exact .ret .refl
  | none => exact orderly_unexpectedAt _ _

/-! ## Control flow -/

theorem orderly_returnArgument :
    Orderly place known.further returnArgument returnArgument fun _ => known.further :=
  orderly_atStatementEnd.ask (.ret .refl) (.map (orderly_expression (.inl .behind)))

theorem orderly_returnStatement :
    Orderly place (known.facing (.keyword word)) (returnStatement start) (returnStatement start')
      fun _ => known.further := by
  refine orderly_context.step fun context => .required (orderly_fail _ _ _ _) ?_
  refine (orderly_skip (Token.isPlain_keyword _)).step fun _ => ?_
  refine orderly_returnArgument.bind fun argument argument' _ => ?_
  exact orderly_endStatement.step fun _ => .spanned fun _ => .refl

theorem orderly_ifAlternate (hhead : place.inHead = false) :
    Orderly place known ifAlternate ifAlternate fun _ => known.blind := by
  refine (orderly_acceptWord .else_).choose ?_ (.ret .forget)
  exact .weaken .refl (.map (orderly_statement hhead .behind)) fun _ => .behind

theorem orderly_ifStatement (hhead : place.inHead = false) :
    Orderly place (known.facing (.keyword word)) (ifStatement start) (ifStatement start')
      fun _ => known.further := by
  refine (orderly_skip (Token.isPlain_keyword _)).step fun _ => ?_
  refine orderly_headExpression.bind fun test test' _ => ?_
  refine (orderly_statement hhead .behind).bind fun consequent consequent' _ => ?_
  exact (orderly_ifAlternate hhead).bind fun alternate alternate' _ => .spanned fun _ => .refl

theorem orderly_loopBody (hhead : place.inHead = false) :
    Orderly place known.further loopBody loopBody fun _ => known.further :=
  .within .loopBody (orderly_statement hhead .behind)

theorem orderly_whileStatement (hhead : place.inHead = false) :
    Orderly place (known.facing (.keyword word)) (whileStatement start) (whileStatement start')
      fun _ => known.further := by
  refine (orderly_skip (Token.isPlain_keyword _)).step fun _ => ?_
  refine orderly_headExpression.bind fun test test' _ => ?_
  exact (orderly_loopBody hhead).bind fun body body' _ => .spanned fun _ => .refl

theorem orderly_doWhileStatement (hhead : place.inHead = false) :
    Orderly place (known.facing (.keyword word)) (doWhileStatement start)
      (doWhileStatement start') fun _ => known.further := by
  refine (orderly_skip (Token.isPlain_keyword _)).step fun _ => ?_
  refine (orderly_loopBody hhead).bind fun body body' _ => ?_
  refine (orderly_expectWord .while).step fun _ => ?_
  refine orderly_headExpression.bind fun test test' _ => ?_
  exact (orderly_acceptAny rfl).step fun _ => .spanned fun _ => .refl

/-- Where the head of a loop goes on with `in` or `of`, that word is next. -/
theorem orderly_ifInOrOf {α : Type} [Bare α] {yes yes' no no' : Script α} {after : α → Known}
    (hyes : ∀ {token : Token}, token.IsPlain → Orderly place (known.facing token) yes yes' after)
    (hno : Orderly place known no no' after) :
    Orderly place known (ifInOrOf yes no) (ifInOrOf yes' no') after := by
  refine (orderly_nextIsWord .in_).choose (hyes (Token.isPlain_keyword _)) ?_
  exact (orderly_nextIsName "of").choose (hyes (Token.isPlain_identifier _ _)) hno

theorem orderly_forRight (isOf : Bool) :
    Orderly place known.further (forRight isOf) (forRight isOf) fun _ => known.further :=
  .either (fun _ => orderly_assignment (.inl .behind)) fun _ => orderly_expression (.inl .behind)

theorem orderly_forInOrOf {token : Token} {target target' : ForTarget} [Twins target target']
    (hhead : place.inHead = false) (h : token.IsPlain) :
    Orderly place (known.facing token) (forInOrOf start target) (forInOrOf start' target')
      fun _ => known.further := by
  refine .step (orderly_asking fun _ => ⟨_, rfl⟩) fun isOf => ?_
  refine (orderly_skip h).step fun _ => ?_
  refine (orderly_forRight isOf).bind fun right right' _ => ?_
  refine (orderly_expect rfl).step fun _ => ?_
  exact (orderly_loopBody hhead).bind fun body body' _ => .spanned fun _ => .refl

theorem orderly_expressionUnless (symbol : Punctuator) :
    Orderly place known.further (expressionUnless symbol) (expressionUnless symbol)
      fun _ => known.further :=
  (orderly_askNextIs symbol).ask (.ret .refl) (.map (orderly_expression (.inl .behind)))

theorem orderly_forRest {init init' : Option ForInit} [Twins init init']
    (hhead : place.inHead = false) :
    Orderly place known (forRest start init) (forRest start' init') fun _ => known.further := by
  refine (orderly_expect rfl).step fun _ => ?_
  refine (orderly_expressionUnless .semicolon).bind fun test test' _ => ?_
  refine (orderly_expect rfl).step fun _ => ?_
  refine (orderly_expressionUnless .rParen).bind fun update update' _ => ?_
  refine (orderly_expect rfl).step fun _ => ?_
  exact (orderly_loopBody hhead).bind fun body body' _ => .spanned fun _ => .refl

theorem orderly_forDeclarationKind :
    Orderly place known.further forDeclarationKind forDeclarationKind known.further.declaring := by
  refine orderly_look fun token => ?_
  cases token with
  | keyword word =>
    cases word with
    | var => exact .ret .refl
    | const => exact .ret .refl
    | let_ =>
      refine orderly_letBeginsDeclaration.step fun begins => ?_
      cases begins with
      | true => exact .ret .refl
      | false => exact .ret .forget
    | _ => exact .ret .forget
  | _ => exact .ret .forget

theorem orderly_forDeclared {declarators declarators' : List Declarator} (kind : VariableKind)
    [hdeclarators : Twins declarators declarators'] (hhead : place.inHead = false) :
    Orderly place known (forDeclared start kind declarators) (forDeclared start' kind declarators')
      fun _ => known.further := by
  have hplain : Orderly place known (forRest start (some (.variables kind declarators)))
      (forRest start' (some (.variables kind declarators'))) fun _ => known.further :=
    orderly_forRest hhead
  cases declarators with
  | nil =>
    obtain rfl := hdeclarators.eq_nil
    exact hplain
  | cons declarator rest =>
    obtain ⟨declarator', rest', rfl, hdeclarator, hrest⟩ := hdeclarators.eq_cons
    obtain ⟨id, init⟩ := declarator
    obtain ⟨id', init'⟩ := declarator'
    obtain ⟨hid, hinit⟩ := hdeclarator.of_declarator
    cases init with
    | some value =>
      obtain ⟨value', rfl, _⟩ := hinit.eq_some
      exact hplain
    | none =>
      obtain rfl := hinit.eq_none
      cases rest with
      | nil =>
        obtain rfl := hrest.eq_nil
        exact orderly_ifInOrOf (orderly_forInOrOf hhead) hplain
      | cons other rest =>
        obtain ⟨other', rest', rfl, _, _⟩ := hrest.eq_cons
        exact hplain

theorem orderly_forDeclaration (kind : VariableKind) (hhead : place.inHead = false) :
    Orderly place (known.facing (.keyword word)) (forDeclaration start kind)
      (forDeclaration start' kind) fun _ => known.further := by
  refine (orderly_skip (Token.isPlain_keyword _)).step fun _ => ?_
  exact (orderly_withoutIn (orderly_declarators kind false)).bind fun declarators declarators' _ =>
    orderly_forDeclared kind hhead

theorem orderly_forAssigning {token : Token} {value value' : Expression} [Twins value value']
    (hhead : place.inHead = false) (h : token.IsPlain) :
    Orderly place (known.facing token) (forAssigning start value) (forAssigning start' value')
      fun _ => known.further :=
  orderly_nameRules.step fun _ => orderly_ensure.bind fun _ _ _ => orderly_forInOrOf hhead h

theorem orderly_forExpression (hhead : place.inHead = false) :
    Orderly place known.further (forExpression start) (forExpression start')
      fun _ => known.further := by
  refine (orderly_withoutIn (orderly_expression (.inl .behind))).bind fun value value' _ => ?_
  exact orderly_ifInOrOf (orderly_forAssigning hhead) (orderly_forRest hhead)

theorem orderly_forStatement (hhead : place.inHead = false) :
    Orderly place (known.facing (.keyword word)) (forStatement start) (forStatement start')
      fun _ => known.further := by
  refine (orderly_skip (Token.isPlain_keyword _)).step fun _ => ?_
  refine (orderly_expect rfl).step fun _ => ?_
  refine orderly_forDeclarationKind.step fun kind => ?_
  cases kind with
  | some kind =>
    exact (orderly_askNextIs .semicolon).ask (orderly_forRest hhead)
      (orderly_forDeclaration kind hhead)
  | none =>
    exact (orderly_askNextIs .semicolon).ask (orderly_forRest hhead) (orderly_forExpression hhead)

theorem orderly_jumpLabel : Orderly place known jumpLabel jumpLabel fun _ => known.blind := by
  refine orderly_newlineBefore.ask (.ret .forget) ?_
  refine orderly_nextIsIdentifier.ask ?_ (.ret .forget)
  refine orderly_identifierReference.bind fun read read' hread => ?_
  obtain ⟨label, span⟩ := read
  obtain ⟨label', span'⟩ := read'
  obtain rfl : label = label' := hread.of_fst.eq
  exact .ret .behind

theorem orderly_breakStatement :
    Orderly place (known.facing (.keyword word)) (breakStatement start) (breakStatement start')
      fun _ => known.further := by
  refine (orderly_skip (Token.isPlain_keyword _)).step fun _ => ?_
  refine orderly_jumpLabel.step fun label => ?_
  refine orderly_context.step fun context => .checked (orderly_fail _ _ _ _) ?_
  exact orderly_endStatement.step fun _ => .spanned fun _ => .refl

theorem orderly_continueStatement :
    Orderly place (known.facing (.keyword word)) (continueStatement start)
      (continueStatement start') fun _ => known.further := by
  refine (orderly_skip (Token.isPlain_keyword _)).step fun _ => ?_
  refine orderly_jumpLabel.step fun label => ?_
  refine orderly_context.step fun context => .checked (orderly_fail _ _ _ _) ?_
  exact orderly_endStatement.step fun _ => .spanned fun _ => .refl

/-! ## Exceptions and choices -/

theorem orderly_throwStatement :
    Orderly place (known.facing (.keyword word)) (throwStatement start) (throwStatement start')
      fun _ => known.further := by
  refine (orderly_skip (Token.isPlain_keyword _)).step fun _ => ?_
  refine orderly_newlineBefore.step fun newline => .checkedAt orderly_lastEnd ?_
  refine (orderly_expression (.inl .behind)).bind fun argument argument' _ => ?_
  exact orderly_endStatement.step fun _ => .spanned fun _ => .refl

theorem orderly_catchParameter :
    Orderly place known catchParameter catchParameter fun _ => known.blind := by
  refine (orderly_accept rfl).choose ?_ (.ret .forget)
  refine (orderly_bindingTarget .behind).bind fun param param' _ => ?_
  exact (orderly_expect rfl).step fun _ => .ret .behind

theorem orderly_catchClause (hhead : place.inHead = false) :
    Orderly place known catchClause catchClause fun _ => known.blind := by
  refine (orderly_acceptWord .catch_).choose ?_ (.ret .forget)
  refine orderly_catchParameter.bind fun param param' _ => ?_
  exact (orderly_block hhead).bind fun body body' _ => .ret .behind

theorem orderly_finalizer (hhead : place.inHead = false) :
    Orderly place known finalizer finalizer fun _ => known.blind := by
  refine (orderly_acceptWord .finally_).choose ?_ (.ret .forget)
  exact .weaken .refl (.map (orderly_block hhead)) fun _ => .behind

theorem orderly_tryStatement (hhead : place.inHead = false) :
    Orderly place (known.facing (.keyword word)) (tryStatement start) (tryStatement start')
      fun _ => known.further := by
  refine (orderly_skip (Token.isPlain_keyword _)).step fun _ => ?_
  refine (orderly_block hhead).bind fun body body' _ => ?_
  refine (orderly_catchClause hhead).bind fun handler handler' _ => ?_
  refine (orderly_finalizer hhead).bind fun finalizer finalizer' _ => ?_
  exact .checked (orderly_fail _ _ _ _) (.spanned fun _ => .refl)

theorem orderly_caseTest (hasDefault : Bool) :
    Orderly place known (caseTest hasDefault) (caseTest hasDefault) fun _ => known.further := by
  refine orderly_startPosition.bind fun start start' _ => ?_
  refine (orderly_acceptWord .case).choose (.map (orderly_expression (.inl .behind))) ?_
  exact (orderly_acceptWord .default).choose (.checked (orderly_fail _ _ _ _) (.ret .refl))
    orderly_unexpected

theorem orderly_caseBodyRound {statements statements' : List Statement}
    [Twins statements statements'] (hhead : place.inHead = false) (hbegun : place.begun = true) :
    Orderly place known.inRound (caseBodyRound statements) (caseBodyRound statements')
      (known.round known.opened) := by
  refine orderly_look fun token => .either (fun _ => .ret .stopped) fun _ => ?_
  exact (orderly_statement hhead (.begun hbegun)).bind fun statement statement' _ => .ret .refl

theorem orderly_caseBody (hhead : place.inHead = false) :
    Orderly place known.further caseBody caseBody fun _ => known.further :=
  (Orderly.loop (fun _ _ _ => orderly_caseBodyRound hhead rfl) inferInstance).bind
    fun _ _ _ => .ret .refl

theorem orderly_switchCasesRound {cases cases' : List SwitchCase} [Twins cases cases']
    (hhead : place.inHead = false) :
    Orderly place known.braced.inRound (switchCasesRound cases) (switchCasesRound cases')
      (known.braced.round known.opened) := by
  refine orderly_acceptClose.choose (.ret .stopped) ?_
  have hdefault : cases.any (·.test.isNone) = cases'.any (·.test.isNone) := Twins.eq inferInstance
  rw [hdefault]
  refine (orderly_caseTest _).bind fun test test' _ => ?_
  refine (orderly_expect rfl).step fun _ => ?_
  exact (orderly_caseBody hhead).bind fun body body' _ => .ret .refl

theorem orderly_switchCases (hhead : place.inHead = false) :
    Orderly place known.braced switchCases switchCases fun _ => known.further :=
  (Orderly.loop (fun _ _ _ => orderly_switchCasesRound hhead) inferInstance).bind
    fun _ _ _ => .ret .refl

theorem orderly_switchStatement (hhead : place.inHead = false) :
    Orderly place (known.facing (.keyword word)) (switchStatement start) (switchStatement start')
      fun _ => known.further := by
  refine (orderly_skip (Token.isPlain_keyword _)).step fun _ => ?_
  refine orderly_headExpression.bind fun discriminant discriminant' _ => ?_
  refine orderly_expectOpen.step fun _ => ?_
  exact (Orderly.within .switchBody (orderly_switchCases hhead)).bind fun cases cases' _ =>
    .spanned fun _ => .refl

/-! ## Statements -/

theorem orderly_debuggerStatement :
    Orderly place (known.facing (.keyword word)) (debuggerStatement start)
      (debuggerStatement start') fun _ => known.further :=
  (orderly_skip (Token.isPlain_keyword _)).step fun _ =>
    orderly_endStatement.step fun _ => .spanned fun _ => .refl

theorem orderly_emptyStatement :
    Orderly place (known.facing (.punctuator .semicolon)) (emptyStatement start)
      (emptyStatement start') fun _ => known.further :=
  (orderly_skip (Token.isPlain_punctuator rfl)).step fun _ => .spanned fun _ => .refl

theorem orderly_blockStatement (hhead : place.inHead = false) :
    Orderly place known (blockStatement start) (blockStatement start') fun _ => known.further :=
  (orderly_block hhead).bind fun _ _ _ => .spanned fun _ => .refl

theorem orderly_expressionEnd {value value' : Expression} [Twins value value'] :
    Orderly place known.further (expressionEnd start value) (expressionEnd start' value')
      fun _ => known.further :=
  orderly_endStatement.step fun _ => .spanned fun _ => .refl

theorem orderly_expressionStatement (hhead : place.inHead = false) (hleads : place.leads = true) :
    Orderly place known (expressionStatement start) (expressionStatement start')
      fun _ => known.further := by
  refine (orderly_expression (.inr hleads)).bind fun value value' _ => ?_
  have hlabel : Grammar.labelOf? value = Grammar.labelOf? value' := Twins.eq inferInstance
  rw [← hlabel]
  cases Grammar.labelOf? value with
  | none => exact orderly_expressionEnd
  | some label =>
    refine (orderly_accept rfl).choose ?_ orderly_expressionEnd
    exact (orderly_statement hhead .behind).bind fun body body' _ => .spanned fun _ => .refl

theorem orderly_keywordStatement (word : Keyword) (hhead : place.inHead = false)
    (hleads : place.leads = true) :
    Orderly place (known.facing (.keyword word)) (keywordStatement start word)
      (keywordStatement start' word) fun _ => known.further := by
  cases word with
  | var => exact orderly_variableStatement .var
  | const => exact orderly_variableStatement .const
  | let_ =>
    exact orderly_letBeginsDeclaration.ask (orderly_variableStatement .let_)
      (orderly_expressionStatement hhead hleads)
  | function => exact orderly_functionDeclaration false
  | async =>
    refine orderly_asyncBeginsFunction.ask ?_ (orderly_expressionStatement hhead hleads)
    exact (orderly_skip (Token.isPlain_keyword _)).step fun _ => orderly_functionDeclaration true
  | class_ => exact orderly_classDeclaration
  | return_ => exact orderly_returnStatement
  | if_ => exact orderly_ifStatement hhead
  | «while» => exact orderly_whileStatement hhead
  | do_ => exact orderly_doWhileStatement hhead
  | for_ => exact orderly_forStatement hhead
  | break_ => exact orderly_breakStatement
  | continue_ => exact orderly_continueStatement
  | throw => exact orderly_throwStatement
  | try_ => exact orderly_tryStatement hhead
  | switch => exact orderly_switchStatement hhead
  | debugger => exact orderly_debuggerStatement
  | import_ => exact orderly_unexpected
  | export_ => exact orderly_unexpected
  | with_ => exact orderly_unexpected
  | _ => exact orderly_expressionStatement hhead hleads

theorem orderly_statementRule (hhead : place.inHead = false) (hleads : place.leads = true) :
    Orderly place known statementRule statementRule fun _ => known.further := by
  refine orderly_startPosition.bind fun start start' _ => orderly_look fun token => ?_
  cases token with
  | punctuator symbol =>
    cases symbol with
    | lBrace => exact orderly_blockStatement hhead
    | semicolon => exact orderly_emptyStatement
    | _ => exact orderly_expressionStatement hhead hleads
  | keyword word => exact orderly_keywordStatement word hhead hleads
  | _ => exact orderly_expressionStatement hhead hleads

theorem orderly_statements (hhead : place.inHead = false) (hlax : place.lax = true)
    (h : place.IsReady known) :
    Orderly place known statements statements fun _ => known.blind :=
  orderly_statementList hhead hlax h (orderly_asking fun _ => ⟨_, rfl⟩)

/-- Where a program stands: its own directives may make it strict. -/
def programPlace : Setting := ⟨false, true, true, false⟩

theorem orderly_program (known : Known) :
    Orderly programPlace known program program fun _ => known.blind := by
  refine (orderly_statements rfl rfl (.begun rfl)).bind fun body body' _ => ?_
  exact orderly_startPosition.bind fun stop stop' _ => .ret .refl

end Script

/-- Where the rule stands that is called, where the call may stand in the head of a loop. -/
def Recurring.entry {α : Type} (inHead : Bool) : Recurring α → Setting
  | .statement => ⟨false, false, false, true⟩
  | _ => ⟨inHead, false, false, false⟩

/-- Every rule that recurs is orderly. -/
theorem Recurring.orderly_script {α : Type} (callee : Recurring α) (inHead : Bool)
    (known : Known) :
    @Script.Orderly (callee.entry inHead) known α callee.bare callee.script callee.script
      fun _ => known.further := by
  cases callee with
  | statement => exact Script.orderly_statementRule rfl rfl
  | assignment => exact Script.orderly_assignmentRule
  | binary least => exact Script.orderly_binaryRule least
  | unary => exact Script.orderly_unaryRule
  | leftHandSide => exact Script.orderly_leftHandSideRule
  | newExpression => exact Script.orderly_newExpressionRule
  | bindingTarget => exact Script.orderly_bindingTargetRule

end EcmaScript
