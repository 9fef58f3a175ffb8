import EcmaScript.Proofs.Orderly.Pattern

/-!
The rules for statement lists, functions and classes are orderly.
-/

namespace EcmaScript

/-- The twin of a key that is a private name is a private name. -/
theorem Twins.eq_privateNameKey {name : PrivateName} {key : PropertyKey}
    (h : Twins (.privateName name) key) : ∃ name', key = .privateName name' ∧ Twins name name' := by
  have hbare := h.bare_eq
  cases key with
  | privateName name' => exact ⟨name', rfl, ⟨PropertyKey.privateName.inj hbare⟩⟩
  | _ => cases hbare

namespace Script

open Grammar (ListRead Modifiers)

variable {place : Setting} {known : Known} {start start' : Position}

/-! ## Statement lists and functions -/

theorem orderly_statementListRound {done : Script Bool} {list list' : ListRead}
    [Twins list list'] (hhead : place.inHead = false) (hlax : place.lax = true)
    (hbegun : place.begun = true)
    (hdone : Orderly place known.inRound done done fun _ => known.inRound) :
    Orderly place known.inRound (statementListRound done list) (statementListRound done list')
      (known.round known.opened) := by
  refine hdone.ask (.ret .stopped) ?_
  refine (orderly_statement hhead (.begun hbegun)).bind fun statement statement' _ => ?_
  exact .checked (.beStrict hlax) (.ret .refl)

theorem orderly_statementList {done : Script Bool} (hhead : place.inHead = false)
    (hlax : place.lax = true) (h : place.IsReady known)
    (hdone : Orderly (place.inRound known.moved) known.inRound done done fun _ => known.inRound) :
    Orderly place known (statementList done) (statementList done) fun _ => known.blind :=
  .loop (fun _ _ _ => orderly_statementListRound hhead hlax h hdone) inferInstance

theorem orderly_blockRound {statements statements' : List Statement} [Twins statements statements']
    (hhead : place.inHead = false) (hbegun : place.begun = true) :
    Orderly place known.inRound (blockRound statements) (blockRound statements')
      (known.round known.opened) := by
  refine (orderly_askNextIs .rBrace).ask (.ret .stopped) ?_
  exact (orderly_statement hhead (.begun hbegun)).bind fun statement statement' _ => .ret .refl

theorem orderly_block (hhead : place.inHead = false) :
    Orderly place known block block fun _ => known.further := by
  refine orderly_expectOpen.step fun _ => ?_
  refine (Orderly.loop (fun _ _ _ => orderly_blockRound hhead rfl) inferInstance).bind
    fun body body' _ => ?_
  exact orderly_expectClose.step fun _ => .ret .refl

theorem orderly_functionBody (hhead : place.inHead = false) (hlax : place.lax = true) :
    Orderly place known functionBody functionBody fun _ => known.further := by
  refine orderly_expectOpen.step fun _ => ?_
  refine (orderly_statementList hhead hlax .behind (orderly_askNextIs .rBrace)).bind
    fun body body' _ => ?_
  exact orderly_expectClose.step fun _ => .ret .refl

theorem orderly_formalParametersRound {params params' : List Pattern} [Twins params params']
    (hbegun : place.begun = true) :
    Orderly place known.inRound (formalParametersRound params) (formalParametersRound params')
      (known.round known.opened) := by
  refine (orderly_accept rfl).choose (.ret .stopped) ?_
  refine (orderly_askNextIs .spread).ask ?_ ?_
  · refine orderly_restElement.bind fun rest rest' _ => ?_
    exact (orderly_expect rfl).step fun _ => .ret .stopped
  refine (orderly_bindingElement (.begun hbegun)).bind fun param param' _ => ?_
  refine (orderly_accept rfl).choose (.ret .refl) ?_
  exact (orderly_expect rfl).step fun _ => .ret .stopped

theorem orderly_formalParameters :
    Orderly place known formalParameters formalParameters fun _ => known.further := by
  refine (orderly_expect rfl).step fun _ => ?_
  refine (Orderly.loop (fun _ _ _ => orderly_formalParametersRound rfl) inferInstance).bind
    fun params params' _ => ?_
  exact .ret .refl

theorem orderly_functionRest (isAsync isGenerator isMethod : Bool) :
    Orderly place known (functionRest start isAsync isGenerator isMethod)
      (functionRest start' isAsync isGenerator isMethod) fun _ => known.further := by
  have hcode : Orderly (place.enter (.function isAsync isGenerator isMethod)) known
      (formalParameters >>= fun params => functionBody >>= fun body => pure (params, body))
      (formalParameters >>= fun params => functionBody >>= fun body => pure (params, body))
      fun _ => known.further := by
    refine orderly_formalParameters.bind fun params params' _ => ?_
    exact (orderly_functionBody rfl rfl).bind fun body body' _ => .ret .refl
  refine (Orderly.within _ hcode).bind fun read read' hread => ?_
  obtain ⟨params, body⟩ := read
  obtain ⟨params', body'⟩ := read'
  have hparams : Twins params params' := hread.of_fst
  have hbody : Twins body body' := hread.of_snd
  exact .spanned fun _ => .refl

theorem orderly_methodFunction (isAsync isGenerator : Bool) :
    Orderly place known (methodFunction isAsync isGenerator) (methodFunction isAsync isGenerator)
      fun _ => known.further :=
  orderly_startPosition.bind fun _ _ _ => orderly_functionRest isAsync isGenerator true

theorem orderly_optionalName :
    Orderly place known optionalName optionalName fun _ => known.blind := by
  refine orderly_nextIsIdentifier.ask ?_ (.ret .forget)
  exact .weaken .refl (.map (.map orderly_bindingIdentifier)) fun _ => .behind

theorem orderly_functionExpression (isAsync : Bool) :
    Orderly place known (functionExpression start isAsync) (functionExpression start' isAsync)
      fun _ => known.further := by
  refine (orderly_expectWord .function).step fun _ => ?_
  refine (orderly_acceptAny rfl).step fun isGenerator => ?_
  refine orderly_optionalName.step fun name => ?_
  exact (orderly_functionRest isAsync isGenerator false).bind fun function function' _ => .ret .refl

theorem orderly_arrowFunction {params params' : List Pattern} [Twins params params']
    (isAsync : Bool) :
    Orderly place known (arrowFunction start params isAsync) (arrowFunction start' params' isAsync)
      fun _ => known.further := by
  refine (orderly_expect rfl).step fun _ => ?_
  have hbody (isBlock : Bool) : Orderly (place.enter (.arrow isAsync)) known.further
      (if isBlock then ArrowBody.block <$> functionBody else ArrowBody.expression <$> assignment)
      (if isBlock then ArrowBody.block <$> functionBody else ArrowBody.expression <$> assignment)
      fun _ => known.further :=
    .either (fun _ => .map (orderly_functionBody rfl rfl))
      fun _ => .map (orderly_assignment (.inl .behind))
  refine (Orderly.arrow isAsync hbody).bind fun body body' _ => ?_
  exact .spanned fun _ => .refl

/-! ## Class elements -/

theorem orderly_staticRole :
    Orderly place known staticRole staticRole fun _ => known.blind := by
  refine (orderly_nextIsWord .static).choose ?_ (.ret .forget)
  refine (orderly_peekSecond rfl).step fun read => ?_
  obtain ⟨second, newline⟩ := read
  refine .either (fun _ => ?_) fun _ => .either (fun _ => .ret .forget) fun _ => ?_
  · exact (orderly_skip (Token.isPlain_keyword _)).step fun _ => .ret .behind
  · exact (orderly_skip (Token.isPlain_keyword _)).step fun _ => .ret .behind

theorem orderly_asyncModifier :
    Orderly place known asyncModifier asyncModifier fun _ => known.blind := by
  refine (orderly_nextIsWord .async).choose ?_ (.ret .forget)
  refine (orderly_peekSecond rfl).step fun read => ?_
  obtain ⟨second, newline⟩ := read
  refine .either (fun _ => .ret .forget) fun _ => ?_
  exact (orderly_skip (Token.isPlain_keyword _)).step fun _ => .ret .behind

/-- The words for accessors are names. -/
theorem isWord_of_accessorKind? {token : Token} {kind : MethodKind}
    (h : accessorKind? token = some kind) : token.isWord = true ∧ token.IsPlain := by
  unfold accessorKind? at h
  split at h
  · exact ⟨rfl, Token.isPlain_identifier _ _⟩
  · exact ⟨rfl, Token.isPlain_identifier _ _⟩
  · cases h

theorem orderly_accessorModifier :
    Orderly place known accessorModifier accessorModifier fun _ => known.blind := by
  refine orderly_look fun token => ?_
  cases hkind : accessorKind? token with
  | none => exact .ret .forget
  | some kind =>
    obtain ⟨hword, hplain⟩ := isWord_of_accessorKind? hkind
    refine (orderly_peekSecond hword).step fun read => ?_
    obtain ⟨second, newline⟩ := read
    refine .either (fun _ => .ret .forget) fun _ => ?_
    exact (orderly_skip hplain).step fun _ => .ret .behind

theorem orderly_modifiers : Orderly place known modifiers modifiers fun _ => known.blind := by
  refine orderly_asyncModifier.step fun isAsync => ?_
  refine (orderly_acceptAny rfl).step fun isGenerator => ?_
  refine .either (fun _ => ?_) fun _ => ?_
  · exact .step (.ret .refl) fun accessor => .ret .refl
  · exact orderly_accessorModifier.step fun accessor => .ret .refl

theorem orderly_classKey :
    Orderly place known classKey classKey fun read => known.further.naming read.1.isPrivate := by
  refine orderly_nextIsPrivateName.ask ?_ orderly_propertyKey_naming
  exact orderly_privateName.bind fun name name' _ => .ret .refl

theorem orderly_classMethod {key key' : PropertyKey} [hkey : Twins key key']
    (hnamed : key.isPrivate = true → known.named = true) (computed isStatic : Bool) (m : Modifiers) :
    Orderly place known (classMethod start key computed isStatic m)
      (classMethod start' key' computed isStatic m) fun _ => known.further := by
  refine orderly_ensure.step fun kind => ?_
  refine (Orderly.inMethod hnamed hkey (orderly_methodFunction _ _)).bind
    fun function function' _ => ?_
  exact orderly_ensure.step fun _ => .spanned fun _ => .refl

theorem orderly_inFieldInitializer {α : Type} [Bare α] {body body' : Script α} {after : α → Known}
    (h : Orderly { place with inHead := false } known body body' after) :
    Orderly place known (inFieldInitializer body) (inFieldInitializer body') after :=
  .within .fieldInitializer (orderly_allowingIn h)

theorem orderly_fieldValue : Orderly place known fieldValue fieldValue fun _ => known.blind := by
  refine (orderly_accept rfl).choose ?_ (.ret .forget)
  have hvalue : Orderly place known.further (inFieldInitializer assignment)
      (inFieldInitializer assignment) fun _ => known.further :=
    orderly_inFieldInitializer (orderly_assignment (.inl .behind))
  exact .weaken .refl (.map hvalue) fun _ => .behind

theorem orderly_classField {key key' : PropertyKey} [Twins key key'] (computed isStatic : Bool) :
    Orderly place known.further (classField start key computed isStatic)
      (classField start' key' computed isStatic) fun _ => known.further := by
  unfold classField
  refine .checked (orderly_fail _ _ _ _) ?_
  refine orderly_fieldValue.bind fun value value' _ => ?_
  exact orderly_endStatement.step fun _ => .spanned fun _ => .refl

theorem orderly_staticBlock :
    Orderly place known (staticBlock start) (staticBlock start') fun _ => known.further :=
  (Orderly.within .staticBlock (orderly_block rfl)).bind fun _ _ _ => .spanned fun _ => .refl

theorem orderly_classElement :
    Orderly place known classElement classElement fun _ => known.further := by
  refine orderly_startPosition.bind fun start start' _ => ?_
  refine orderly_staticRole.step fun role => ?_
  refine .either (fun _ => orderly_staticBlock) fun _ => ?_
  refine orderly_modifiers.step fun m => ?_
  refine orderly_classKey.bind fun read read' hread => ?_
  obtain ⟨key, computed⟩ := read
  obtain ⟨key', computed'⟩ := read'
  have hkey : Twins key key' := hread.of_fst
  obtain rfl : computed = computed' := hread.of_snd.eq
  refine (orderly_askNextIs .lParen).step fun isMethod => ?_
  refine .checked orderly_unexpected ?_
  have hmember (isStatic : Bool) : Orderly place (known.naming key.isPrivate).further
      (if isMethod then classMethod start key computed isStatic m
        else classField start key computed isStatic)
      (if isMethod then classMethod start' key' computed isStatic m
        else classField start' key' computed isStatic) fun _ => (known.naming key.isPrivate).further :=
    .either (fun _ => orderly_classMethod (fun h => by rw [h]; rfl) computed isStatic m)
      fun _ => orderly_classField computed isStatic
  refine .weaken .refl ?_ fun _ => (.unnamed : (known.naming key.isPrivate).further.Implies _)
  cases key with
  | privateName name =>
    obtain ⟨name', rfl, hname⟩ := hkey.eq_privateNameKey
    exact (orderly_declarePrivate rfl _ start start').step fun _ => hmember _
  | _ =>
    cases key' with
    | privateName name' =>
      obtain ⟨name, hsame, _⟩ := hkey.symm.eq_privateNameKey
      cases hsame
    | _ => exact hmember _

/-! ## Classes -/

theorem orderly_classElementsRound {elements elements' : List ClassElement}
    [Twins elements elements'] :
    Orderly place known.braced.inRound (classElementsRound elements)
      (classElementsRound elements') (known.braced.round known.opened) := by
  refine (orderly_accept rfl).choose (.ret .refl) ?_
  refine orderly_acceptClose.choose (.ret .stopped) ?_
  refine orderly_classElement.bind fun element element' _ => ?_
  exact .checked (orderly_fail _ _ _ _) (.ret .refl)

theorem orderly_classElements :
    Orderly place known.braced classElements classElements fun _ => known.further :=
  (Orderly.loop (fun _ _ _ => orderly_classElementsRound) inferInstance).bind
    fun _ _ _ => .ret .refl

theorem orderly_classBody : Orderly place known classBody classBody fun _ => known.further := by
  refine orderly_startPosition.bind fun start start' _ => ?_
  refine orderly_expectOpen.step fun _ => ?_
  exact (Orderly.inClass orderly_classElements).bind fun elements elements' _ =>
    .spanned fun _ => .refl

theorem orderly_className (isDeclaration : Bool) :
    Orderly place known (className isDeclaration) (className isDeclaration)
      fun _ => known.blind := by
  refine orderly_nextIsIdentifier.ask ?_ (.either (fun _ => orderly_unexpected) fun _ =>
    .ret .forget)
  exact .weaken .refl (.map (.map orderly_bindingIdentifier)) fun _ => .behind

theorem orderly_classHeritage :
    Orderly place known classHeritage classHeritage fun _ => known.blind := by
  refine (orderly_acceptWord .extends_).choose ?_ (.ret .forget)
  exact .weaken .refl (.map (orderly_leftHandSide .behind)) fun _ => .behind

theorem orderly_classDefinition (isDeclaration : Bool) :
    Orderly place known (classDefinition start isDeclaration)
      (classDefinition start' isDeclaration) fun _ => known.further := by
  refine (orderly_expectWord .class_).step fun _ => .within .classCode ?_
  refine (orderly_className isDeclaration).step fun name => ?_
  refine orderly_classHeritage.bind fun superClass superClass' _ => ?_
  refine orderly_classBody.bind fun body body' _ => ?_
  exact .spanned fun _ => .refl

end Script

end EcmaScript
