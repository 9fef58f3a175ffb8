import EcmaScript.Proofs.Telling.Expression

/-!
Statements and programs tell their accounts.
-/

namespace EcmaScript

namespace Tells

open Parse TellsFrom

variable {α β : Type} {g : Grammar (Unit × List Event)} [Telling g]

/-! ## Statements -/

instance declarators (kind : VariableKind) (needInit : Bool) :
    Tells (g.declarators kind needInit) where
  tells := by
    unfold Grammar.declarators Grammar.declaratorsRound
    refine seq (collect g reversed reversed (fun declarators => ?_) rfl) fun declarators _ =>
      done rfl trivial
    refine step fun id _ => quiet fun c => choice fun init _ => guarded fun _ => quiet fun c => ?_
    have hdeclarator : account (⟨id, init⟩ : Declarator) = account id + account init := by
      rw [account_node]
      simp [Function.comp_def]
    refine .ite (fun _ => done ?_ trivial) fun _ => done ?_ trivial
    · rw [Round.either, reversed_cons, hdeclarator, add_assoc]
    · rw [Round.either, reversed_cons, hdeclarator, add_assoc]

instance variableStatement (start : Position) (kind : VariableKind) :
    Tells (g.variableStatement start kind) where
  tells := by
    unfold Grammar.variableStatement
    refine quiet fun _ => step fun declarators _ => quiet fun _ => quiet fun span => made ?_ trivial
    simp [Function.comp_def]

instance functionDeclaration (start : Position) (isAsync : Bool) :
    Tells (g.functionDeclaration start isAsync) where
  tells := by
    unfold Grammar.functionDeclaration
    refine quiet fun _ => quiet fun isGenerator => quiet fun (name, span) => ?_
    refine step fun f _ => made ?_ trivial
    simp

instance classDeclaration (start : Position) : Tells (g.classDeclaration start) where
  tells := by
    unfold Grammar.classDeclaration
    refine step fun (name, definition) _ => ?_
    cases name with
    | none => exact raise _
    | some name =>
      refine made ?_ trivial
      simp

instance returnStatement (start : Position) : Tells (g.returnStatement start) where
  tells := by
    unfold Grammar.returnStatement
    refine quiet fun context => required fun _ => quiet fun _ => quiet fun c => ?_
    refine choice fun argument _ => quiet fun _ => quiet fun span => made ?_ trivial
    simp [Function.comp_def]

instance ifStatement (start : Position) : Tells (g.ifStatement start) where
  tells := by
    unfold Grammar.ifStatement
    refine quiet fun _ => step fun test _ => step fun consequent _ => quiet fun c => ?_
    refine choice fun alternate _ => quiet fun span => made ?_ trivial
    simp [Function.comp_def, add_assoc]

instance loopBody : Tells g.loopBody := within

instance whileStatement (start : Position) : Tells (g.whileStatement start) where
  tells := by
    unfold Grammar.whileStatement
    refine quiet fun _ => step fun test _ => step fun body _ => quiet fun span => made ?_ trivial
    simp

instance doWhileStatement (start : Position) : Tells (g.doWhileStatement start) where
  tells := by
    unfold Grammar.doWhileStatement
    refine quiet fun _ => step fun body _ => quiet fun _ => step fun test _ => quiet fun _ => ?_
    refine quiet fun span => made ?_ trivial
    simp

theorem forInOrOf (start : Position) (target : ForTarget) :
    TellsFrom (account target) (g.forInOrOf start target) account whole := by
  unfold Grammar.forInOrOf
  refine quiet fun isOf => quiet fun _ => choice fun right _ => quiet fun _ => ?_
  refine step fun body _ => quiet fun span => done ?_ trivial
  cases isOf with
  | true =>
    rw [if_pos rfl, account_node]
    simp [add_assoc]
  | false =>
    rw [if_neg Bool.false_ne_true, account_node]
    simp [add_assoc]

theorem forRest (start : Position) (init : Option ForInit) :
    TellsFrom (account init) (g.forRest start init) account whole := by
  unfold Grammar.forRest
  refine quiet fun _ => quiet fun c => choice fun test _ => quiet fun _ => quiet fun c => ?_
  refine choice fun update _ => quiet fun _ => step fun body _ => quiet fun span => made ?_ trivial
  simp [Function.comp_def, add_assoc]

instance forDeclaration (start : Position) (kind : VariableKind) :
    Tells (g.forDeclaration start kind) where
  tells := by
    have hrest (declarators : List Declarator) :
        TellsFrom (account declarators) (g.forRest start (some (.variables kind declarators)))
          account whole := by
      have h := forRest (g := g) start (some (.variables kind declarators))
      have hinit : account (some (ForInit.variables kind declarators)) = account declarators := by
        simp [Node.account_eq (.forInit _), Function.comp_def]
      rwa [hinit] at h
    unfold Grammar.forDeclaration
    refine quiet fun _ => step fun declarators _ => ?_
    rw [zero_add]
    split
    · next id _ =>
      refine quiet fun c => .ite (fun _ => ?_) fun _ => hrest _
      have h := forInOrOf (g := g) start (.variable kind id)
      have htarget : account (ForTarget.variable kind id) =
          account [(⟨id, none⟩ : Declarator)] := by
        simp [Node.account_eq (.forTarget _), Node.account_eq (.declarator _)]
      rwa [htarget] at h
    · exact hrest _

instance forExpression (start : Position) : Tells (g.forExpression start) where
  tells := by
    unfold Grammar.forExpression
    refine step fun value _ => quiet fun c => ?_
    rw [zero_add]
    refine .ite (fun _ => ?_) fun _ => ?_
    · refine quiet fun rules => .ensure fun target htarget => ?_
      have h := forInOrOf (g := g) start target
      have haccount : account target = account value := value.account_toForTarget htarget
      rwa [haccount] at h
    · have h := forRest (g := g) start (some (.expression value))
      have hinit : account (some (ForInit.expression value)) = account value := by
        simp [Node.account_eq (.forInit _)]
      rwa [hinit] at h

instance forStatement (start : Position) : Tells (g.forStatement start) where
  tells := by
    unfold Grammar.forStatement
    refine quiet fun _ => quiet fun _ => quiet fun kind => quiet fun c => ?_
    refine .ite (fun _ => ?_) fun _ => ?_
    · exact forRest start none
    · cases kind with
      | some kind => exact (forDeclaration start kind).tells
      | none => exact (forExpression start).tells

instance breakStatement (start : Position) : Tells (g.breakStatement start) where
  tells := by
    unfold Grammar.breakStatement
    refine quiet fun _ => quiet fun label => quiet fun context => guarded fun _ => quiet fun _ => ?_
    refine quiet fun span => made ?_ trivial
    simp

instance continueStatement (start : Position) : Tells (g.continueStatement start) where
  tells := by
    unfold Grammar.continueStatement
    refine quiet fun _ => quiet fun label => quiet fun context => guarded fun _ => quiet fun _ => ?_
    refine quiet fun span => made ?_ trivial
    simp

instance throwStatement (start : Position) : Tells (g.throwStatement start) where
  tells := by
    have hrest : TellsFrom 0 (do
        let argument ← g.expression
        endStatement
        return Statement.throw argument (← spanFrom start)) account whole := by
      refine step fun argument _ => quiet fun _ => quiet fun span => made ?_ trivial
      simp
    unfold Grammar.throwStatement
    refine quiet fun _ => quiet fun c => .ite (fun _ => ?_) fun _ => hrest
    exact quiet fun _ => raiseThen _

instance catchClause : Tells g.catchClause where
  tells := by
    have hrest (param : Option Pattern) : TellsFrom (account param) (do
        let body ← g.block
        return some (⟨param, body⟩ : CatchClause)) account whole := by
      refine step fun body _ => done ?_ trivial
      simp [Node.account_eq (.catchClause _), Function.comp_def]
    unfold Grammar.catchClause
    refine quiet fun c => .ite (fun _ => quiet fun c => .ite (fun _ => ?_) fun _ => ?_) fun _ => ?_
    · refine step fun param _ => quiet fun _ => ?_
      have h := hrest (some param)
      rwa [show account (some param) = 0 + account param by simp] at h
    · exact hrest none
    · exact done rfl trivial

instance tryStatement (start : Position) : Tells (g.tryStatement start) where
  tells := by
    unfold Grammar.tryStatement
    refine quiet fun _ => step fun body _ => step fun handler _ => quiet fun c => ?_
    refine choice fun finalizer _ => guarded fun _ => quiet fun span => made ?_ trivial
    cases finalizer <;> simp [Function.comp_def, add_assoc]

instance caseTest (hasDefault : Bool) : Tells (g.caseTest hasDefault) where
  tells := by
    unfold Grammar.caseTest
    refine quiet fun start => quiet fun isCase => .ite (fun _ => present.tells) fun _ => ?_
    refine quiet fun isDefault => .ite (fun _ => ?_) fun _ => unexpected.tells
    exact .ite (fun _ => quiet fun _ => absent.tells) fun _ => absent.tells

instance caseBody : Tells g.caseBody where
  tells := by
    unfold Grammar.caseBody Grammar.caseBodyRound
    refine seq (collect g reversed reversed (fun statements => ?_) rfl) fun statements _ =>
      done rfl trivial
    refine quiet fun token => .ite (fun _ => done rfl trivial) fun _ => ?_
    exact step fun statement _ => done (by simp) trivial

instance switchCases : Tells g.switchCases where
  tells := by
    unfold Grammar.switchCases Grammar.switchCasesRound
    refine seq (collect g reversed reversed (fun cases => ?_) rfl) fun cases _ => done rfl trivial
    refine quiet fun c => .ite (fun _ => done rfl trivial) fun _ => ?_
    refine step fun test _ => quiet fun _ => step fun consequent _ => done ?_ trivial
    simp [Node.account_eq (.switchCase _), Function.comp_def, add_assoc]

instance switchStatement (start : Position) : Tells (g.switchStatement start) where
  tells := by
    unfold Grammar.switchStatement
    refine quiet fun _ => step fun discriminant _ => quiet fun _ => step fun cases _ => ?_
    refine quiet fun span => made ?_ trivial
    simp [Function.comp_def]

instance debuggerStatement (start : Position) :
    Tells (Grammar.debuggerStatement start) where
  tells := by
    unfold Grammar.debuggerStatement
    refine quiet fun _ => quiet fun _ => quiet fun span => made ?_ trivial
    simp

instance emptyStatement (start : Position) : Tells (Grammar.emptyStatement start) where
  tells := by
    unfold Grammar.emptyStatement
    refine quiet fun _ => quiet fun span => made ?_ trivial
    simp

instance blockStatement (start : Position) : Tells (g.blockStatement start) where
  tells := by
    unfold Grammar.blockStatement
    refine step fun body _ => quiet fun span => made ?_ trivial
    simp [Function.comp_def]

instance expressionStatement (start : Position) : Tells (g.expressionStatement start) where
  tells := by
    have hrest (value : Expression) : TellsFrom (account value) (do
        endStatement
        return Statement.expression value (← spanFrom start)) account whole := by
      refine quiet fun _ => quiet fun span => made ?_ trivial
      simp
    unfold Grammar.expressionStatement
    refine step fun value _ => ?_
    rw [zero_add]
    split
    · next label hlabel =>
      refine quiet fun c => .ite (fun _ => ?_) fun _ => hrest value
      have hvalue : account value = 0 := by
        cases value with
        | identifier name span => simp [Node.account_eq]
        | _ => cases hlabel
      rw [hvalue]
      refine step fun body _ => quiet fun span => made ?_ trivial
      simp
    · exact hrest value

instance keywordStatement (start : Position) (word : Keyword) :
    Tells (g.keywordStatement start word) := by
  unfold Grammar.keywordStatement
  split <;> infer_instance

instance statementRule : Tells g.statementRule where
  tells := by
    unfold Grammar.statementRule
    refine quiet fun start => quiet fun token => ?_
    split <;> exact Tells.tells

instance statements : Tells g.statements := statementList

end Tells

/-! ## Programs -/

theorem telling_ofDepth (options : Options) (bound depth : Nat) :
    Telling (Grammar.ofDepth options Hooks.permissive.traced bound depth) := by
  induction depth with
  | zero =>
    exact
      { hooks := rfl
        statement := .throw _
        assignment := .throw _
        binary := fun _ => .throw _
        unary := .throw _
        leftHandSide := .throw _
        newExpression := .throw _
        bindingTarget := .throw _ }
  | succ depth ih =>
    exact
      { hooks := rfl
        statement := .statementRule
        assignment := .assignmentRule
        binary := .binaryRule
        unary := .unaryRule
        leftHandSide := .leftHandSideRule
        newExpression := .newExpressionRule
        bindingTarget := .bindingTargetRule }

/-- Behind the reset of the hooks, a program tells its account. -/
theorem Grammar.told_program {g : Grammar (Unit × List Event)} [Telling g]
    {s s' : ParserState (Unit × List Event)} {p : Program} (h : g.program s = .ok p s') :
    s'.told = (Node.program p).account := by
  have hrest : TellsFrom 0 (do
      let body ← g.statements
      let stop ← Parse.startPosition
      return (⟨body, ⟨.start, stop⟩⟩ : Program)) account whole := by
    refine .step fun body _ => .quiet fun stop => .made ?_ trivial
    simp [Function.comp_def]
  unfold Grammar.program at h
  rw [Telling.hooks] at h
  obtain ⟨_, s₁, hreset, h⟩ := Parse.bind_eq_ok h
  cases hreset
  obtain ⟨k, hk, haccount, -⟩ := hrest _ p s' h
  exact hk.trans haccount.symm

/-- The calls that a permissive parse makes are those of a traversal of its tree. -/
theorem Parser.tally_run (parser : Parser Unit) (hhooks : parser.hooks = Hooks.permissive)
    {p : Program} (h : parser.parse.1 = .ok p) :
    (parser.run.2.map Event.tally).sum = (Node.program p).account := by
  have hcalls (events : List Event) :
      ((events.filter Event.isCall).map Event.tally).sum = (events.map Event.tally).sum := by
    induction events with
    | nil => rfl
    | cons event events ih =>
      rw [List.filter_cons]
      split
      · simp [ih]
      · cases event <;> first | simpa using ih | contradiction
  obtain ⟨hresult, hstate⟩ := parser.traced_parse
  have htelling : Telling parser.traced.grammar := by
    unfold Parser.grammar Parser.traced
    rw [hhooks]
    exact telling_ofDepth _ _ _
  have htold : parser.traced.parse.2.state.told = (Node.program p).account := by
    rw [h] at hresult
    unfold Parser.parse at hresult ⊢
    cases hprogram : parser.traced.grammar.program parser.traced.state with
    | ok program state =>
      rw [hprogram] at hresult
      cases hresult
      exact Grammar.told_program hprogram
    | error failure state =>
      rw [hprogram] at hresult
      cases hresult
  rw [← htold, ParserState.told, hstate, hcalls]

end EcmaScript
