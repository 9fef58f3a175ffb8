import EcmaScript.Proofs.Survey.Expression

/-!
Statements, surveyed.

The body of a loop and the cases of a switch stand in surroundings of their own, in which jumps
without a label are allowed. What the context allows, the surroundings allow.
-/

namespace EcmaScript

namespace Survey

open Parse

variable {σ α β : Type} {S : Survey σ} {g : Grammar σ} {around : List Node.Step} {low : Nat}
  [hg : Surveyed S g]

/-! ## Declarations -/

/-- Of the variables that need initial values, those have one that must. -/
abbrev Completes (kind : VariableKind) (needInit : Bool) (d : Declarator) : Prop :=
  needInit = true → d.IsComplete kind

theorem Does.declaratorsRound (kind : VariableKind) (needInit : Bool)
    (declarators : List Declarator) :
    S.Does around (S.Listed around low .declarator (Completes kind needInit) declarators.reverse)
      (g.declaratorsRound kind needInit declarators) fun r lexer =>
        r.Holds (fun l => S.Listed around low .declarator (Completes kind needInit) l.reverse lexer)
          fun l => S.Gathered around low [] .declarator (Completes kind needInit) l.reverse lexer := by
  refine .assume (fun _ h => h.1) fun hothers => ?_
  refine .weaken (P := S.Before around low (many .declarator declarators.reverse)) ?_ fun _ _ h => h.2
  unfold Grammar.declaratorsRound
  refine .step fun id hid => .proceed fun c => .optional fun init hinit => ?_
  refine .guarded (fun _ => inferInstance) fun hneed => ?_
  have hcompletes : Completes kind needInit ⟨id, init⟩ := by
    rintro rfl rfl
    simpa using hneed
  refine .weaken (P := S.Gathered around low [] .declarator (Completes kind needInit)
    (⟨id, init⟩ :: declarators).reverse) ?_ fun _ _ h => .cons (.snoc hothers hcompletes ?_)
  · refine .proceed fun c => .ite (fun _ => ?_) fun _ => .pure fun _ h => h
    exact .weaken (.pure fun _ h => h) fun _ htracks h => Gathered.listed htracks h
  · rw [List.append_assoc] at h
    exact Past.wrap _ (.declarator ⟨id, init⟩) h rfl rfl rfl ⟨hid.not_rest, hid.binds, hinit⟩
      ⟨trivial, hid.rests⟩

instance Yields.declarators (kind : VariableKind) (needInit : Bool) :
    Yields S (g.declarators kind needInit) (many .declarator)
      fun declarators => ∀ d ∈ declarators, Completes kind needInit d where
  yields around low := by
    unfold Grammar.declarators
    refine .bind (.loop (Does.declaratorsRound kind needInit) fun _ h => ⟨nofun, h⟩)
      fun declarators => ?_
    exact .pure fun _ h => h

instance Continues.variableStatement (start : Position) (kind : VariableKind) :
    Continues S start (g.variableStatement start kind) (one .statement) fun _ => True where
  continues around hstart := by
    unfold Grammar.variableStatement
    refine .proceed fun _ => .step fun declarators hdeclarators => .proceed fun _ => ?_
    refine .done hstart (fun _ => .plain (by simp) ⟨trivial, ?_, fun _ => trivial⟩) fun _ => trivial
    exact fun d hd => hdeclarators d hd rfl

/-- A function declaration whose span begins at `start`. -/
theorem Does.functionDeclaration {start : Position} (hstart : S.Exact start) {isAsync : Bool}
    (hasync : isAsync = true → S.positioned → BeginsAsync S.source start.offset) :
    S.Does around (S.Before around start.offset []) (g.functionDeclaration start isAsync)
      (S.Made around start.offset (one .statement) fun _ => True) := by
  unfold Grammar.functionDeclaration
  refine .advance fun _ => .proceed fun isGenerator => .functionName fun x low hname => ?_
  refine .after (.functionRest hstart hname.le _ _ _) fun f hf => .pure fun _ h => ⟨trivial, ?_⟩
  refine Past.same [] (.statement (.function x.1 f)) h rfl rfl rfl rfl rfl rfl ?_ ⟨trivial, trivial⟩
    ⟨hname.bears_function hf, trivial, fun hpositioned hf' => ?_⟩
  · change ∀ c ∈ [Node.function f], c.isOrdinary
    simp
  · rw [hf.start_eq]
    exact hasync (hf.isAsync_eq ▸ hf') hpositioned

instance Continues.classDeclaration (start : Position) :
    Continues S start (g.classDeclaration start) (one .statement) fun _ => True where
  continues around hstart := by
    unfold Grammar.classDeclaration
    refine .after (.classDefinition hstart true) fun (name, definition) hname => ?_
    cases name with
    | none => exact .halt (.unexpectedAt hstart)
    | some name =>
      refine .pure fun _ h => ⟨trivial, ?_⟩
      refine Past.same [] (.statement (.class_ name definition)) h rfl rfl rfl rfl rfl rfl ?_
        ⟨trivial, trivial⟩ ⟨hname name rfl, trivial, fun _ => trivial⟩
      change ∀ c ∈ [Node.class_ definition], c.isOrdinary
      simp

/-! ## Jumps -/

instance Opens.returnStatement (start : Position) :
    Opens S start (g.returnStatement start) (one .statement) fun _ => True where
  opens around hstart := by
    unfold Grammar.returnStatement
    refine .context fun context hgrants => .required (fun _ => .fail _ hstart) fun hreturn => ?_
    refine .skipping (fun _ h => h) (.observe fun c => .optionalUnless fun argument hargument => ?_)
    refine .proceed fun _ => .done hstart
      (fun _ => ⟨rfl, rfl, rfl, hgrants.allowReturn hreturn, ?_, ⟨trivial, trivial⟩, trivial,
        trivial, fun _ => trivial⟩) fun _ => trivial
    change ∀ c ∈ argument.toList.map Node.expression, c.isOrdinary
    simpa using hargument

variable (S) in
/-- The label, if there is one, is a name that has been read behind the start of the jump. -/
def Labels (around : List Node.Step) (start : Position) (label : Option String) (lexer : Lexer) :
    Prop :=
  ∀ name ∈ label, S.Bears around name ⟨start, lexer.lastSpan.stop⟩ []

instance Steady.labels {start : Position} {label : Option String} :
    Steady S (S.Labels around start label) where
  steady honward h name hname := by
    refine ⟨(h name hname).fits, fun hpositioned => ?_⟩
    obtain ⟨offset, hstart, hbehind, hescapes⟩ := (h name hname).place hpositioned
    exact ⟨offset, hstart, Nat.le_trans hbehind (honward.last hpositioned), hescapes⟩

theorem Does.jumpLabel {start : Position} :
    S.Does around (S.Past around start.offset []) g.jumpLabel fun label =>
      Also (S.Past around start.offset []) (S.Labels around start label) := by
  have hnone : S.Does around (S.Past around start.offset []) (Pure.pure none : Parse σ (Option String))
      fun label => Also (S.Past around start.offset []) (S.Labels around start label) :=
    .pure fun _ h => ⟨h, by rintro _ ⟨⟩⟩
  unfold Grammar.jumpLabel
  refine .observe fun newline => .ite (fun _ => hnone) fun _ => .observe fun isName => ?_
  refine .ite (fun _ => .step fun x _ => .formed fun hformed => ?_) fun _ => hnone
  refine .pure fun lexer h => ⟨h.empty, ?_⟩
  rintro _ ⟨⟩
  exact Past.bearsName [] h rfl (hformed.lawful.proper.named (by rintro ⟨⟩))

/-- A jump without a label is refused where the context does not allow it. -/
theorem label_isSome_of_not_allowed {label : Option String} {allowed : Bool}
    (h : ¬(label.isNone && !allowed) = true) : label = none → allowed := by
  rintro rfl
  simpa using h

namespace Opens

instance breakStatement (start : Position) :
    Opens S start (g.breakStatement start) (one .statement) fun _ => True where
  opens around hstart := by
    unfold Grammar.breakStatement
    refine .skipping (fun _ h => h) (.bind .jumpLabel fun label => .context fun context hgrants => ?_)
    refine .guarded (fun _ => .fail _ hstart) fun hlabel => .proceed fun _ => ?_
    refine .doneWith hstart (fun _ h => h.1) (fun lexer h => ⟨rfl, rfl, rfl, ?_, nofun,
      ⟨trivial, trivial⟩, ?_, trivial, fun _ => trivial⟩) fun _ => trivial
    · cases label with
      | none => exact hgrants.allowBreak (label_isSome_of_not_allowed hlabel rfl)
      | some label => rfl
    · cases label with
      | none => trivial
      | some label => exact h.2 label rfl

instance continueStatement (start : Position) :
    Opens S start (g.continueStatement start) (one .statement) fun _ => True where
  opens around hstart := by
    unfold Grammar.continueStatement
    refine .skipping (fun _ h => h) (.bind .jumpLabel fun label => .context fun context hgrants => ?_)
    refine .guarded (fun _ => .fail _ hstart) fun hlabel => .proceed fun _ => ?_
    refine .doneWith hstart (fun _ h => h.1) (fun lexer h => ⟨rfl, rfl, rfl, ?_, nofun,
      ⟨trivial, trivial⟩, ?_, trivial, fun _ => trivial⟩) fun _ => trivial
    · cases label with
      | none => exact hgrants.allowContinue (label_isSome_of_not_allowed hlabel rfl)
      | some label => rfl
    · cases label with
      | none => trivial
      | some label => exact h.2 label rfl

end Opens

instance Continues.throwStatement (start : Position) :
    Continues S start (g.throwStatement start) (one .statement) fun _ => True where
  continues around hstart := by
    unfold Grammar.throwStatement
    refine .proceed fun _ => .observe fun newline => .ite (fun _ => ?_) fun _ => ?_
    · refine .lastEnd fun stop => .pointwise fun lexer htracks h => ?_
      refine .haltThen (.fail _ fun hpositioned => ?_)
      rw [← h.2]
      exact (htracks hpositioned).last_stop
    · refine .step fun argument hargument => .proceed fun _ => ?_
      exact .done hstart (fun _ => .plain (by simp [hargument])) fun _ => trivial

/-! ## Loops -/

abbrev loopPart (body : Statement) : List Node.Part :=
  [⟨some (.code .loopBody), .ordinary, .statement body⟩]

instance Yields.loopBody : Yields S g.loopBody loopPart fun _ => True :=
  Yields.within .loopBody (fun body => [.statement body]) rfl

namespace Continues

instance ifStatement (start : Position) :
    Continues S start (g.ifStatement start) (one .statement) fun _ => True where
  continues around hstart := by
    unfold Grammar.ifStatement
    refine .proceed fun _ => .step fun test htest => .step fun consequent _ => ?_
    refine .proceed fun c => .optional fun alternate _ => ?_
    exact .done hstart (fun _ => .plain (by simp [htest])) fun _ => trivial

instance whileStatement (start : Position) :
    Continues S start (g.whileStatement start) (one .statement) fun _ => True where
  continues around hstart := by
    unfold Grammar.whileStatement
    refine .proceed fun _ => .step fun test htest => .step fun body _ => ?_
    exact .done hstart (fun _ => .plain (by simp [htest])) fun _ => trivial

instance doWhileStatement (start : Position) :
    Continues S start (g.doWhileStatement start) (one .statement) fun _ => True where
  continues around hstart := by
    unfold Grammar.doWhileStatement
    refine .proceed fun _ => .step fun body _ => .advance fun _ => .step fun test htest => ?_
    refine .proceed fun _ => ?_
    exact .done hstart (fun _ => .plain (by simp [htest])) fun _ => trivial

end Continues

section For

variable {start : Position}

theorem Does.forInOrOf (hstart : S.Exact start) (target : ForTarget) :
    S.Does around (S.Past around start.offset (one .forTarget target)) (g.forInOrOf start target)
      (S.Made around start.offset (one .statement) fun _ => True) := by
  unfold Grammar.forInOrOf
  refine .observe fun isOf => .proceed fun _ => .choice fun right hright => .advance fun _ => ?_
  refine .step fun body _ => .done hstart (fun _ => ?_) fun _ => trivial
  cases isOf with
  | true => exact .plain (by simp [hright])
  | false => exact .plain (by simp [hright])

theorem parts_for (init : Option ForInit) (test update : Option Expression) (body : Statement)
    (span : Span) :
    Node.parts .ordinary (.statement (.for_ init test update body span)) =
      many .forInit init.toList ++ many .expression test.toList ++
        many .expression update.toList ++ loopPart body := by
  cases init <;> cases test <;> cases update <;> rfl

theorem Does.forRest (hstart : S.Exact start) (init : Option ForInit) :
    S.Does around (S.Past around start.offset (many .forInit init.toList)) (g.forRest start init)
      (S.Made around start.offset (one .statement) fun _ => True) := by
  unfold Grammar.forRest
  refine .advance fun _ => .observe fun c => .optionalUnless fun test htest => ?_
  refine .advance fun _ => .observe fun c => .optionalUnless fun update hupdate => ?_
  refine .advance fun _ => .step fun body _ => ?_
  refine .done hstart (fun stop => ⟨rfl, parts_for init test update body ⟨start, stop⟩, rfl, rfl, ?_,
    ⟨trivial, trivial⟩, trivial, trivial, fun _ => trivial⟩) fun _ => trivial
  change ∀ c ∈ Statement.children (.for_ init test update body ⟨start, stop⟩), c.isOrdinary
  simpa [or_imp, forall_and] using ⟨htest, hupdate⟩

/-- A variable without a value can be replaced by the target that a loop assigns to. -/
theorem recasts_declarator_target {id : Pattern} (kind : VariableKind)
    (h : S.Formed around (.declarator ⟨id, none⟩)) :
    S.Recasts around (plain [.declarator ⟨id, none⟩]) (plain [.forTarget (.variable kind id)]) := by
  have hid : S.Formed around (.pattern id) := h.children rfl _ List.mem_cons_self
  have hshaped : id.isRest = false ∧ id.Binds := ⟨h.lawful.shaped.1, h.lawful.shaped.2.1⟩
  have hwrapped : S.Recasts around (plain [.pattern id]) (plain [.forTarget (.variable kind id)]) :=
    Recasts.wrapped hid rfl rfl rfl rfl rfl rfl hshaped ⟨trivial, h.lawful.settable.binds⟩
  refine ⟨hwrapped.formed, fun hpositioned low high hdeclarator => hwrapped.inOrder hpositioned ?_⟩
  have hextents := (InOrder.singleton.1 hdeclarator).extents
  rw [Node.extents_of_no_span rfl] at hextents
  refine InOrder.singleton.2 ⟨hdeclarator.le, fun span hspan => hextents span ?_⟩
  simpa using hspan

theorem Does.forDeclaration (hstart : S.Exact start) (kind : VariableKind) :
    S.Does around (S.Past around start.offset []) (g.forDeclaration start kind)
      (S.Made around start.offset (one .statement) fun _ => True) := by
  have hinit (declarators : List Declarator) :
      S.Does around (S.Past around start.offset (many .declarator declarators))
        (g.forRest start (some (.variables kind declarators)))
        (S.Made around start.offset (one .statement) fun _ => True) := by
    refine (forRest hstart (some (.variables kind declarators))).weaken fun _ _ h => ?_
    refine Past.wrap [] (.forInit (.variables kind declarators)) h rfl rfl rfl ?_
    change ∀ c ∈ declarators.map Node.declarator, c.isOrdinary
    simp
  unfold Grammar.forDeclaration
  refine .proceed fun _ => .step fun declarators _ => ?_
  split
  · next id _ =>
    refine .formed fun hformed => ?_
    refine .observe fun c => .ite (fun _ => ?_) fun _ => hinit [⟨id, none⟩]
    refine (forInOrOf hstart (.variable kind id)).weaken fun _ _ h => ?_
    exact Past.recast [] h (recasts_declarator_target kind hformed)
  · exact hinit _

theorem Does.forExpression (hstart : S.Exact start) :
    S.Does around (S.Past around start.offset []) (g.forExpression start)
      (S.Made around start.offset (one .statement) fun _ => True) := by
  unfold Grammar.forExpression
  refine .step fun value hvalue => .formed fun hformed => ?_
  refine .observe fun c => .ite (fun _ => .nameRules hg.goal fun rules hrules => ?_) fun _ => ?_
  · refine .ensure (.toForTarget hrules value hformed) fun target htarget => ?_
    exact (forInOrOf hstart target).weaken fun _ _ h => Past.recast [] h htarget
  · refine (forRest hstart (some (.expression value))).weaken fun _ _ h => ?_
    refine Past.wrap [] (.forInit (.expression value)) h rfl rfl rfl ?_
    change ∀ c ∈ [Node.expression value], c.isOrdinary
    simp [hvalue]

instance Continues.forStatement (start : Position) :
    Continues S start (g.forStatement start) (one .statement) fun _ => True where
  continues around hstart := by
    unfold Grammar.forStatement
    refine .proceed fun _ => .advance fun _ => .observe fun kind => .observe fun c => ?_
    refine .ite (fun _ => .forRest hstart none) fun _ => ?_
    cases kind with
    | some kind => exact .forDeclaration hstart kind
    | none => exact .forExpression hstart

end For

/-! ## Try and switch statements -/

theorem Does.catchClause {ps : List Node.Part} :
    S.Does around (S.Past around low ps) g.catchClause
      (S.Made around low (fun handler => ps ++ many .catchClause handler.toList)
        fun _ => True) := by
  have hend (param : Option Pattern) (hparam : ∀ p ∈ param, p.IsTarget) :
      S.Does around (S.Past around low (ps ++ many .pattern param.toList)) (do
        let body ← g.block
        return some ⟨param, body⟩)
        (S.Made around low (fun handler => ps ++ many .catchClause handler.toList)
          fun _ => True) := by
    refine .step fun body _ => .pure fun _ h => ⟨trivial, ?_⟩
    have hparts : Node.parts .ordinary (.catchClause ⟨param, body⟩) =
        many .pattern param.toList ++ many .statement body := List.map_append
    rw [List.append_assoc, ← hparts] at h
    refine Past.wrap ps (.catchClause ⟨param, body⟩) h rfl rfl rfl (fun p hp => ?_)
      ⟨trivial, fun p hp => (hparam p hp).rests⟩
    exact ⟨(hparam p hp).not_rest, (hparam p hp).binds⟩
  unfold Grammar.catchClause
  refine .proceed fun c => .ite (fun _ => .proceed fun c => ?_) fun _ => ?_
  · refine .ite (fun _ => .step fun param hparam => .advance fun _ => ?_) fun _ => ?_
    · refine hend (some param) ?_
      rintro _ ⟨⟩
      exact hparam
    · exact (hend none nofun).weaken fun _ _ h => by simpa [plain] using h
  · exact .pure fun _ h => ⟨trivial, by simpa [plain] using h⟩

instance Continues.tryStatement (start : Position) :
    Continues S start (g.tryStatement start) (one .statement) fun _ => True where
  continues around hstart := by
    have hend (body : List Statement) (handler : Option CatchClause)
        (finalizer : Option (List Statement)) :
        S.Does around (S.Past around start.offset (many .statement body ++
            many .catchClause handler.toList ++ many .statement finalizer.toList.flatten)) (do
          if handler.isNone && finalizer.isNone then
            fail .tryWithoutHandler start
          return .try_ body handler finalizer (← spanFrom start))
          (S.Made around start.offset (one .statement) fun _ => True) := by
      refine .guarded (fun _ => .fail _ hstart) fun _ => .done hstart
        (fun _ => .plain ?_ ⟨trivial, trivial, fun _ => trivial⟩ ?_) fun _ => trivial
      · cases finalizer <;> simp [or_imp, forall_and]
      · simp [Node.parts, plain, Node.enclosure?]
    unfold Grammar.tryStatement
    refine .proceed fun _ => .step fun body _ => .after .catchClause fun handler _ => ?_
    refine .proceed fun c => .ite (fun _ => .map (.step fun finalizer _ => ?_)) fun _ => ?_
    · exact (hend body handler (some finalizer)).weaken fun _ _ h => by simpa using h
    · exact (hend body handler none).weaken fun _ _ h => by simpa [plain] using h

instance Yields.caseTest (hasDefault : Bool) :
    Yields S (g.caseTest hasDefault) (fun test => many .expression test.toList)
      fun test => ∀ e ∈ test, e.IsOperand where
  yields around low := by
    unfold Grammar.caseTest
    refine .start fun start hstart => .ifAccepted ?_ (.ifAccepted ?_ (.halt inferInstance))
    · rw [map_eq_pure_bind]
      refine .step fun test htest => .pure fun _ h => ⟨?_, h⟩
      rintro _ ⟨⟩
      exact htest
    · refine .guarded (fun _ => .fail _ hstart) fun _ => .pure fun _ h => ⟨nofun, h⟩

theorem Gathers.caseBodyRound {ps : List Node.Part} :
    S.Gathers around low ps .statement (fun _ => True) g.caseBodyRound := by
  intro statements
  unfold Grammar.caseBodyRound
  refine .observe fun token => .ite (fun _ => .pure fun _ h => h) fun _ => ?_
  exact .item fun statement => .pure fun _ h => h.cons

theorem Does.caseBody {ps : List Node.Part} :
    S.Does around (S.Past around low ps) g.caseBody
      (S.Made around low (fun l => ps ++ many .statement l) fun _ => True) := by
  unfold Grammar.caseBody
  exact .after (.gather .caseBodyRound) fun statements _ => .pure fun _ h => ⟨trivial, h⟩

theorem Does.switchCasesRound (cases : List SwitchCase) :
    S.Does around (S.Before around low (many .switchCase cases.reverse)) (g.switchCasesRound cases)
      fun r lexer =>
        r.Holds (fun cases => S.Before around low (many .switchCase cases.reverse) lexer)
          fun cases => S.Past around low (many .switchCase cases.reverse) lexer := by
  unfold Grammar.switchCasesRound
  refine .ifAccepted (.pure fun _ h => h) ?_
  refine .step fun test htest => .advance fun _ => .after .caseBody fun consequent _ => ?_
  let read : List SwitchCase := ⟨test, consequent⟩ :: cases
  refine .weaken (P := S.Past around low (many .switchCase read.reverse)) ?_ fun _ _ h => ?_
  · exact .relax (.pure fun _ h => h)
  have hparts : Node.parts .ordinary (.switchCase ⟨test, consequent⟩) =
      many .expression test.toList ++ many .statement consequent := List.map_append
  rw [List.append_assoc, ← hparts] at h
  rw [List.reverse_cons, many_append]
  refine Past.wrap _ (.switchCase ⟨test, consequent⟩) h rfl rfl rfl ?_
  change ∀ c ∈ test.toList.map Node.expression ++ consequent.map Node.statement, c.isOrdinary
  simpa [or_imp, forall_and] using htest

instance Yields.switchCases : Yields S g.switchCases (many .switchCase) fun _ => True where
  yields around low := by
    unfold Grammar.switchCases
    refine .bind (.loop Does.switchCasesRound fun _ h => h) fun cases => ?_
    exact .pure fun _ h => ⟨trivial, h⟩

instance Continues.switchStatement (start : Position) :
    Continues S start (g.switchStatement start) (one .statement) fun _ => True where
  continues around hstart := by
    have : Yields S (Parse.within
        (fun context => { context with switchDepth := context.switchDepth + 1 })
        (fun _ now => Grammar.leaveSwitch now) g.switchCases)
        (fun cases => (cases.map .switchCase).map fun n =>
          ⟨some (.code .switchBody), .ordinary, n⟩) fun _ => True :=
      Yields.within .switchBody (List.map Node.switchCase) rfl
    unfold Grammar.switchStatement
    refine .proceed fun _ => .step fun discriminant hdiscriminant => .advance fun _ => ?_
    refine .step fun cases _ => .done hstart
      (fun _ => .plain ?_ ⟨trivial, trivial, fun _ => trivial⟩ ?_) fun _ => trivial
    · simp [hdiscriminant]
    · simp [Node.parts, plain, Node.enclosure?]

/-! ## Other statements -/

instance Opens.debuggerStatement (start : Position) :
    Opens S start (Grammar.debuggerStatement start) (one .statement) fun _ => True where
  opens around hstart := by
    unfold Grammar.debuggerStatement
    refine .skipping (fun _ h => h) (.proceed fun _ => ?_)
    exact .done hstart (fun _ => .plain nofun) fun _ => trivial

instance Opens.emptyStatement (start : Position) :
    Opens S start (Grammar.emptyStatement start) (one .statement) fun _ => True where
  opens around hstart := by
    unfold Grammar.emptyStatement
    exact .skipping (fun _ h => h) (.done hstart (fun _ => .plain nofun) fun _ => trivial)

instance Continues.blockStatement (start : Position) :
    Continues S start (g.blockStatement start) (one .statement) fun _ => True where
  continues around hstart := by
    unfold Grammar.blockStatement
    exact .step fun body _ => .done hstart (fun _ => .plain (by simp)) fun _ => trivial

instance Continues.expressionStatement (start : Position) :
    Continues S start (g.expressionStatement start) (one .statement) fun _ => True where
  continues around hstart := by
    unfold Grammar.expressionStatement
    refine .step fun value hvalue => ?_
    have hend : S.Does around (S.Past around start.offset (one .expression value)) (do
        endStatement
        return .expression value (← spanFrom start))
        (S.Made around start.offset (one .statement) fun _ => True) :=
      .proceed fun _ => .done hstart (fun _ => .plain (by simp [hvalue])) fun _ => trivial
    split
    · next label hlabel =>
      refine .proceed fun c => .ite (fun _ => .step fun body _ => ?_) fun _ => hend
      have hname : ∃ span, value = .identifier label span := by
        cases value with
        | identifier name span =>
          cases hlabel
          exact ⟨span, rfl⟩
        | _ => cases hlabel
      obtain ⟨span, rfl⟩ := hname
      refine .assume (fun _ h => h.formed _ List.mem_cons_self) fun hformed => ?_
      -- The label is a text alone, so that its name is no part of the statement.
      refine .doneWith hstart (fun _ h => h.last) (fun lexer h => .plain (by simp) ⟨?_, trivial,
        fun _ => trivial⟩) fun _ => trivial
      exact Past.bearsName (one .statement body) h rfl (hformed.lawful.proper.named nofun)
    · exact hend

theorem Does.keywordStatement {start : Position} (hstart : S.Exact start) (word : Keyword) :
    S.Does around (Also (Also (S.Before around start.offset []) (S.Worded start.offset []))
        (Lexer.Faces (· = .keyword word))) (g.keywordStatement start word)
      (S.Made around start.offset (one .statement) fun _ => True) := by
  have hfacing {p : Parse σ Statement} (h : S.Does around (S.Facing around start.offset) p
      (S.Made around start.offset (one .statement) fun _ => True)) :
      S.Does around (Also (Also (S.Before around start.offset []) (S.Worded start.offset []))
        (Lexer.Faces (· = .keyword word))) p
      (S.Made around start.offset (one .statement) fun _ => True) :=
    h.weaken fun _ _ h => ⟨h.1.1, h.2.mono fun _ hword => hword ▸ by rintro ⟨⟩⟩
  unfold Grammar.keywordStatement
  split
  case _ | _ => exact hfacing (.opening hstart)
  · exact hfacing (.observe fun c => .ite (fun _ => .opening hstart) fun _ => .opening hstart)
  · exact .weaken (.functionDeclaration hstart (by rintro ⟨⟩)) fun _ _ h => h.1.1
  · refine .ifAsyncFunction (fun hasync => .proceed fun _ => ?_) ?_
    · exact .functionDeclaration hstart fun _ => hasync
    · exact (Continues.expressionStatement start).continues around hstart
  case _ | _ | _ | _ | _ | _ | _ | _ | _ | _ | _ | _ => exact hfacing (.opening hstart)
  case _ | _ | _ => exact .halt inferInstance
  · exact hfacing (.opening hstart)

instance Yields.statementRule : Yields S g.statementRule (one .statement) fun _ => True where
  yields around low := by
    unfold Grammar.statementRule
    refine .startWorded fun start hstart => .peeked fun token => ?_
    have hfacing {p : Parse σ Statement} (htoken : token ≠ .endOfInput)
        (h : S.Does around (S.Facing around start.offset) p
          (S.Made around start.offset (one .statement) fun _ => True)) :
        S.Does around (Also (Also (S.Before around start.offset []) (S.Worded start.offset []))
          (Lexer.Faces (· = token))) p
          (S.Made around start.offset (one .statement) fun _ => True) :=
      (h.facing htoken).weaken fun _ _ h => ⟨h.1.1, h.2⟩
    split
    case _ | _ => exact hfacing nofun (.opening hstart)
    · exact .keywordStatement hstart _
    · refine ((Continues.expressionStatement start).continues around hstart).weaken ?_
      exact fun _ _ h => h.1.1

/-! ## Programs -/

/-- A program that is read from the start of the source is formed. -/
theorem Does.program :
    S.Does [] (S.Before [] 0 []) g.program fun p _ => S.Formed [] (.program p) := by
  unfold Grammar.program
  refine .bind (.update fun s hs => hg.hooks.reset s hs) fun _ => ?_
  refine .bind .statementList fun body => .inner fun stop hstop hbody => .pure fun _ _ => ?_
  have hshaped : (Node.program ⟨body, ⟨.start, stop⟩⟩).IsShaped := by
    change ∀ c ∈ body.map Node.statement, c.isOrdinary
    simp
  refine .mk ⟨⟨rfl, hshaped, ?_, nofun, fun hpositioned => ?_, ⟨trivial, trivial⟩⟩, trivial, trivial,
    fun _ => trivial⟩ hbody.formed
  · rintro _ ⟨⟩
    exact ⟨fun _ => .start, hstop⟩
  · have hinOrder := hbody.inOrder hpositioned
    rw [map_node_plain] at hinOrder
    exact .ofInOrder rfl hinOrder

end Survey

end EcmaScript
