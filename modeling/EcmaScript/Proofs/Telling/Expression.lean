import EcmaScript.Proofs.Telling.Primary

/-!
Member accesses, calls and operators tell their accounts.

`super` is no expression by itself. The rule that reads it looks at the token behind it, the hooks
hear about both, and the rules around it make a call or a member access of them: that the hooks
hear about a call exactly if there is one rests on the token that stays in the lexer. A deletion is
reported once for every pair of parentheses around it.
-/

namespace EcmaScript.Tells

open Parse TellsFrom

variable {α β : Type} {g : Grammar (Unit × List Event)} [Telling g]

/-! ## `super` -/

def followsSuper (token : Token) : Prop :=
  token = .punctuator .lParen ∨ token = .punctuator .dot ∨ token = .punctuator .lBracket

theorem superExpression (start : Position) {s s' : ParserState (Unit × List Event)}
    {e : Expression} (h : Grammar.superExpression start s = .ok e s') :
    e.isSuper = true ∧ s'.hooks = s.hooks ∧
      ∃ next, s'.lexer.lookahead = some next ∧ followsSuper next.token := by
  unfold Grammar.superExpression at h
  obtain ⟨_, s₁, hskip, h⟩ := Parse.bind_eq_ok h
  obtain ⟨context, s₂, hcontext, h⟩ := Parse.bind_eq_ok h
  have hhooks : s₂.hooks = s.hooks := by
    rw [Silent.context.silent hcontext, Silent.skip.silent hskip]
  dsimp only at h
  split at h
  · obtain ⟨token, s₃, hpeek, h⟩ := Parse.bind_eq_ok h
    obtain ⟨next, hnext, htoken⟩ := Parse.lookahead_of_peek hpeek
    rw [← hhooks, ← Silent.peek.silent hpeek]
    split at h
    · cases h
      exact ⟨rfl, rfl, next, hnext, .inl htoken⟩
    · cases h
      exact ⟨rfl, rfl, next, hnext, .inr (.inl htoken)⟩
    · cases h
      exact ⟨rfl, rfl, next, hnext, .inr (.inr htoken)⟩
    · obtain ⟨position, s₄, -, h⟩ := Parse.bind_eq_ok h
      cases h
  · cases h

/-- The rule tells the account of a whole expression, or reads `super` and has looked at what is
behind it. -/
def TellsOrSuper (p : TracedParse Expression) : Prop :=
  ∀ s e s', p s = .ok e s' →
    (whole e ∧ ∃ k, s'.told = s.told + k ∧ account e = k) ∨
      (e.isSuper = true ∧ s'.hooks = s.hooks ∧
        ∃ next, s'.lexer.lookahead = some next ∧ followsSuper next.token)

theorem tellsOrSuper {p : TracedParse Expression} [hp : Tells p] : TellsOrSuper p := by
  intro s e s' h
  obtain ⟨k, hk, haccount, hwhole⟩ := hp.tells s e s' h
  exact .inl ⟨hwhole, k, hk, by rw [haccount, zero_add]⟩

theorem TellsOrSuper.quiet {p : TracedParse β} {q : β → TracedParse Expression} [hp : Silent p]
    (hq : ∀ b, TellsOrSuper (q b)) : TellsOrSuper (p >>= q) := by
  intro s e s' h
  obtain ⟨b, between, hfirst, hsecond⟩ := Parse.bind_eq_ok h
  have hhooks := hp.silent hfirst
  have htold : between.told = s.told := by rw [ParserState.told, ParserState.told, hhooks]
  rw [← htold, ← hhooks]
  exact hq b between e s' hsecond

instance thisExpression (start : Position) : Tells (do
    skip
    return Expression.this (← spanFrom start)) where
  tells := by
    refine .quiet fun _ => .quiet fun span => made ?_ rfl
    simp

theorem keywordAtom (start : Position) (word : Keyword) :
    TellsOrSuper (g.keywordAtom start word) := by
  unfold Grammar.keywordAtom
  split
  case h_2 => exact fun s e s' h => .inr (superExpression start h)
  all_goals exact tellsOrSuper

instance punctuatorAtom (start : Position) (symbol : Punctuator) :
    Tells (g.punctuatorAtom start symbol) := by
  unfold Grammar.punctuatorAtom
  split <;> infer_instance

theorem atom : TellsOrSuper g.atom := by
  unfold Grammar.atom
  refine .quiet fun start => .quiet fun token => ?_
  split
  · exact keywordAtom start _
  all_goals exact tellsOrSuper

/-- A primary expression and what is done with it. If it is `super`, the hooks are told about a
call exactly if the parenthesis of one is the next token. -/
theorem primaryThen {q : Expression → TracedParse α} {total : α → Account} {P : α → Prop}
    (hwhole : ∀ e, whole e → TellsFrom (account e) (q e) total P)
    (hsuper : ∀ e s next, e.isSuper = true → s.lexer.lookahead = some next →
      followsSuper next.token →
      TellsAt s (if next.token = .punctuator .lParen then .ofCall .superCall else 0) (q e)
        total P) :
    TellsFrom 0 (g.primary >>= q) total P := by
  intro s a s' h
  obtain ⟨e, s₁, hprimary, h⟩ := Parse.bind_eq_ok h
  unfold Grammar.primary at hprimary
  rw [Telling.hooks] at hprimary
  obtain ⟨e', s₂, hatom, hprimary⟩ := Parse.bind_eq_ok hprimary
  obtain ⟨token, s₃, hpeek, hprimary⟩ := Parse.bind_eq_ok hprimary
  obtain ⟨_, s₄, hhook, hprimary⟩ := Parse.bind_eq_ok hprimary
  cases hprimary
  cases hhook
  rcases atom s e s₂ hatom with ⟨he, k, hk, haccount⟩ | ⟨he, hhooks, next, hnext, hfollows⟩
  · have hsuper : e.isSuper = false := by
      cases e <;> first | rfl | cases he
    obtain ⟨k', hk', htotal, hP⟩ := hwhole e he _ a s' h
    refine ⟨k + k', ?_, by rw [htotal, haccount, zero_add], hP⟩
    rw [hk', ← add_assoc, ← hk]
    simp [ParserState.told, hsuper, Silent.peek.silent hpeek]
  · rw [Parse.peek_of_lookahead hnext] at hpeek
    cases hpeek
    obtain ⟨k, hk, htotal, hP⟩ := hsuper e
      ⟨s₂.lexer, s₂.context, (s₂.hooks.1, s₂.hooks.2 ++ [.afterAtom e next.token])⟩ next he hnext
      hfollows a s' h
    refine ⟨_, ?_, by rw [htotal, zero_add], hP⟩
    rw [hk]
    simp [ParserState.told, he, hhooks, add_assoc]

/-! ## Member accesses and calls -/

/-- What the access to a member tells beyond its parts. -/
def reference : Expression → Account
  | .privateName name => .ofCall (.reference name)
  | _ => 0

theorem reference_of_whole {property : Expression} (h : whole property) :
    reference property = 0 := by
  cases property <;> first | rfl | cases h

theorem account_member (base property : Expression) (computed optional : Bool) (span : Span) :
    account (Expression.member base property computed optional span) =
      account base + account property + reference property := by
  rw [account_node]
  cases property <;> simp [reference, add_assoc]

theorem account_call (callee : Expression) (arguments : List Expression) (optional : Bool)
    (span : Span) :
    account (Expression.call callee arguments optional span) =
      (if callee.isSuper then .ofCall .superCall else 0) + account callee + account arguments := by
  rw [account_node]
  cases hsuper : callee.isSuper with
  | false => simp [hsuper, Function.comp_def]
  | true => simp [hsuper, Function.comp_def, add_assoc]

theorem account_new (callee : Expression) (arguments : List Expression) (span : Span) :
    account (Expression.new callee arguments span) =
      account (Expression.call callee arguments false span) := by
  rw [account_node, account_node (Expression.call _ _ _ _)]
  rfl

theorem isSuper_of_whole {e : Expression} (h : whole e) : e.isSuper = false := by
  cases e <;> first | rfl | cases h

theorem memberProperty (m : Account) : TellsFrom m g.memberProperty
    (fun property => m + account property + reference property) (fun _ => True) := by
  unfold Grammar.memberProperty
  refine quiet fun c => .ite (fun _ => ?_) fun _ => ?_
  · refine quiet fun name => ?_
    rw [Telling.hooks]
    refine seq (hook (.referenceName name) (pure true)) fun accepted _ => ?_
    refine required fun _ => done ?_ trivial
    simp [reference, Node.account_eq]
  · refine quiet fun start => quiet fun token => ?_
    split
    · refine quiet fun span => done ?_ trivial
      simp [reference, Node.account_eq]
    · refine quiet fun span => done ?_ trivial
      simp [reference, Node.account_eq]
    · exact raise _

instance computedProperty : Tells g.computedProperty where
  tells := by
    unfold Grammar.computedProperty
    exact step fun property hproperty => quiet fun _ => done (by simp) hproperty

theorem optionalLink {base : Expression} (start : Position) (hbase : whole base) :
    TellsFrom (account base) (g.optionalLink base start) account whole := by
  unfold Grammar.optionalLink
  refine quiet fun c => .ite (fun _ => ?_) fun _ => quiet fun c => .ite (fun _ => ?_) fun _ => ?_
  · refine step fun arguments _ => quiet fun span => done ?_ rfl
    simp only [account_call, isSuper_of_whole hbase]
    simp
  · refine step fun property hproperty => quiet fun span => done ?_ rfl
    rw [account_member, reference_of_whole hproperty, add_zero]
  · refine seq (memberProperty _) fun property _ => quiet fun span => done ?_ rfl
    rw [account_member]

theorem callOrAsyncArrow {base : Expression} (start : Position) (m : Account)
    (hm : (if base.isSuper then .ofCall .superCall else 0) + account base = m) :
    TellsFrom m (g.callOrAsyncArrow base start) (Round.either account account)
      (Round.either whole whole) := by
  unfold Grammar.callOrAsyncArrow
  have hcall (arguments : List Expression) : TellsFrom (m + account arguments) (do
      return Round.again (Expression.call base arguments false (← spanFrom start)) :
        TracedParse (Round Expression Expression))
      (Round.either account account) (Round.either whole whole) := by
    refine quiet fun span => done ?_ rfl
    rw [Round.either, account_call, hm]
  refine step fun arguments _ => .ite (fun hasync => ?_) fun _ => hcall arguments
  refine quiet fun c => .ite (fun _ => ?_) fun _ => hcall arguments
  refine quiet fun rules => .ensure fun params hparams => ?_
  have hbase : m = 0 := by
    rw [← hm]
    unfold Grammar.isAsyncName at hasync
    split at hasync
    · simp [Node.account_eq, Expression.isSuper]
    · cases hasync
  have hlist : m + account arguments = account params := by
    rw [hbase, zero_add]
    simpa [Function.comp_def] using (account_argumentsToParams _ hparams).symm
  rw [hlist]
  exact seq (arrowFunction start params true) fun e he => done rfl he

theorem account_super {e : Expression} (h : e.isSuper = true) : account e = 0 := by
  cases e with
  | super span => simp [Node.account_eq]
  | _ => cases h

theorem dotAccess (base : Expression) (start : Position) : TellsFrom (account base) (do
    let property ← g.memberProperty
    return .again (.member base property false false (← spanFrom start)) :
      TracedParse (Round Expression Expression))
    (Round.either account account) (Round.either whole whole) := by
  refine seq (memberProperty _) fun property _ => quiet fun span => done ?_ rfl
  rw [Round.either, account_member]

theorem bracketAccess (base : Expression) (start : Position) : TellsFrom (account base) (do
    let property ← g.computedProperty
    return .again (.member base property true false (← spanFrom start)) :
      TracedParse (Round Expression Expression))
    (Round.either account account) (Round.either whole whole) := by
  refine step fun property hproperty => quiet fun span => done ?_ rfl
  rw [Round.either, account_member, reference_of_whole hproperty, add_zero]

/-- A template behind its tag, if there is one; it is the last thing that a round looks for. -/
theorem templateOrStop {base : Expression} (start : Position) (hbase : whole base) :
    TellsFrom (account base) (do
      if ← Grammar.nextIsTemplate then
        if base.inOptionalChain then
          Parse.fail (.optionalChain .templateTag) (← startPosition)
        let quasi ← g.templateLiteral
        return .again (.taggedTemplate base quasi (← spanFrom start))
      return .stop base : TracedParse (Round Expression Expression))
      (Round.either account account) (Round.either whole whole) := by
  refine quiet fun c => .ite (fun _ => ?_) fun _ => done rfl hbase
  refine .ite (fun _ => quiet fun _ => raiseThen _) fun _ => ?_
  refine step fun quasi _ => quiet fun span => done ?_ rfl
  rw [Round.either, account_node]
  simp

/-- A round of member accesses and calls. Behind `super` it depends on the token that has been
looked at: the callee of `new` may be left as it is. -/
theorem exists_subscript (start : Position) (calleeOfNew : Bool) :
    ∃ round : Expression → TracedParse (Round Expression Expression),
      (∀ base, g.subscripts base start calleeOfNew = g.loop round base) ∧
      (∀ base, whole base → TellsFrom (account base) (round base) (Round.either account account)
        (Round.either whole whole)) ∧
      ∀ base s next, base.isSuper = true → s.lexer.lookahead = some next →
        followsSuper next.token →
        (next.token = .punctuator .lParen ∧ calleeOfNew = true ∧
          round base s = .ok (.stop base) s) ∨
        TellsAt s (if next.token = .punctuator .lParen then .ofCall .superCall else 0) (round base)
          (Round.either account account) (Round.either whole whole) := by
  refine ⟨_, fun base => rfl, fun base hbase => ?_, fun base s next hbase hnext hfollows => ?_⟩
  · refine quiet fun c => .ite (fun _ => dotAccess base start) fun _ => ?_
    refine quiet fun c => .ite (fun _ => ?_) fun _ => ?_
    · refine .ite (fun _ => quiet fun _ => raiseThen _) fun _ => quiet fun _ => ?_
      exact seq (optionalLink start hbase) fun e he => done rfl he
    refine quiet fun c => .ite (fun _ => bracketAccess base start) fun _ => ?_
    refine .ite (fun _ => ?_) fun _ => ?_
    · refine quiet fun c => .ite (fun _ => ?_) fun _ => templateOrStop start hbase
      exact callOrAsyncArrow start _ (by simp [isSuper_of_whole hbase])
    · exact templateOrStop start hbase
  · have hzero := account_super hbase
    have hskip {p : TracedParse (Round Expression Expression)}
        (h : TellsFrom (account base) p (Round.either account account)
          (Round.either whole whole)) :
        TellsAt s 0 (skip >>= fun _ => p) (Round.either account account)
          (Round.either whole whole) := by
      rw [← hzero]
      exact quiet (fun _ => h) s
    rcases hfollows with htoken | htoken | htoken
    · rw [if_pos htoken]
      cases calleeOfNew with
      | true =>
        left
        refine ⟨htoken, rfl, ?_⟩
        simp only [Grammar.subscriptsRound, Parse.accept_of_lookahead hnext,
          Parse.nextIs_of_lookahead hnext, htoken, bind_pure_comp, beq_iff_eq,
          Token.punctuator.injEq, reduceCtorEq, Bool.not_true, Bool.false_eq_true, if_false]
        simp only [Grammar.nextIsTemplate, Bind.bind, EStateM.bind, Parse.peek_of_lookahead hnext,
          htoken]
        rfl
      | false =>
        right
        refine .acceptIf hnext (by simp [htoken]) fun _ => ?_
        refine .nextIsIf hnext (by simp [htoken]) fun _ => ?_
        refine .acceptIf hnext (by simp [htoken]) fun _ => ?_
        refine .nextIsIf hnext (fun _ => ?_) (by simp [htoken])
        exact callOrAsyncArrow start _ (by rw [hzero, hbase, if_pos rfl, add_zero]) s
    · right
      rw [if_neg (by simp [htoken])]
      exact .acceptIf hnext (fun _ => hskip (dotAccess base start)) (by simp [htoken])
    · right
      rw [if_neg (by simp [htoken])]
      refine .acceptIf hnext (by simp [htoken]) fun _ => ?_
      refine .nextIsIf hnext (by simp [htoken]) fun _ => ?_
      exact .acceptIf hnext (fun _ => hskip (bracketAccess base start)) (by simp [htoken])

/-- Member accesses and calls behind a whole expression. -/
theorem subscripts {base : Expression} (start : Position) (calleeOfNew : Bool)
    (hbase : whole base) :
    TellsFrom (account base) (g.subscripts base start calleeOfNew) account whole := by
  obtain ⟨round, hloop, hround, -⟩ := exists_subscript (g := g) start calleeOfNew
  rw [hloop]
  exact gather g account whole hround hbase rfl

/-- Member accesses and calls behind `super`; only the callee of `new` may be `super` itself. -/
theorem superSubscripts {base : Expression} (start : Position) (calleeOfNew : Bool)
    {s : ParserState (Unit × List Event)} {next : Lookahead} (hbase : base.isSuper = true)
    (hnext : s.lexer.lookahead = some next) (hfollows : followsSuper next.token) :
    TellsAt s (if next.token = .punctuator .lParen then .ofCall .superCall else 0)
      (g.subscripts base start calleeOfNew)
      (fun e => (if e.isSuper then .ofCall .superCall else 0) + account e)
      (fun e => whole e ∨ calleeOfNew = true ∧ e.isSuper = true) := by
  obtain ⟨round, hloop, hround, hsuper⟩ := exists_subscript (g := g) start calleeOfNew
  rw [hloop, Grammar.loop]
  cases g.bound with
  | zero => exact raise _ s
  | succ bound =>
    rcases hsuper base s next hbase hnext hfollows with ⟨htoken, hnew, hstop⟩ | hagain
    · intro e s' h
      simp only [repeatRounds, Bind.bind, EStateM.bind, hstop] at h
      cases h
      refine ⟨0, (add_zero _).symm, ?_, .inr ⟨hnew, hbase⟩⟩
      simp only [hbase, htoken, account_super hbase, if_true, add_zero]
    · have hwhole : TellsAt s (if next.token = .punctuator .lParen then .ofCall .superCall else 0)
          (repeatRounds round (bound + 1) base) account whole := by
        refine hagain.seq ?_
        rintro (e | e) he
        · exact rounds hround bound he
        · exact done rfl he
      intro e s' h
      obtain ⟨k, hk, htotal, he⟩ := hwhole e s' h
      refine ⟨k, hk, ?_, .inl he⟩
      simp only [isSuper_of_whole he, htotal, Bool.false_eq_true, if_false, zero_add]

/-! ## Operators -/

instance absentList [Accounted α] : Tells (pure ([] : List α)) where
  tells := done rfl trivial

instance newExpressionRule : Tells g.newExpressionRule where
  tells := by
    have hrest (start : Position) (callee : Expression) :
        TellsFrom ((if callee.isSuper then .ofCall .superCall else 0) + account callee) (do
          let arguments ← if ← nextIs .lParen then g.arguments else pure []
          return Expression.new callee arguments (← spanFrom start)) account whole := by
      refine quiet fun c => choice fun arguments _ => quiet fun span => done ?_ rfl
      rw [account_new, account_call]
    have hwhole (start calleeStart : Position) (callee : Expression) (hcallee : whole callee) :
        TellsFrom (account callee) (do
          let callee ← g.subscripts callee calleeStart true
          let arguments ← if ← nextIs .lParen then g.arguments else pure []
          return Expression.new callee arguments (← spanFrom start)) account whole := by
      refine seq (subscripts calleeStart true hcallee) fun callee hcallee => ?_
      have h := hrest start callee
      rwa [isSuper_of_whole hcallee, if_neg Bool.false_ne_true, zero_add] at h
    unfold Grammar.newExpressionRule
    refine quiet fun start => quiet fun _ => quiet fun calleeStart => quiet fun c => ?_
    refine .ite (fun _ => step fun callee hcallee => ?_) fun _ => ?_
    · rw [zero_add]
      exact hwhole start calleeStart callee hcallee
    · refine primaryThen (hwhole start calleeStart) fun callee s next hcallee hnext hfollows => ?_
      exact (superSubscripts calleeStart true hcallee hnext hfollows).seq fun callee _ =>
        hrest start callee

instance leftHandSideRule : Tells g.leftHandSideRule where
  tells := by
    have hrest (start : Position) (base : Expression) (hbase : whole base) :
        TellsFrom (account base) (do
          if base.isArrow then
            return base
          g.subscripts base start false) account whole :=
      .ite (fun _ => done rfl hbase) fun _ => subscripts start false hbase
    unfold Grammar.leftHandSideRule
    refine quiet fun start => quiet fun c => .ite (fun _ => step fun base hbase => ?_) fun _ => ?_
    · rw [zero_add]
      exact hrest start base hbase
    · refine primaryThen (hrest start) fun base s next hbase hnext hfollows => ?_
      have harrow : base.isArrow = false := by
        cases base <;> first | rfl | cases hbase
      simp only [harrow, Bool.false_eq_true, if_false]
      intro e s' h
      obtain ⟨k, hk, htotal, he⟩ := superSubscripts start false hbase hnext hfollows e s' h
      have hwhole : whole e := he.resolve_right fun ⟨hnew, _⟩ => by cases hnew
      simp only [isSuper_of_whole hwhole, Bool.false_eq_true, if_false, zero_add] at htotal
      exact ⟨k, hk, htotal, hwhole⟩

instance updateBehind (start : Position) : Tells (g.updateBehind start) where
  tells := by
    unfold Grammar.updateBehind
    refine step fun argument hargument => quiet fun token => ?_
    split
    · exact done (by simp) hargument
    · refine quiet fun newline => .ite (fun _ => done (by simp) hargument) fun _ => ?_
      refine quiet fun rules => quiet fun _ => quiet fun _ => quiet fun span => made ?_ rfl
      simp

theorem account_unary (operator : UnaryOperator) (argument : Expression) (span : Span) :
    account (Expression.unary operator argument span) = account argument +
      (if (Expression.unary operator argument span).isPrivateDelete then .deletion else 0) := by
  rw [account_node]
  simp

/-- Where the expression deletes a private member, one more report of that changes nothing. -/
theorem account_add_deletion (e : Expression) :
    account e + (if e.isPrivateDelete then .deletion else 0) = account e := by
  split
  · next h =>
    cases e with
    | unary operator argument span =>
      refine Account.add_deletion ?_
      rw [account_unary, if_pos h, Account.add_deletes]
      exact Bool.or_true _
    | _ => cases h
  · exact add_zero _

/-- A unary expression that is reported; only the deletion in it may still be missing. -/
theorem reportUnary {m : Account} {e : Expression} (he : whole e)
    (hm : m + (if e.isPrivateDelete then .deletion else 0) = account e) :
    TellsFrom m (Parse.hook (g.hooks.afterUnary e) >>= fun _ => pure e) account whole := by
  rw [Telling.hooks]
  exact seq (hook (.afterUnary e) (pure ())) fun _ _ => done hm.symm he

instance unaryRule : Tells g.unaryRule where
  tells := by
    unfold Grammar.unaryRule Grammar.unaryBody
    simp only [bind_assoc]
    refine quiet fun start => quiet fun token => ?_
    split
    · simp only [bind_assoc, pure_bind]
      refine quiet fun _ => step fun argument _ => quiet fun _ => quiet fun span => ?_
      refine reportUnary rfl ?_
      rw [zero_add, account_unary]
    split
    · simp only [bind_assoc, pure_bind]
      refine quiet fun _ => step fun argument _ => quiet fun rules => quiet fun _ => ?_
      refine quiet fun span => reportUnary rfl ?_
      rw [zero_add, account_node (Expression.update _ _ _ _)]
      simp
    simp only [bind_assoc]
    refine quiet fun context => ?_
    split
    · simp only [bind_assoc, pure_bind]
      refine quiet fun _ => step fun argument _ => quiet fun span => reportUnary rfl ?_
      rw [zero_add, account_node (Expression.await _ _)]
      simp
    · refine step fun value hvalue => reportUnary hvalue ?_
      rw [zero_add, account_add_deletion]

theorem account_join (operator : InfixOperator) (left right : Expression) (span : Span) :
    account (operator.join left right span) = account left + account right := by
  cases operator with
  | binary operator =>
    rw [InfixOperator.join, account_node]
    simp
  | logical operator =>
    rw [InfixOperator.join, account_node]
    simp

theorem whole_join (operator : InfixOperator) (left right : Expression) (span : Span) :
    whole (operator.join left right span) := by
  cases operator <;> rfl

instance binaryRule (least : Nat) : Tells (g.binaryRule least) where
  tells := by
    unfold Grammar.binaryRule Grammar.binaryRound
    refine quiet fun start => step fun first hfirst => .ite (fun _ => ?_) fun _ => ?_
    · exact done (by simp) hfirst
    refine gather g account whole (fun left hleft => ?_) hfirst (by simp)
    refine quiet fun context => quiet fun token => ?_
    split
    · exact done rfl hleft
    · refine .ite (fun _ => done rfl hleft) fun _ => quiet fun _ => step fun right _ => ?_
      refine quiet fun span => done ?_ (whole_join _ _ _ _)
      rw [Round.either, account_join]

instance conditional : Tells g.conditional where
  tells := by
    unfold Grammar.conditional
    refine quiet fun start => step fun test htest => ?_
    refine .ite (fun _ => done (by simp) htest) fun _ => ?_
    refine quiet fun c => .ite (fun _ => ?_) fun _ => done (by simp) htest
    refine step fun consequent _ => quiet fun _ => step fun alternate _ => quiet fun span => ?_
    refine made ?_ rfl
    simp [add_assoc]

instance yieldExpression : Tells g.yieldExpression where
  tells := by
    unfold Grammar.yieldExpression
    refine quiet fun start => quiet fun _ => quiet fun newline => quiet fun token => ?_
    refine .ite (fun _ => quiet fun span => made ?_ rfl) fun _ => ?_
    · simp
    · refine quiet fun delegate => step fun argument _ => quiet fun span => made ?_ rfl
      simp

instance assignmentRule : Tells g.assignmentRule where
  tells := by
    have hrest : TellsFrom 0 (do
        let start ← startPosition
        let left ← g.conditional
        match AssignmentOperator.ofToken? (← peek) with
        | none => return left
        | some operator =>
          let target ← Parse.ensure (left.toTarget (← g.nameRules) operator)
          skip
          let value ← g.assignment
          return Expression.assignment operator target value (← spanFrom start))
        account whole := by
      refine quiet fun start => step fun left hleft => quiet fun token => ?_
      split
      · exact done (by simp) hleft
      · refine quiet fun rules => .ensure fun target htarget => quiet fun _ => ?_
        refine step fun value _ => quiet fun span => made ?_ rfl
        simp [Expression.account_toTarget htarget]
    unfold Grammar.assignmentRule
    refine quiet fun context => .ite (fun _ => quiet fun c => ?_) fun _ => hrest
    exact .ite (fun _ => yieldExpression.tells) fun _ => hrest

end EcmaScript.Tells
