import EcmaScript.Proofs.Survey.Literal

/-!
Primary expressions, surveyed.

A primary expression has a value or is `super` in front of what it takes. A list in parentheses that
turns out to be the parameters of an arrow function is replaced by them; otherwise the parentheses
leave no node, and a sequence extends from the first of its items to the last one.
-/

namespace EcmaScript

def Token.followsSuper : Token → Bool
  | .punctuator .lParen | .punctuator .dot | .punctuator .lBracket => true
  | _ => false

/-- The expression has a value, or it is `super` and a call or a member access is next. -/
def Expression.Opens (e : Expression) (lexer : Lexer) : Prop :=
  e.role = .operand ∨ e.role = .super ∧ lexer.Faces (·.followsSuper = true)

namespace Survey

open Parse

variable {σ α β : Type} {S : Survey σ} {g : Grammar σ} {around : List Node.Step} {low : Nat}
  [hg : Surveyed S g]

/-! ## Literals -/

instance Opens.literal (start : Position) (value : Literal) :
    Opens S start (Grammar.literal start value) (one .expression) Expression.IsOperand where
  opens around hstart := by
    unfold Grammar.literal
    refine .skipping (fun _ h => h) ?_
    exact .done hstart (fun _ => .plain nofun) fun _ => rfl

/-- The last token begins behind `low`, is not empty and does not begin with a line terminator. -/
def LastFrom (S : Survey σ) (low : Nat) (lexer : Lexer) : Prop :=
  S.positioned → low ≤ lexer.lastSpan.start.offset ∧
    lexer.lastSpan.start.offset < lexer.lastSpan.stop.offset ∧
    ∀ x, (S.source.drop lexer.lastSpan.start.offset).head? = some x → isLineTerminator x = false

/-- A regular expression is read again from the start of the slash. -/
theorem Does.rescanRegExp {q : Token → Parse σ α} {Q : α → Lexer → Prop}
    (hq : ∀ token, S.Does around (S.Past around low []) (q token) Q) :
    S.Does around (S.LastFrom low) (Parse.lexing Lexing.rescanRegExp >>= q) Q := by
  refine .bind ?_ hq
  refine (Does.lexing (Q := fun _ _ => True) (R := fun _ lexer =>
    low < lexer.lastSpan.stop.offset) ?_ ?_).mono (fun _ _ h => h) ?_
  · intro _ _
    unfold Ends
    split <;> trivial
  · intro hpositioned lexer htracks h
    obtain ⟨hlow, hless, hchar⟩ := h hpositioned
    have hstop := htracks.last_stop.1
    refine (Lexing.rescanRegExp_tracks htracks (by omega) hchar).mono ?_ fun _ _ he => he
    rintro _ lexer' ⟨htracks', -, hle⟩
    exact ⟨htracks', by omega⟩
  · rintro _ lexer _ ⟨-, hless⟩
    exact ⟨allFormed_nil, fun hpositioned => Nat.le_of_lt (hless hpositioned), hless⟩

instance Opens.regExpLiteral (start : Position) :
    Opens S start (Grammar.regExpLiteral start) (one .expression) Expression.IsOperand where
  opens around hstart := by
    have hskip : S.Does around (S.Facing around start.offset) skip fun _ =>
        S.LastFrom start.offset := by
      refine .via (T := fun _ => S.LastFrom start.offset) Does.next ?_ fun _ => .pure fun _ h => h
      rintro lexer lexer' token _ _ ⟨h, known, hknown, hend⟩ htook hpositioned
      have htoken : token ≠ .endOfInput := by
        rw [htook.token_eq known hknown]
        exact hend
      have hlow : start.offset ≤ lexer.nextStart := h.inOrder hpositioned
      have hfirst := htook.start hpositioned
      have hless := htook.advanced htoken hpositioned
      exact ⟨by omega, by omega, htook.start_char hpositioned⟩
    unfold Grammar.regExpLiteral
    refine .bind hskip fun _ => .rescanRegExp fun token => ?_
    split
    · exact .done hstart (fun _ => .plain nofun) fun _ => rfl
    · exact .halt (.unexpectedAt hstart)

/-! ## Names and arrow functions with one parameter -/

/-- An arrow function with one name as its parameter. -/
theorem Does.nameArrow {start : Position} (hstart : S.Exact start) (name : String) (span : Span)
    {isAsync : Bool} (hasync : isAsync = true → S.positioned → BeginsAsync S.source start.offset) :
    S.Does around (S.Past around start.offset (one patternNode (name, span)))
      (g.arrowFunction start [.identifier name span] isAsync)
      (S.Made around start.offset (one .expression) Expression.IsOperand) := by
  have hparams : IsParameterList [.identifier name span] := by
    refine isParameterList_of_elements (List.forall_mem_singleton.2 ⟨rfl, ?_⟩)
    exact .identifier name span
  exact arrowFunction hstart hparams isAsync (fun _ => List.forall_mem_singleton.2 rfl)
    (fun _ => Nat.le_refl _) fun h hpositioned => .inl (hasync h hpositioned)

instance Continues.identifierOrArrow (start : Position) :
    Continues S start (g.identifierOrArrow start) (one .expression) Expression.IsOperand where
  continues around hstart := by
    unfold Grammar.identifierOrArrow
    refine .step fun (name, span) _ => .observe fun c => .ite (fun _ => ?_) fun _ => ?_
    · refine .formed fun hformed => .nameRules hg.goal fun rules hrules => ?_
      refine .ensure (.binding hrules name (hformed.start rfl)) fun _ ⟨_, hassigns⟩ => ?_
      refine .weaken (P := S.Past around start.offset (one patternNode (name, span)))
        (.nameArrow hstart name span (by rintro ⟨⟩)) fun _ _ h => ?_
      exact Past.recast [] h (recasts_name_pattern hassigns hformed)
    · exact .pure fun _ h => ⟨rfl, h⟩

theorem Does.asyncAtom {start : Position} (hstart : S.Exact start) :
    S.Does around (Also (Also (S.Before around start.offset []) (S.Worded start.offset []))
        (Lexer.Faces (· = .keyword .async))) (g.asyncAtom start)
      (S.Made around start.offset (one .expression) Expression.IsOperand) := by
  unfold Grammar.asyncAtom
  refine .peekBehindAsync fun second newline hasync => ?_
  refine .ite (fun hfunction => .proceed fun _ => ?_) fun _ => .ite (fun harrow => ?_) fun _ => ?_
  · simp only [Bool.and_eq_true, Bool.not_eq_true'] at hfunction
    exact .functionExpression hstart fun _ => hasync hfunction.1
  · simp only [Bool.and_eq_true, Bool.not_eq_true'] at harrow
    refine .proceed fun _ => .step fun (name, span) _ => .observe fun c => ?_
    refine .required (fun _ => inferInstance) fun _ => ?_
    exact .nameArrow hstart name span fun _ => hasync harrow.1
  · exact (Continues.identifierOrArrow start).continues around hstart

/-! ## Parentheses -/

structure ParenFit (list : Grammar.ParenRead) : Prop where
  items : ∀ e ∈ list.items, e.IsOperand
  rest : ∀ p ∈ list.rest, p.IsLast

abbrev parenParts (list : Grammar.ParenRead) : List Node.Part :=
  many .expression list.items.reverse ++ many .pattern list.rest.toList

/-- The inside of parentheses, where a token has been consumed if there is an item. -/
structure ParenInside (S : Survey σ) (around : List Node.Step) (low : Nat)
    (list : Grammar.ParenRead) (lexer : Lexer) : Prop where
  fit : ParenFit list
  before : S.Before around low (parenParts list) lexer
  past : list.items ≠ [] → S.Past around low (parenParts list) lexer

section Parentheses

variable {list : Grammar.ParenRead}

instance Steady.parenInside : Steady S (S.ParenInside around low list) where
  steady honward h := ⟨h.fit, Steady.before.steady honward h.before,
    fun hitems => Steady.past.steady honward (h.past hitems)⟩

instance Reaches.parenInside :
    Reaches S around (S.ParenInside around low list) low (parenParts list) :=
  ⟨fun _ h => h.before⟩

theorem ParenInside.ofPast {lexer : Lexer} (htracks : S.positioned → lexer.Tracks S.source)
    (hfit : ParenFit list) (h : S.Past around low (parenParts list) lexer) :
    S.ParenInside around low list lexer :=
  ⟨hfit, h.before htracks, fun _ => h⟩

theorem ParenFit.item (h : ParenFit list) {value : Expression} (hvalue : value.IsOperand) :
    ParenFit { list with items := value :: list.items } :=
  ⟨List.forall_mem_cons.2 ⟨hvalue, h.items⟩, h.rest⟩

theorem ParenFit.last (h : ParenFit list) {last : Pattern} (hlast : last.IsLast) :
    ParenFit { list with rest := some last } :=
  ⟨h.items, fun _ hp => Option.some.inj hp ▸ hlast⟩

theorem parenParts_item (hrest : list.rest = none) (value : Expression) :
    parenParts { list with items := value :: list.items } =
      parenParts list ++ one .expression value := by
  simp [parenParts, hrest, plain]

theorem parenParts_last (hrest : list.rest = none) (last : Pattern) :
    parenParts { list with rest := some last } = parenParts list ++ one .pattern last := by
  simp [parenParts, hrest, plain]

theorem Does.parenItemsRound (list : Grammar.ParenRead) :
    S.Does around (fun lexer => list.rest = none ∧ S.ParenInside around low list lexer)
      (g.parenItemsRound list) fun r lexer =>
        r.Holds (fun list => list.rest = none ∧ S.ParenInside around low list lexer)
          (S.ParenInside around low · lexer) := by
  refine .assume (c := list.rest = none ∧ ParenFit list) (fun _ h => ⟨h.1, h.2.fit⟩)
    fun ⟨hrest, hfit⟩ => ?_
  refine .weaken (P := S.ParenInside around low list) ?_ fun _ _ h => h.2
  unfold Grammar.parenItemsRound
  refine .observe fun c => .ite (fun _ => .pure fun _ h => h) fun _ => ?_
  refine .observe fun c => .ite (fun _ => .step fun last hlast => ?_) fun _ => ?_
  · rw [← parenParts_last hrest]
    refine .weaken (.pure fun _ h => h) fun _ htracks h => ?_
    exact .ofPast htracks (hfit.last hlast) h
  · refine .step fun value hvalue => ?_
    rw [← parenParts_item hrest]
    refine .weaken (P := S.ParenInside around low { list with items := value :: list.items }) ?_
      fun _ htracks h => .ofPast htracks (hfit.item hvalue) h
    refine .proceed fun c => .ite (fun _ => .observe fun c => ?_) fun _ => .pure fun _ h => h
    exact .pure fun _ h => ⟨hrest, ⟨h.fit.items, h.fit.rest⟩, h.before, h.past⟩

theorem Does.parenItems :
    S.Does around (S.Before around low []) g.parenItems (S.ParenInside around low) :=
  .loop Does.parenItemsRound fun _ h => ⟨rfl, ⟨nofun, nofun⟩, h, fun hitems => absurd rfl hitems⟩

/-- Items in parentheses that are read as parameters, with a rest element behind them. -/
theorem ParenFit.isParameterList (h : ParenFit list) {params : List Pattern}
    (hparams : ∀ p ∈ params, p.isRest = false ∧ p.Binds) :
    IsParameterList (params ++ list.rest.toList) := by
  cases hrest : list.rest with
  | none =>
    rw [Option.toList_none, List.append_nil]
    exact isParameterList_of_elements hparams
  | some last => exact isParameterList_snoc hparams (h.rest last hrest).binds

/-- Of items in parentheses and what is behind them, only the latter is a rest element. -/
theorem ParenFit.isDefaultedRest (h : ParenFit list) {params : List Pattern}
    (hparams : ∀ p ∈ params, p.isRest = false ∧ p.Binds) :
    ∀ p ∈ params ++ list.rest.toList, p.isDefaultedRest = false := by
  intro p hp
  rcases List.mem_append.1 hp with hp | hp
  · exact Pattern.isDefaultedRest_of_not_rest (hparams p hp).1
  · exact (h.rest p (Option.mem_toList.1 hp)).rests.isDefaultedRest

theorem Does.parenArrow {start : Position} (hstart : S.Exact start) (hfit : ParenFit list)
    {rules : NameRules} (hrules : S.Governs around rules) :
    S.Does around (S.Past around start.offset (parenParts list)) (do
      let params ← Parse.ensure (list.items.reverse.mapM (·.toPattern rules .binding))
      g.arrowFunction start (params ++ list.rest.toList) false)
      (S.Made around start.offset (one .expression) Expression.IsOperand) := by
  refine .assume (fun _ h => h.formed) fun hformed => ?_
  have hitems : ∀ e ∈ list.items.reverse, S.Formed around (.expression e) :=
    List.forall_mem_map.1 (allFormed_plain.1 (allFormed_append.1 hformed).1)
  refine .ensure (.itemsToParams hrules _ hitems) fun params ⟨hrecasts, hparams⟩ => ?_
  refine .weaken (.arrowFunction hstart (hfit.isParameterList hparams) false
    (fun _ => hfit.isDefaultedRest hparams) (fun _ => Nat.le_refl _) (by rintro ⟨⟩)) fun _ _ h => ?_
  rw [many_append]
  exact h.recastFirst hrecasts

theorem Does.parenRest {start : Position} (hstart : S.Exact start) :
    S.Does around (S.Past around start.offset []) (g.parenRest start)
      (S.Made around start.offset (one .expression) Expression.IsOperand) := by
  unfold Grammar.parenRest
  refine .inner fun innerStart hinner hfront => .bind .parenItems fun list => ?_
  refine .assume (fun _ h => h.fit) fun hfit => .lastEnd fun stop => ?_
  -- The items stay parts of their own, for an arrow function, and make a sequence.
  refine .weaken (P := Also (S.Before around start.offset (parenParts list)) fun lexer =>
    list.items ≠ [] → list.rest = none → S.Past around innerStart.offset
      (one .expression (.sequence list.items.reverse ⟨innerStart, stop⟩)) lexer) ?_ ?_
  · refine .advanceAlso fun _ => .observe fun c => .ite (fun _ => ?_) fun _ => ?_
    · refine .nameRules hg.goal fun rules hrules => ?_
      exact (parenArrow hstart hfit hrules).weaken fun _ _ h => h.1
    · refine .ite (fun _ => .halt inferInstance) fun hended => ?_
      have hrest : list.rest = none := by
        simp only [Bool.or_eq_true, not_or, Option.not_isSome_iff_eq_none] at hended
        exact hended.1
      split
      · exact .halt inferInstance
      · next item hitems =>
        refine .pure fun _ h => ⟨hfit.items item (by simp [hitems]), ?_⟩
        simpa [parenParts, hitems, hrest, plain] using h.1
      · next hnil _ => exact .pure fun _ h => ⟨rfl, (h.2 hnil hrest).mono hfront.le⟩
  · rintro lexer htracks ⟨h, rfl⟩
    refine ⟨⟨h.before.formed, fun hpositioned => ?_⟩, fun hitems hrest => ?_⟩
    · exact (h.before.inOrder hpositioned).mono (hfront.le hpositioned) (Nat.le_refl _)
    · refine (h.past hitems).compose htracks hinner
        (.plain ?_ ⟨trivial, trivial, fun _ => trivial⟩ ?_)
      · simpa using h.fit.items
      · simp [parenParts, hrest, Node.parts, plain, Node.enclosure?]

instance Continues.parenthesized (start : Position) :
    Continues S start (g.parenthesized start) (one .expression) Expression.IsOperand where
  continues around hstart := by
    unfold Grammar.parenthesized
    exact .advance fun _ => .allowingIn (.parenRest hstart)

end Parentheses

/-! ## Primary expressions -/

instance Continues.classExpression (start : Position) :
    Continues S start (g.classExpression start) (one .expression) Expression.IsOperand where
  continues around hstart := by
    unfold Grammar.classExpression
    refine .after (.classDefinition hstart false) fun (name, definition) hname => .pure fun _ h =>
      ⟨rfl, ?_⟩
    refine Past.same [] (.expression (.class_ name definition)) h rfl rfl rfl rfl rfl rfl ?_
      ⟨trivial, trivial⟩ ⟨?_, trivial, fun _ => trivial⟩
    · change ∀ c ∈ [Node.class_ definition], c.isOrdinary
      simp
    · cases name with
      | none => trivial
      | some name => exact hname name rfl

instance Stable.opens (e : Expression) : Stable S e.Opens where
  stable hsame h := h.imp_right fun ⟨hsuper, hfaces⟩ =>
    ⟨hsuper, (Stable.faces _).stable hsame hfaces⟩

variable (S) in
/-- An expression has been read that has a value, or is `super` in front of what it takes. -/
abbrev Opened (around : List Node.Step) (low : Nat) (e : Expression) : Lexer → Prop :=
  Also (S.Past around low (one .expression e)) e.Opens

theorem Does.opened {P : Lexer → Prop} {p : Parse σ Expression}
    (h : S.Does around P p (S.Made around low (one .expression) Expression.IsOperand)) :
    S.Does around P p (S.Opened around low) :=
  h.mono (fun _ _ h => h) fun _ _ _ ⟨hoperand, hpast⟩ => ⟨hpast, .inl hoperand⟩

theorem Does.superExpression {start : Position} (hstart : S.Exact start) :
    S.Does around (S.Facing around start.offset) (Grammar.superExpression start)
      (S.Opened around start.offset) := by
  unfold Grammar.superExpression
  refine .skipping (fun _ h => h) (.context fun context hgrants => ?_)
  refine .required (fun _ => .fail _ hstart) fun hsuper => .peeked fun token => ?_
  have hend (htoken : token.followsSuper = true) :
      S.Does around (Also (S.Past around start.offset []) (Lexer.Faces (· = token))) (do
        return .super (← spanFrom start)) (S.Opened around start.offset) := by
    refine .madeAlso (fun span => .expression (.super span)) hstart
      (fun _ => ⟨rfl, rfl, rfl, hgrants.allowSuper hsuper, nofun, ⟨trivial, trivial⟩, trivial,
        trivial, fun _ => trivial⟩)
      fun span => .pure fun _ h => ?_
    refine ⟨h.1, .inr ⟨rfl, h.2.mono fun other hother => ?_⟩⟩
    rw [hother]
    exact htoken
  split
  case _ | _ | _ => exact hend rfl
  · exact .halt inferInstance

theorem Does.keywordAtom {start : Position} (hstart : S.Exact start) (word : Keyword) :
    S.Does around (Also (Also (S.Before around start.offset []) (S.Worded start.offset []))
        (Lexer.Faces (· = .keyword word))) (g.keywordAtom start word)
      (S.Opened around start.offset) := by
  have hfacing {p : Parse σ Expression} (h : S.Does around (S.Facing around start.offset) p
      (S.Opened around start.offset)) : S.Does around (Also (Also (S.Before around start.offset [])
        (S.Worded start.offset [])) (Lexer.Faces (· = .keyword word))) p
      (S.Opened around start.offset) :=
    h.weaken fun _ _ h => ⟨h.1.1, h.2.mono fun _ hword => hword ▸ by rintro ⟨⟩⟩
  unfold Grammar.keywordAtom
  split
  · refine hfacing (.skipping (fun _ h => h) (.opened ?_))
    exact .done hstart (fun _ => .plain (by rintro _ ⟨⟩)) fun _ => rfl
  · exact hfacing (.superExpression hstart)
  · refine .opened (.weaken (.functionExpression hstart (by rintro ⟨⟩)) fun _ _ h => h.1.1)
  · exact .opened (.asyncAtom hstart)
  case _ | _ | _ | _ => exact hfacing (.opened (.opening hstart))
  · exact .ite (fun _ => hfacing (.opened (.opening hstart))) fun _ => .halt inferInstance

theorem Does.punctuatorAtom {start : Position} (hstart : S.Exact start) (symbol : Punctuator) :
    S.Does around (S.Facing around start.offset) (g.punctuatorAtom start symbol)
      (S.Opened around start.offset) := by
  unfold Grammar.punctuatorAtom
  split
  case _ | _ | _ | _ | _ => exact .opened (.opening hstart)
  · exact .halt inferInstance

theorem Does.atom :
    S.Does around (S.Before around low []) g.atom (S.Opened around low) := by
  unfold Grammar.atom
  refine .innerWorded fun start hstart hlow => .peeked fun token => ?_
  refine .mono (Q := S.Opened around start.offset) ?_ (fun _ _ h => h)
    fun _ _ _ h => ⟨h.1.mono hlow, h.2⟩
  have hfacing {p : Parse σ Expression} (htoken : token ≠ .endOfInput)
      (h : S.Does around (S.Facing around start.offset) p (S.Opened around start.offset)) :
      S.Does around (Also (Also (S.Before around start.offset []) (S.Worded start.offset []))
        (Lexer.Faces (· = token))) p (S.Opened around start.offset) :=
    (h.facing htoken).weaken fun _ _ h => ⟨h.1.1, h.2⟩
  split
  · exact .keywordAtom hstart _
  · exact hfacing (by rintro ⟨⟩) (.punctuatorAtom hstart _)
  case _ | _ | _ | _ | _ | _ => exact hfacing (by rintro ⟨⟩) (.opened (.opening hstart))
  · exact .halt inferInstance

theorem Does.primary :
    S.Does around (S.Before around low []) g.primary (S.Opened around low) := by
  unfold Grammar.primary
  refine .bind .atom fun value => .observe fun following => ?_
  refine .assume (fun _ h => h.1.formed _ List.mem_cons_self) fun hformed => ?_
  refine .bind (.hook (hg.hooks.afterAtom value following (hformed.start rfl))) fun _ => ?_
  exact .pure fun _ h => h

end Survey

end EcmaScript
