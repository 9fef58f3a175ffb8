import EcmaScript.Proofs.Cover.Reread
import EcmaScript.Proofs.Steps

/-!
Names and literals as whole operands.

In front of a token that no operator, access or call begins with, a name, an array literal or an
object literal is a complete conditional expression: every level of the expression grammar passes it
on as it is. So it is where such an expression is re-read as a pattern.
-/

namespace EcmaScript

variable {σ α β : Type}

/-- Whether a pattern may end in front of the token: a default value or the end of what the pattern
is a part of. -/
def Token.closesPattern : Token → Bool
  | .punctuator .assign | .punctuator .comma | .punctuator .rParen | .punctuator .rBracket
  | .punctuator .rBrace => true
  | _ => false

/-- Hooks to which expressions of the form of patterns do not matter. -/
structure Hooks.PassPatterns (hooks : Hooks σ) : Prop where
  afterUnary : ∀ e s, e.hasPatternForm = true → hooks.afterUnary e s = .ok () s
  afterAtom : ∀ e next s, e.hasPatternForm = true → hooks.afterAtom e next s = .ok () s

theorem Hooks.passPatterns_silent (rules : List TokenRule) : (Hooks.silent rules).PassPatterns :=
  ⟨fun _ _ _ => rfl, fun _ _ _ _ => rfl⟩

theorem Token.ne_of_closesPattern {token other : Token} (h : token.closesPattern = true)
    (hother : other.closesPattern = false) : token ≠ other := by
  rintro rfl
  rw [h] at hother
  cases hother

/-- No operator between operands and none behind an operand ends a pattern. -/
theorem Token.noOperator_of_closesPattern {token : Token} (h : token.closesPattern = true)
    (allowIn : Bool) :
    InfixOperator.ofToken? allowIn token = none ∧ UpdateOperator.ofToken? token = none := by
  unfold closesPattern at h
  split at h
  all_goals first | exact ⟨rfl, rfl⟩ | cases h

/-- A hook that changes nothing. -/
theorem Parse.hook_of_ok {action : Hook σ α} {a : α} {s : ParserState σ}
    (h : action s.hooks = .ok a s.hooks) : hook action s = .ok a s := by
  simp only [hook, h]

theorem Parse.context_eq (s : ParserState σ) : Parse.context s = .ok s.context s := rfl

/-- A loop whose first round is its last one. -/
theorem Grammar.loop_of_stop {g : Grammar σ} (hbound : g.bound ≠ 0)
    {round : α → Parse σ (Round α β)} {a : α} {b : β} {s s' : ParserState σ}
    (h : round a s = .ok (.stop b) s') : g.loop round a s = .ok b s' := by
  unfold Grammar.loop
  obtain ⟨bound, heq⟩ := Nat.exists_eq_succ_of_ne_zero hbound
  rw [heq, repeatRounds, Parse.bind_of_ok h]
  rfl

namespace ParserState.LooksTo

variable {s t : ParserState σ} {next : Lookahead}

/-- A punctuator that is not next. -/
theorem nextIs_false (h : s.LooksTo next t) {symbol : Punctuator}
    (htoken : next.token ≠ .punctuator symbol) : Parse.nextIs symbol s = .ok false t := by
  rw [h.nextIs, beq_false_of_ne htoken]

theorem nextIsWord_false (h : s.LooksTo next t) {word : Keyword}
    (htoken : next.token ≠ .keyword word) : Parse.nextIsWord word s = .ok false t := by
  rw [h.nextIsWord, beq_false_of_ne htoken]

theorem nextIsTemplate_false (h : s.LooksTo next t) (hcloses : next.token.closesPattern = true) :
    Grammar.nextIsTemplate s = .ok false t := by
  unfold Grammar.nextIsTemplate
  rw [Parse.bind_of_ok h.peek]
  generalize next.token = token at hcloses
  cases token <;> first | rfl | cases hcloses

theorem nextIsArrow_false (h : s.LooksTo next t) (htoken : next.token ≠ .punctuator .arrow) :
    Grammar.nextIsArrow s = .ok false t := by
  unfold Grammar.nextIsArrow
  rw [Parse.bind_of_ok (h.nextIs_false htoken)]
  rfl

end ParserState.LooksTo

def Token.beginsPattern (context : Context) : Token → Bool
  | .punctuator .lBracket | .punctuator .lBrace | .identifier _ _ => true
  | .keyword word => Grammar.isNameIn context word
  | _ => false

/-- Whether neither an operator nor `new`, `await` or `yield` begins with the token, so that a
primary expression does. -/
structure Token.BeginsAtom (token : Token) (context : Context) : Prop where
  unary : UnaryOperator.ofToken? token = none
  update : UpdateOperator.ofToken? token = none
  new : token ≠ .keyword .new
  await : (context.inAsync && token == .keyword .await) = false
  yield : (context.inGenerator && token == .keyword .yield) = false

theorem Token.beginsAtom_of_beginsPattern {token : Token} {context : Context}
    (h : token.beginsPattern context = true) : token.BeginsAtom context := by
  unfold beginsPattern at h
  split at h
  case h_4 word =>
    -- A word that is a name here is no operator here.
    simp only [Grammar.isNameIn, Bool.and_eq_true, Bool.not_eq_true', Bool.and_eq_false_imp] at h
    obtain ⟨⟨hword, hyield⟩, hawait⟩ := h
    cases word <;> first
      | exact absurd hword (by decide)
      | refine ⟨rfl, rfl, by rintro ⟨⟩, ?_, ?_⟩ <;> grind
  case h_5 => cases h
  all_goals exact ⟨rfl, rfl, by rintro ⟨⟩, Bool.and_false _, Bool.and_false _⟩

namespace Grammar

variable {g : Grammar σ} {s s' t t' : ParserState σ} {first next : Lookahead} {e : Expression}

/-- In front of the end of a pattern there is nothing behind an operand. -/
theorem subscripts_of_closesPattern (hbound : g.bound ≠ 0) (hlook : t.LooksTo next t)
    (hcloses : next.token.closesPattern = true) (start : Position) (calleeOfNew : Bool) :
    g.subscripts e start calleeOfNew t = .ok e t := by
  have hother {symbol : Punctuator} (h : (Token.punctuator symbol).closesPattern = false) :
      next.token ≠ .punctuator symbol :=
    Token.ne_of_closesPattern hcloses h
  refine loop_of_stop hbound ?_
  unfold subscriptsRound
  rw [Parse.bind_of_ok (hlook.declines (hother rfl)), if_neg Bool.false_ne_true,
    Parse.bind_of_ok (hlook.nextIs_false (hother rfl)), if_neg Bool.false_ne_true,
    Parse.bind_of_ok (hlook.declines (hother rfl)), if_neg Bool.false_ne_true]
  cases calleeOfNew with
  | true =>
    rw [if_neg (by decide)]
    dsimp only
    rw [Parse.bind_of_ok (hlook.nextIsTemplate_false hcloses)]
    rfl
  | false =>
    rw [if_pos (by decide), Parse.bind_of_ok (hlook.nextIs_false (hother rfl)),
      if_neg Bool.false_ne_true]
    dsimp only
    rw [Parse.bind_of_ok (hlook.nextIsTemplate_false hcloses)]
    rfl

/-- A primary expression of the form of a pattern is a whole left-hand side where a pattern ends. -/
theorem leftHandSideRule_of_atom (hhooks : g.hooks.PassPatterns) (hbound : g.bound ≠ 0)
    (hfirst : s.LooksTo first s) (hnew : first.token ≠ .keyword .new)
    (hatom : g.atom s = .ok e t) (hform : e.hasPatternForm = true) (hlook : t.LooksTo next t')
    (hcloses : next.token.closesPattern = true) : g.leftHandSideRule s = .ok e t' := by
  have hprimary : g.primary s = .ok e t' := by
    unfold primary
    rw [Parse.bind_of_ok hatom, Parse.bind_of_ok hlook.peek,
      Parse.bind_of_ok (Parse.hook_of_ok (hhooks.afterAtom e next.token t'.hooks hform))]
    rfl
  unfold leftHandSideRule
  rw [Parse.bind_of_ok hfirst.startPosition, Parse.bind_of_ok (hfirst.nextIsWord_false hnew),
    if_neg Bool.false_ne_true, Parse.bind_of_ok hprimary]
  dsimp only
  rw [Expression.isArrow_of_hasPatternForm hform, if_neg Bool.false_ne_true]
  exact subscripts_of_closesPattern hbound hlook.again hcloses _ _

theorem unaryRule_of_atom (hhooks : g.hooks.PassPatterns) (hbound : g.bound ≠ 0)
    (hfirst : s.LooksTo first s) (hbegins : first.token.BeginsAtom s.context)
    (hatom : g.atom s = .ok e t) (hform : e.hasPatternForm = true) (hlook : t.LooksTo next t')
    (hcloses : next.token.closesPattern = true) : g.unaryRule s = .ok e t' := by
  have hupdate (start : Position) : g.updateBehind start s = .ok e t' := by
    unfold updateBehind
    rw [Parse.bind_of_ok (leftHandSideRule_of_atom hhooks hbound hfirst hbegins.new hatom hform
      hlook hcloses), Parse.bind_of_ok hlook.again.peek,
      (Token.noOperator_of_closesPattern hcloses false).2]
    rfl
  have hbody : g.unaryBody s = .ok e t' := by
    unfold unaryBody
    rw [Parse.bind_of_ok hfirst.startPosition, Parse.bind_of_ok hfirst.peek]
    simp only [hbegins.unary, hbegins.update]
    rw [Parse.bind_of_ok (Parse.context_eq s), hbegins.await]
    exact hupdate _
  unfold unaryRule
  rw [Parse.bind_of_ok hbody,
    Parse.bind_of_ok (Parse.hook_of_ok (hhooks.afterUnary e t'.hooks hform))]
  rfl

/-- A primary expression of the form of a pattern is a whole conditional expression where a pattern
ends. -/
theorem conditional_of_atom (hhooks : g.hooks.PassPatterns) (hbound : g.bound ≠ 0)
    (hfirst : s.LooksTo first s) (hbegins : first.token.BeginsAtom s.context)
    (hatom : g.atom s = .ok e t) (hform : e.hasPatternForm = true) (hlook : t.LooksTo next t')
    (hcloses : next.token.closesPattern = true) : g.conditional s = .ok e t' := by
  have harrow := Expression.isArrow_of_hasPatternForm hform
  have hloop (start : Position) : g.loop (g.binaryRound start 0) e t' = .ok e t' := by
    refine loop_of_stop hbound ?_
    unfold binaryRound
    rw [Parse.bind_of_ok (Parse.context_eq t'), Parse.bind_of_ok hlook.again.peek,
      (Token.noOperator_of_closesPattern hcloses _).1]
    rfl
  have hbinary : g.binaryRule 0 s = .ok e t' := by
    unfold binaryRule
    rw [Parse.bind_of_ok hfirst.startPosition, Parse.bind_of_ok (unaryRule_of_atom hhooks hbound
      hfirst hbegins hatom hform hlook hcloses), harrow]
    exact hloop _
  unfold conditional
  rw [Parse.bind_of_ok hfirst.startPosition, Parse.bind_of_ok hbinary, harrow,
    if_neg Bool.false_ne_true,
    Parse.bind_of_ok (hlook.again.declines (Token.ne_of_closesPattern hcloses rfl))]
  rfl

/-- An assignment expression that does not begin with `yield` as an operator. -/
theorem assignmentRule_eq (hfirst : s.LooksTo first s')
    (hyield : (s.context.inGenerator && first.token == .keyword .yield) = false) :
    g.assignmentRule s = (do
      let left ← g.conditional
      match AssignmentOperator.ofToken? (← Parse.peek) with
      | none => return left
      | some operator =>
        let target ← Parse.ensure (left.toTarget (← g.nameRules) operator)
        Parse.skip
        let value ← g.assignment
        return .assignment operator target value (← Parse.spanFrom first.span.start)) s' := by
  unfold assignmentRule
  rw [Parse.bind_of_ok (Parse.context_eq s)]
  cases hgenerator : s.context.inGenerator with
  | false => exact Parse.bind_of_ok hfirst.startPosition
  | true =>
    rw [hgenerator, Bool.true_and] at hyield
    rw [if_pos rfl, Parse.bind_of_ok (hfirst.nextIsWord .yield), hyield]
    exact Parse.bind_of_ok hfirst.again.startPosition

/-- In front of the end of a pattern without a default value, the conditional expression is the
whole assignment expression. -/
theorem assignmentRule_of_conditional (hfirst : s.LooksTo first s')
    (hbegins : first.token.BeginsAtom s.context) (hleft : g.conditional s' = .ok e t)
    (hlook : t.LooksTo next t) (hcloses : next.token.closesPattern = true)
    (hassign : next.token ≠ .punctuator .assign) : g.assignmentRule s = .ok e t := by
  have hoperator : AssignmentOperator.ofToken? next.token = none := by
    generalize next.token = token at hcloses hassign
    unfold Token.closesPattern at hcloses
    split at hcloses
    case h_1 => exact absurd rfl hassign
    all_goals first | rfl | cases hcloses
  rw [assignmentRule_eq hfirst hbegins.yield, Parse.bind_of_ok hleft, Parse.bind_of_ok hlook.peek,
    hoperator]
  rfl

/-- In front of `=`, the conditional expression is the target of an assignment. -/
theorem assignmentRule_of_assign {target : AssignmentTarget} {value : Expression}
    {u : ParserState σ} (hfirst : s.LooksTo first s') (hbegins : first.token.BeginsAtom s.context)
    (hleft : g.conditional s' = .ok e t) (hlook : t.LooksTo next t)
    (hassign : next.token = .punctuator .assign)
    (htarget : e.toTarget ⟨t.context.strict, g.options.goal⟩ .assign = .ok target)
    (hvalue : g.assignment (t.behind next) = .ok value u) :
    g.assignmentRule s =
      .ok (.assignment .assign target value ⟨first.span.start, u.lexer.lastSpan.stop⟩) u := by
  have hrules : g.nameRules t = .ok ⟨t.context.strict, g.options.goal⟩ t := rfl
  rw [assignmentRule_eq hfirst hbegins.yield, Parse.bind_of_ok hleft, Parse.bind_of_ok hlook.peek,
    hassign]
  change (g.nameRules >>= _) t = _
  rw [Parse.bind_of_ok hrules, Parse.bind_of_ok (Parse.ensure_of_ok htarget t),
    Parse.bind_of_ok hlook.skip, Parse.bind_of_ok hvalue]
  rfl

end Grammar

end EcmaScript
