import EcmaScript.Proofs.Acceptance
import EcmaScript.Proofs.Brackets
import EcmaScript.Proofs.Enclosed.Statement
import EcmaScript.Proofs.Enclosed.Text

/-!
Sources that are one expression, in parentheses.

What a parse has read of such a source it reads again between parentheses: the tokens are the same,
the hooks are as they are between two statements, and a closing parenthesis stands for the end of
the source. The text of each use is then read as the use asks for, exactly unless the expression is
an arrow function.
-/

namespace EcmaScript

variable {σ : Type}

/-! ## Runs of expressions -/

namespace Grammar

variable {options : Options} {hooks : Hooks σ} {bound depth : Nat} {s t : ParserState σ}
  {e : Expression}

/-- The tokens of an expression lead from its start to its end. -/
theorem exists_trail_of_expression
    (h : (ofDepth options hooks bound depth).expression s = .ok e t) :
    ∃ consumed, Trail consumed s.lexer t.lexer := by
  rw [← Script.denote_expression, observe_plug] at h
  have horderly : Script.expression.Orderly Script.programPlace .nothing Script.expression
      fun _ => Known.nothing.further :=
    Script.orderly_expression (.inl rfl)
  obtain ⟨htrail, -⟩ := (horderly.feedsOn (feedsOn_routines options bound depth)).feedsOn hooks
    options trivial h
  exact ⟨_, htrail⟩

/-- An expression that has been read leaves the context as it was. -/
theorem context_of_expression (h : (ofDepth options hooks bound depth).expression s = .ok e t) :
    t.context = s.context :=
  IsRule.expression.context_eq_of_ok h

/-- An expression that has been read leaves no class open. -/
theorem level_of_expression {s t : ParserState PrivateNames}
    (h : (ofDepth options .privateNames bound depth).expression s = .ok e t) :
    PrivateNames.Level s.hooks t.hooks := by
  rw [← Script.denote_expression, observe_plug] at h
  have hlevel := (Script.expression.plug (routines options bound depth)).level_privateNames options
    s (by rw [Observed.outcome, h]; exact .ok e)
  rwa [h] at hlevel

end Grammar

/-! ## Hooks between two statements -/

/-- Hooks that read an expression in parentheses as they read it alone, if they have the state `top`
in front of it: they ignore positions, they take a closing parenthesis behind an operand for the end
of the source, and behind the expression they are in the same state again. -/
structure Hooks.Enclose (hooks : Hooks σ) (R : σ → σ → Prop) (top : σ) : Prop where
  rules : hooks.tokenRules = [] ∨ hooks.tokenRules = [TokenRule.privateName]
  ignorePositions : hooks.IgnorePositions R
  atEnd : ∀ {atom atom' : Expression}, Twins atom atom' →
    Echoed R (hooks.afterAtom atom .endOfInput) (hooks.afterAtom atom' (.punctuator .rParen))
  returns : ∀ {options : Options} {bound depth : Nat} {s t : ParserState σ} {e : Expression},
    (Grammar.ofDepth options hooks bound depth).expression s = .ok e t → s.hooks = top →
      t.hooks = top
  reset : ∀ s, R top s → R top (hooks.reset s)
  passes : ∀ e : Expression, e.isPrivateDelete = false → hooks.LetsPass (R top) e

theorem Hooks.enclose_silent : (Hooks.silent []).Enclose Eq () where
  rules := .inl rfl
  ignorePositions := ignorePositions_silent []
  atEnd _ := by
    rintro s _ t a rfl hrun
    exact ⟨t, hrun, rfl⟩
  returns _ _ := rfl
  reset _ _ := rfl
  passes _ _ := ⟨fun _ _ => rfl, fun _ _ _ => rfl⟩

namespace PrivateNames

/-- Outside of classes the hooks let everything pass but the deletion of a private member. -/
theorem letsPass {e : Expression} (he : e.isPrivateDelete = false) :
    Hooks.privateNames.LetsPass (Twins {}) e where
  afterUnary s _ := (afterUnary_eq e s).trans (if_neg (Bool.eq_false_iff.1 he))
  afterAtom next s hs := by
    refine (afterAtom_eq e next s).trans (if_neg ?_)
    rw [← (twins_iff.1 hs).1]
    simp

theorem eq_initial {s : PrivateNames} (hscopes : s.scopes.scopes = [])
    (hinside : s.inPrivateMethod = false) : s = {} := by
  obtain ⟨⟨scopes⟩, inPrivateMethod⟩ := s
  cases hscopes
  cases hinside
  rfl

theorem enclose : Hooks.privateNames.Enclose Twins {} where
  rules := .inr rfl
  ignorePositions := ignorePositions
  atEnd {atom atom'} hatom s s' t a hs hrun := by
    have hnone (atom : Expression) {next : Token} (hnext : next ≠ .punctuator .lParen)
        (s : PrivateNames) : afterAtom atom next s = .ok () s :=
      (afterAtom_eq atom next s).trans (if_neg (by simp [hnext]))
    cases (hnone atom (by decide) s).symm.trans hrun
    exact ⟨s', hnone atom' (by decide) s', hs⟩
  returns hrun hs := by
    obtain ⟨hdepth, hinside⟩ := Grammar.level_of_expression hrun
    rw [hs] at hdepth hinside
    exact eq_initial (List.eq_nil_of_length_eq_zero hdepth) hinside
  reset s _ := .refl _
  passes _ he := letsPass he

end PrivateNames

/-! ## Sources that are one expression -/

/-- By itself the source is the expression, as a statement without a semicolon: no `#!` line stands
in front of it and nothing but white space behind it. -/
def IsLoneExpression (source : String) (result : Except Failure Program) (e : Expression) : Prop :=
  ∃ span whole, result = .ok ⟨[.expression e span], whole⟩ ∧
    source.toList[span.stop.offset - 1]? ≠ some ';' ∧ source.toList.take 2 ≠ ['#', '!'] ∧
    ∀ c ∈ source.toList.drop span.stop.offset, isSeparator c = true

/-- The source, with a closing parenthesis behind it, is read as the expression. -/
theorem exists_inside {hooks : Hooks σ} {R : σ → σ → Prop} {top initial : σ}
    (h : hooks.Enclose R top) (hinitial : hooks.reset initial = top) {source : String}
    {options : Options} {e : Expression}
    (hlone : IsLoneExpression source (parseWith source options hooks initial) e)
    (hpasses : ∀ e', Twins e e' → hooks.LetsPass (R top) e') (bound deepest : Nat) :
    ∃ inside : List Lexeme, (∀ ⦃following rest⦄, Spells hooks.tokenRules rest following →
        Spells hooks.tokenRules (inside ++ rest) (source.toList ++ ')' :: following)) ∧
      ReadsEnclosed (R top) options hooks bound deepest { strict := options.goal == .module }
        inside e := by
  obtain ⟨span, whole, hparse, hsemicolon, hmark, hblank⟩ := hlone
  let parser := Parser.ofSource source options hooks initial
  obtain ⟨t, hprogram⟩ : ∃ t, parser.grammar.program parser.state =
      .ok ⟨[.expression e span], whole⟩ t := by
    change parser.parse.1 = _ at hparse
    unfold Parser.parse at hparse
    split at hparse <;> cases hparse
    exact ⟨_, ‹_›⟩
  obtain ⟨first, begun, middle, hfirst, hexpression, next, u, hnext, hends⟩ :=
    Grammar.exists_of_program hprogram
  have htop : begun.hooks = top := hfirst.hooks_eq.trans hinitial
  have hcontext : begun.context = { strict := options.goal == .module } := hfirst.context_eq
  have hbegun : Trail [] (.ofSource source hooks.tokenRules) begun.lexer :=
    .nil hfirst.takes.2 hfirst.lastSpan_eq
  obtain ⟨htoken, hstop, last, u', hlast, hend⟩ | ⟨htoken, hstop⟩ := hends
  · -- The semicolon would stand in the source.
    obtain ⟨consumed, htrail⟩ := Grammar.exists_trail_of_expression hexpression
    refine absurd ?_ hsemicolon
    rw [hstop]
    exact (hbegun.append htrail).getElem?_semicolon h.rules hmark htoken rfl hend rfl
      (hnext.feedsAt (hlast.feedsAt trivial))
  · have hfeeds : middle.lexer.FeedsAt [⟨.ending next.newlineBefore, next.span⟩] := by
      have hfeeds : middle.lexer.FeedsAt [⟨⟨next.token, next.newlineBefore, none⟩, next.span⟩] :=
        hnext.feedsAt trivial
      rwa [htoken] at hfeeds
    obtain ⟨consumed, htrail, hstops, hparses⟩ := exists_parses_parenthesized h.ignorePositions
      h.atEnd (Nat.succ_ne_zero _) hexpression (Grammar.context_of_expression hexpression)
      ((h.returns hexpression htop).trans htop.symm) (by rw [hcontext]) hfeeds bound deepest
    refine ⟨consumed.map Placed.toLexeme ++ [.closing next.newlineBefore],
      fun following rest hrest => ?_, ?_⟩
    · rw [List.append_assoc]
      refine (hbegun.append htrail).spells_closed h.rules hmark hstops hfeeds ?_ hrest
      rwa [← hstop]
    · refine ⟨fun depth hle next' rest hnext' => ?_, rfl, h.reset, h.passes, hpasses⟩
      have hatom := hparses depth hle next' rest hnext'
      rw [htop, hcontext] at hatom
      rwa [List.append_assoc]

/-! ## Uses of the parentheses -/

namespace OperandUse

/-- How the text of the use is read for the expression: only an arrow function is misread. -/
def reading (use : OperandUse) (e : Expression) : Option Expression :=
  if e.isArrow then use.misreading e else some (use.toExpression e)

/-- The result is the expression as the only statement of the program, or the source has been
refused at some token. -/
def HasReading (result : Except Failure Program) : Option Expression → Prop
  | some e => ∃ p, result = .ok p ∧ p.bare = (Program.ofExpression e).bare
  | none => ∃ position, result = .error (.error (.located .unexpectedToken position))

/-- The text of a use is read as the use asks for, unless the parentheses hold an arrow function. -/
theorem hasReading_parseWith {hooks : Hooks σ} {R : σ → σ → Prop} {top initial : σ}
    (h : hooks.Enclose R top) (hreset : hooks.reset initial = top) (hinitial : R top initial)
    {source : String} {options : Options} {e : Expression}
    (hlone : IsLoneExpression source (parseWith source options hooks initial) e)
    (hpasses : ∀ e', Twins e e' → hooks.LetsPass (R top) e') (use : OperandUse) :
    HasReading (parseWith (use.text source) options hooks initial) (use.reading e) := by
  have hrules := ClaimPrivateNames.of_eq h.rules
  let length := (use.text source).toList.length
  obtain ⟨inside, hspells, hreads⟩ :=
    exists_inside h hreset hlone hpasses (length + 2) (4 * (length + 2))
  have hfeeds := use.feeds_text hrules hspells
  unfold reading
  split
  · next harrow =>
    cases hx : use.misreading e with
    | some x =>
      exact exists_program_of_parses hrules.advances hinitial hfeeds
        (hreads.program_misreading use harrow hx)
    | none =>
      exact exists_error_of_refused hrules.advances hinitial hfeeds
        (hreads.refused_program use harrow hx)
  · next harrow =>
    exact exists_program_of_parses hrules.advances hinitial hfeeds
      (hreads.program_use use (Bool.eq_false_iff.2 harrow))

/-- What is misread is not read as the use asks for. -/
theorem hasReading_iff (use : OperandUse) {result : Except Failure Program} {e : Expression}
    (h : HasReading result (use.reading e)) :
    HasReading result (some (use.toExpression e)) ↔ e.isArrow = false := by
  unfold reading at h
  split at h
  · next harrow =>
    refine ⟨?_, fun hbare => by rw [harrow] at hbare; cases hbare⟩
    rintro ⟨p, rfl, hp⟩
    cases use with
    | alternative =>
      obtain ⟨_, hsame, hp'⟩ := h
      cases hsame
      cases hp.symm.trans hp'
    | _ =>
      obtain ⟨_, herror⟩ := h
      cases herror
  · next harrow => exact ⟨fun _ => Bool.eq_false_iff.2 harrow, fun _ => h⟩

end OperandUse

/-- Where private names are read, no private member is deleted. -/
theorem not_isPrivateDelete_of_parse {source : String} {options : Options} {e : Expression}
    {span whole : Span} (h : parse source options = .ok ⟨[.expression e span], whole⟩) :
    e.isPrivateDelete = false := by
  obtain ⟨hrules, -⟩ := isSome_replay_iff.1 (parse_eq_ok_iff.1 h).2
  have hstatement : Node.Occurs (.program ⟨[.expression e span], whole⟩) _
      (.statement (.expression e span)) := .child .here List.mem_cons_self
  exact hrules.notDeleted _ e (hstatement.child List.mem_cons_self)

open OperandUse in
/-- A source that is one expression is read in parentheses as the operand of a call, of a member
access, of a sum, of a sum behind `||`, and as the test of a conditional expression: exactly unless
it is an arrow function, which nothing may follow. -/
theorem parse_inParentheses (source : String) (options : Options) (e : Expression)
    (use : OperandUse) :
    (IsLoneExpression source (parsePlain source options) e →
      HasReading (parsePlain (use.text source) options) (use.reading e) ∧
        (HasReading (parsePlain (use.text source) options) (some (use.toExpression e)) ↔
          e.isArrow = false)) ∧
    (IsLoneExpression source (parse source options) e →
      HasReading (parse (use.text source) options) (use.reading e) ∧
        (HasReading (parse (use.text source) options) (some (use.toExpression e)) ↔
          e.isArrow = false)) := by
  constructor
  · intro hlone
    have hreading := hasReading_parseWith Hooks.enclose_silent rfl rfl hlone
      (fun _ _ => ⟨fun _ _ => rfl, fun _ _ _ => rfl⟩) use
    exact ⟨hreading, use.hasReading_iff hreading⟩
  · intro hlone
    have hreading := hasReading_parseWith PrivateNames.enclose rfl (.refl _) hlone (by
      obtain ⟨span, whole, hparse, -⟩ := hlone
      intro e' he
      refine PrivateNames.letsPass ?_
      rw [← Expression.isPrivateDelete_eq he]
      exact not_isPrivateDelete_of_parse hparse) use
    exact ⟨hreading, use.hasReading_iff hreading⟩

/-- Whether the program is one expression statement that stops at the offset, and its expression
passes the test. -/
def isExpressionUpTo (offset : Nat) (test : Expression → Bool) :
    Except Failure Program → Bool
  | .ok ⟨[.expression e span], _⟩ => span.stop.offset == offset && test e
  | _ => false

theorem IsLoneExpression.of_isExpressionUpTo (source : String) {result : Except Failure Program}
    {offset : Nat} {test : Expression → Bool} (h : isExpressionUpTo offset test result = true)
    (hsemicolon : source.toList[offset - 1]? ≠ some ';') (hmark : source.toList.take 2 ≠ ['#', '!'])
    (hblank : (source.toList.drop offset).all isSeparator = true) :
    ∃ e, IsLoneExpression source result e ∧ test e = true := by
  unfold isExpressionUpTo at h
  split at h
  · next e span whole =>
    rw [Bool.and_eq_true, beq_iff_eq] at h
    obtain ⟨rfl, htest⟩ := h
    exact ⟨e, ⟨span, whole, rfl, hsemicolon, hmark, List.all_eq_true.1 hblank⟩, htest⟩
  · cases h

/-- A sequence that ends with an arrow function, in front of a line terminator, is an operand. -/
theorem parse_inParentheses_of_sequence :
    ∃ e, IsLoneExpression "b, x => c\n" (parse "b, x => c\n" {}) e ∧ e.isArrow = false ∧
      OperandUse.HasReading (parse "a || (b, x => c\n) + 1" {})
        (some (OperandUse.alternative.toExpression e)) := by
  have hexpression : isExpressionUpTo 9 (!·.isArrow) (parse "b, x => c\n" {}) = true := by
    decide +kernel
  obtain ⟨e, hlone, harrow⟩ := IsLoneExpression.of_isExpressionUpTo "b, x => c\n" hexpression
    (by decide) (by decide) (by decide)
  have harrow : e.isArrow = false := by simpa using harrow
  exact ⟨e, hlone, harrow,
    (((parse_inParentheses "b, x => c\n" {} e .alternative).2 hlone).2).2 harrow⟩

/-- An arrow function in parentheses cannot be called, although `new` can be applied to it. -/
theorem arrow_inParentheses_not_called :
    ∃ e, IsLoneExpression "x => 1" (parse "x => 1" {}) e ∧
      ¬OperandUse.HasReading (parse (OperandUse.callee.text "x => 1") {})
        (some (OperandUse.callee.toExpression e)) ∧
      (parse "new (x => 1)()" {}).isOk = true := by
  have hexpression : isExpressionUpTo 6 (·.isArrow) (parse "x => 1" {}) = true := by
    decide +kernel
  have hrefused : (parse (OperandUse.callee.text "x => 1") {}).isOk = false := by decide +kernel
  obtain ⟨e, hlone, -⟩ := IsLoneExpression.of_isExpressionUpTo "x => 1" hexpression
    (by decide) (by decide) (by decide)
  refine ⟨e, hlone, ?_, by decide +kernel⟩
  rintro ⟨p, hp, -⟩
  rw [hp] at hrefused
  cases hrefused

end EcmaScript
