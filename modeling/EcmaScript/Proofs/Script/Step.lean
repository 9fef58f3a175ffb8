import EcmaScript.Proofs.Script

/-!
Scripts of the steps that every grammar rule is made of.

Each step stands beside an equation for the rule that it denotes, so that the equation for a larger
script follows by rewriting.
-/

namespace EcmaScript.Script

variable {σ α β : Type} (g : Grammar σ)

/-! ## How scripts are built -/

theorem denote_leaf (procedure : Procedure α) (s : ParserState σ) :
    (leaf procedure).denote g s = (procedure.observe g.hooks g.options s).1 := rfl

@[simp] theorem denote_pure (a : α) : (pure a : Script α).denote g = pure a := rfl

@[simp] theorem denote_bind (first : Script β) (next : β → Script α) :
    (first >>= next).denote g = first.denote g >>= fun b => (next b).denote g := rfl

@[simp] theorem denote_map (f : β → α) (script : Script β) :
    (f <$> script).denote g = f <$> script.denote g :=
  (map_eq_pure_bind f (script.denote g)).symm

@[simp] theorem denote_ite (c : Prop) [Decidable c] (yes no : Script α) :
    (if c then yes else no).denote g = if c then yes.denote g else no.denote g := by
  by_cases h : c
  · simp only [if_pos h]
  · simp only [if_neg h]

/-- What stands behind a choice stands behind both sides of it. -/
@[simp] theorem ite_bind (c : Prop) [Decidable c] (yes no : Parse σ β) (rest : β → Parse σ α) :
    (if c then yes else no) >>= rest = if c then yes >>= rest else no >>= rest := by
  by_cases h : c
  · simp only [if_pos h]
  · simp only [if_neg h]

@[simp] theorem denote_loop (round : α → Script (Round α β)) (start : α) :
    (loop round start).denote g = g.loop (fun a => (round a).denote g) start := rfl

@[simp] theorem denote_within (region : Region) (body : Script α) :
    (within region body).denote g =
      Parse.within region.enter region.leave (body.denote g) := rfl

/-! ## Rules that recur -/

def statement : Script Statement := .call .statement

def assignment : Script Expression := .call .assignment

def binary (least : Nat) : Script Expression := .call (.binary least)

def unary : Script Expression := .call .unary

def leftHandSide : Script Expression := .call .leftHandSide

def newExpression : Script Expression := .call .newExpression

def bindingTarget : Script Pattern := .call .bindingTarget

@[simp] theorem denote_statement : statement.denote g = g.statement := rfl

@[simp] theorem denote_assignment : assignment.denote g = g.assignment := rfl

@[simp] theorem denote_binary (least : Nat) : (binary least).denote g = g.binary least := rfl

@[simp] theorem denote_unary : unary.denote g = g.unary := rfl

@[simp] theorem denote_leftHandSide : leftHandSide.denote g = g.leftHandSide := rfl

@[simp] theorem denote_newExpression : newExpression.denote g = g.newExpression := rfl

@[simp] theorem denote_bindingTarget : bindingTarget.denote g = g.bindingTarget := rfl

/-! ## Context, checks and hooks -/

def raise (d : Diagnostic) : Script α := .leaf (.raise d)

def fail (cause : Cause) (position : Position) : Script α := raise (.located cause position)

def unexpectedAt (position : Position) : Script α := fail .unexpectedToken position

def ensure : Except Diagnostic α → Script α
  | .ok a => pure a
  | .error d => raise d

def context : Script Context := .leaf .context

def beStrict : Script Unit := .leaf .beStrict

def nameRules : Script NameRules := do
  return ⟨(← context).strict, (← options).goal⟩

def declarePrivate (name : PrivateName) (kind : MemberKind) (start : Position) : Script Unit :=
  .leaf (.declareMember name kind start)

def referenceName (name : PrivateName) : Script Unit := .leaf (.referenceName name)

def afterUnary (e : Expression) : Script Unit := .leaf (.afterUnary e)

def afterAtom (atom : Expression) (following : Token) : Script Unit :=
  .leaf (.afterAtom atom following)

@[simp] theorem denote_fail (cause : Cause) (position : Position) :
    (fail cause position : Script α).denote g = Parse.fail cause position := rfl

@[simp] theorem denote_unexpectedAt (position : Position) :
    (unexpectedAt position : Script α).denote g = Parse.unexpectedAt position := rfl

@[simp] theorem denote_ensure (check : Except Diagnostic α) :
    (ensure check).denote g = Parse.ensure check := by
  cases check <;> rfl

@[simp] theorem denote_context : context.denote g = Parse.context := rfl

@[simp] theorem denote_beStrict :
    beStrict.denote g = Parse.setContext ({ · with strict := true }) := rfl

@[simp] theorem denote_nameRules : nameRules.denote g = g.nameRules := rfl

/-- What a question to the hooks denotes. -/
theorem denote_askName {question : Hook σ Bool} {name : PrivateName} {procedure : Procedure Unit}
    {event : Event}
    (h : ∀ s, procedure.observe g.hooks g.options s =
      (Observed.ofResult (Procedure.askName question name s)).behind event) :
    (leaf procedure).denote g = Procedure.askName question name := by
  funext s
  rw [denote_leaf, h]
  simp only [Observed.behind, Observed.ofResult]
  cases Procedure.askName question name s <;> rfl

@[simp] theorem denote_declarePrivate (name : PrivateName) (kind : MemberKind) (start : Position) :
    (declarePrivate name kind start).denote g = g.declarePrivate name kind start :=
  denote_askName g fun _ => rfl

@[simp] theorem denote_referenceName (name : PrivateName) : (referenceName name).denote g =
    Procedure.askName (g.hooks.referenceName name g.options) name :=
  denote_askName g fun _ => rfl

/-- What a call of a hook without an answer denotes. -/
theorem denote_hook {action : Hook σ Unit} {procedure : Procedure Unit} {event : Event}
    (h : ∀ s, procedure.observe g.hooks g.options s =
      (Observed.ofResult (Parse.hook action s)).behind event) :
    (leaf procedure).denote g = Parse.hook action := by
  funext s
  rw [denote_leaf, h]
  simp only [Observed.behind, Observed.ofResult]
  cases Parse.hook action s <;> rfl

@[simp] theorem denote_afterUnary (e : Expression) :
    (afterUnary e).denote g = Parse.hook (g.hooks.afterUnary e) :=
  denote_hook g fun _ => rfl

@[simp] theorem denote_afterAtom (atom : Expression) (following : Token) :
    (afterAtom atom following).denote g = Parse.hook (g.hooks.afterAtom atom following) :=
  denote_hook g fun _ => rfl

/-! ## Steps of the lexer -/

def lexing (step : LexStep α) : Script α := .leaf (.lex step)

theorem denote_lex (step : LexStep α) :
    (leaf (.lex step)).denote g = Parse.lexing step.run := by
  funext s
  rw [denote_leaf]
  simp only [Procedure.observe, Observed.ofResult]
  cases Parse.lexing step.run s <;> rfl

@[simp] theorem denote_lexing (step : LexStep α) :
    (lexing step).denote g = Parse.lexing step.run :=
  denote_lex g step

def peek : Script Token := lexing .peek

def next : Script Token := lexing .next

def peekSecond : Script (Token × Bool) := lexing .peekSecond

def startPosition : Script Position := lexing .peekStart

def newlineBefore : Script Bool := lexing .newlineBefore

def lastEnd : Script Position := lexing .lastEnd

@[simp] theorem denote_peek : peek.denote g = Parse.peek := denote_lexing g .peek

@[simp] theorem denote_next : next.denote g = Parse.next := denote_lexing g .next

@[simp] theorem denote_peekSecond : peekSecond.denote g = Parse.peekSecond :=
  denote_lexing g .peekSecond

@[simp] theorem denote_startPosition : startPosition.denote g = Parse.startPosition :=
  denote_lexing g .peekStart

@[simp] theorem denote_newlineBefore : newlineBefore.denote g = Parse.newlineBefore :=
  denote_lexing g .newlineBefore

@[simp] theorem denote_lastEnd : lastEnd.denote g = Parse.lastEnd := denote_lexing g .lastEnd

/-- Consuming a slash and reading it again is one step. -/
theorem skip_rescanRegExp : (do
    Parse.skip
    Parse.lexing Lexing.rescanRegExp : Parse σ Token) = Parse.lexing LexStep.regExp.run := by
  funext s
  simp only [Parse.skip, Parse.next, Parse.lexing, LexStep.run, Bind.bind, EStateM.bind]
  cases Lexing.next s.lexer <;> rfl

/-- Consuming a closing brace and reading the text of the template behind it is one step. -/
theorem skip_readTemplateContinuation : (do
    Parse.skip
    Parse.lexing Lexing.readTemplateContinuation : Parse σ Token) =
      Parse.lexing LexStep.templateContinuation.run := by
  funext s
  simp only [Parse.skip, Parse.next, Parse.lexing, LexStep.run, Bind.bind, EStateM.bind]
  cases Lexing.next s.lexer <;> rfl

def skip : Script Unit := do
  let _ ← next

def spanFrom (start : Position) : Script Span := do return ⟨start, ← lastEnd⟩

def unexpected : Script α := do unexpectedAt (← startPosition)

def nextIs (symbol : Punctuator) : Script Bool := do return (← peek) == .punctuator symbol

def nextIsWord (word : Keyword) : Script Bool := do return (← peek) == .keyword word

def nextIsName (name : String) : Script Bool := do return (← peek) == .identifier name false

def nextIsIdentifier : Script Bool := do return (← peek).isIdentifierLike

def accept (symbol : Punctuator) : Script Bool := do
  if ← nextIs symbol then
    skip
    return true
  return false

def acceptWord (word : Keyword) : Script Bool := do
  if ← nextIsWord word then
    skip
    return true
  return false

def expect (symbol : Punctuator) : Script Unit := do
  unless ← accept symbol do unexpected

def expectWord (word : Keyword) : Script Unit := do
  unless ← acceptWord word do unexpected

def atStatementEnd : Script Bool := do
  if ← newlineBefore then return true
  let token ← peek
  return token == .endOfInput || token == .punctuator .semicolon || token == .punctuator .rBrace

def endStatement : Script Unit := do
  if ← accept .semicolon then return
  unless ← atStatementEnd do unexpected

@[simp] theorem denote_skip : skip.denote g = Parse.skip := by
  simp only [skip, Parse.skip, denote_bind, denote_next, denote_pure]

@[simp] theorem denote_spanFrom (start : Position) :
    (spanFrom start).denote g = Parse.spanFrom start := by
  simp only [spanFrom, Parse.spanFrom, denote_bind, denote_lastEnd, denote_pure]

@[simp] theorem denote_unexpected : (unexpected : Script α).denote g = Parse.unexpected := by
  simp only [unexpected, Parse.unexpected, denote_bind, denote_startPosition, denote_unexpectedAt]

@[simp] theorem denote_nextIs (symbol : Punctuator) :
    (nextIs symbol).denote g = Parse.nextIs symbol := by
  simp only [nextIs, Parse.nextIs, denote_bind, denote_peek, denote_pure]

@[simp] theorem denote_nextIsWord (word : Keyword) :
    (nextIsWord word).denote g = Parse.nextIsWord word := by
  simp only [nextIsWord, Parse.nextIsWord, denote_bind, denote_peek, denote_pure]

@[simp] theorem denote_nextIsName (name : String) :
    (nextIsName name).denote g = Parse.nextIsName name := by
  simp only [nextIsName, Parse.nextIsName, denote_bind, denote_peek, denote_pure]

@[simp] theorem denote_nextIsIdentifier :
    nextIsIdentifier.denote g = Parse.nextIsIdentifier := by
  simp only [nextIsIdentifier, Parse.nextIsIdentifier, denote_bind, denote_peek, denote_pure]

@[simp] theorem denote_accept (symbol : Punctuator) :
    (accept symbol).denote g = Parse.accept symbol := by
  simp only [accept, Parse.accept, denote_bind, denote_nextIs, denote_ite, denote_skip, denote_pure]

@[simp] theorem denote_acceptWord (word : Keyword) :
    (acceptWord word).denote g = Parse.acceptWord word := by
  simp only [acceptWord, Parse.acceptWord, denote_bind, denote_nextIsWord, denote_ite, denote_skip,
    denote_pure]

@[simp] theorem denote_expect (symbol : Punctuator) :
    (expect symbol).denote g = Parse.expect symbol := by
  simp only [expect, Parse.expect, denote_bind, denote_accept, denote_ite, denote_unexpected,
    denote_pure]

@[simp] theorem denote_expectWord (word : Keyword) :
    (expectWord word).denote g = Parse.expectWord word := by
  simp only [expectWord, Parse.expectWord, denote_bind, denote_acceptWord, denote_ite,
    denote_unexpected, denote_pure]

@[simp] theorem denote_atStatementEnd : atStatementEnd.denote g = Parse.atStatementEnd := by
  simp only [atStatementEnd, Parse.atStatementEnd, denote_bind, denote_newlineBefore, denote_ite,
    denote_peek, denote_pure]

@[simp] theorem denote_endStatement : endStatement.denote g = Parse.endStatement := by
  simp only [endStatement, Parse.endStatement, denote_bind, denote_accept, denote_ite,
    denote_atStatementEnd, denote_unexpected, denote_pure]

/-! ## Regions -/

def allowingIn (body : Script α) : Script α := within .brackets body

def withoutIn (body : Script α) : Script α := within .loopHead body

@[simp] theorem denote_allowingIn (body : Script α) :
    (allowingIn body).denote g = Parse.allowingIn (body.denote g) := rfl

@[simp] theorem denote_withoutIn (body : Script α) :
    (withoutIn body).denote g = Parse.withoutIn (body.denote g) := rfl

end EcmaScript.Script
