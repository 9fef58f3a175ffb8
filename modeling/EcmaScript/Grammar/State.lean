import EcmaScript.Hooks
import EcmaScript.Lexer
import EcmaScript.Tree.Target

/-!
State of a parse, and the steps that every grammar rule is made of.

The context says what surrounds the code being read: strictness, loops, functions, and whether `in`
is an operator. Rules change it through `Parse.within`, which puts the outer context back whether
the inner rule succeeds or fails. A depth other than zero means to be inside. To take one from a
depth of zero breaks the run off, and then nothing is put back.

The rules refer to each other through the fields of `Grammar`, so that each rule is a definition
of its own; tying them together is the work of the last grammar module.
-/

namespace EcmaScript

/-- What surrounds the code being read. -/
structure Context where
  strict : Bool
  loopDepth : Nat := 0
  switchDepth : Nat := 0
  functionDepth : Nat := 0
  /-- Directly in a generator, where `yield` is an operator. -/
  inGenerator : Bool := false
  /-- Directly in an async function, where `await` is an operator. -/
  inAsync : Bool := false
  /-- In a method, field initializer or static block, where `super` is allowed. -/
  inMethod : Bool := false
  /-- In the head of a loop, where `in` is not an operator. -/
  inForInit : Bool := false
deriving DecidableEq

namespace Context

/-- One less than the depth, unless the depth is zero. -/
def lessOne : Nat → Option Nat
  | 0 => none
  | depth + 1 => some depth

def allowsReturn (context : Context) : Bool := context.functionDepth != 0

def allowsBreak (context : Context) : Bool := context.loopDepth != 0 || context.switchDepth != 0

def allowsContinue (context : Context) : Bool := context.loopDepth != 0

def allowsSuper (context : Context) : Bool := context.functionDepth != 0 || context.inMethod

end Context

/-- State of a parse whose hooks keep a state `σ`. -/
structure ParserState (σ : Type) where
  lexer : Lexer
  context : Context
  hooks : σ

/-- A grammar rule: reads a part of the source, or fails in the state it has reached. -/
abbrev Parse (σ α : Type) := EStateM Failure (ParserState σ) α

/-- The surroundings of a grammar rule: options, hooks, a bound on the rounds of a loop, and the
rules that recur. -/
structure Grammar (σ : Type) where
  options : Options
  hooks : Hooks σ
  bound : Nat
  statement : Parse σ Statement
  assignment : Parse σ Expression
  /-- Operands joined by operators of at least the given precedence. -/
  binary : Nat → Parse σ Expression
  unary : Parse σ Expression
  leftHandSide : Parse σ Expression
  newExpression : Parse σ Expression
  bindingTarget : Parse σ Pattern

namespace Parse

variable {σ α : Type}

/-- Runs a step of the lexer. -/
def lexing (action : Lexing α) : Parse σ α := fun s =>
  match action s.lexer with
  | .ok a lexer => .ok a { s with lexer }
  | .error e lexer => .error e { s with lexer }

def hook (action : Hook σ α) : Parse σ α := fun s =>
  match action s.hooks with
  | .ok a hooks => .ok a { s with hooks }
  | .error d hooks => .error (.error d) { s with hooks }

/-- Runs a hook that cannot fail. -/
def update (f : σ → α × σ) : Parse σ α := fun s =>
  let (a, hooks) := f s.hooks
  .ok a { s with hooks }

def fail (cause : Cause) (position : Position) : Parse σ α :=
  throw (.error (.located cause position))

/-- Fails if the check does. -/
def ensure : Except Diagnostic α → Parse σ α
  | .ok a => pure a
  | .error d => throw (.error d)

def context : Parse σ Context := do return (← get).context

def setContext (f : Context → Context) : Parse σ Unit :=
  modify fun s => { s with context := f s.context }

/-- Changes the context, if it can be left. -/
def leaving (leave : Context → Option Context) : Parse σ Unit := fun s =>
  match leave s.context with
  | some context => .ok () { s with context }
  | none => .error .overrun s

/-- Runs the rule and then `close`, also if the source is wrong. The first error of the source
counts, and behind a run that is broken off nothing more happens. -/
def closing (close : Parse σ Unit) (rule : Parse σ α) : Parse σ α := fun s =>
  match rule s with
  | .ok a s =>
    match close s with
    | .ok _ s => .ok a s
    | .error e s => .error e s
  | .error (.error d) s =>
    match close s with
    | .ok _ s | .error (.error _) s => .error (.error d) s
    | .error e s => .error e s
  | .error e s => .error e s

/-- Runs the rule in the context that `enter` makes; `leave` makes the context behind it from the
one in front of it and the one that the rule ends in. -/
def within (enter : Context → Context) (leave : Context → Context → Option Context)
    (rule : Parse σ α) : Parse σ α := do
  let before ← context
  setContext enter
  closing (leaving (leave before)) rule

/-- Runs the rule with `in` as an operator. -/
def allowingIn (rule : Parse σ α) : Parse σ α :=
  within ({ · with inForInit := false })
    (fun before now => some { now with inForInit := before.inForInit }) rule

/-- Runs the rule with `in` not as an operator. -/
def withoutIn (rule : Parse σ α) : Parse σ α :=
  within ({ · with inForInit := true })
    (fun before now => some { now with inForInit := before.inForInit }) rule

def peek : Parse σ Token := lexing Lexing.peek

/-- Consumes the next token. -/
def next : Parse σ Token := lexing Lexing.next

/-- Consumes the next token and drops it. -/
def skip : Parse σ Unit := do
  let _ ← next

/-- The token after the next one, and whether a line terminator precedes it. -/
def peekSecond : Parse σ (Token × Bool) := lexing Lexing.peekSecond

/-- Start of the next token. -/
def startPosition : Parse σ Position := lexing Lexing.peekStart

/-- Whether a line terminator precedes the next token. -/
def newlineBefore : Parse σ Bool := lexing Lexing.newlineBefore

def lastEnd : Parse σ Position := lexing Lexing.lastEnd

def spanFrom (start : Position) : Parse σ Span := do return ⟨start, ← lastEnd⟩

def unexpectedAt (position : Position) : Parse σ α := fail .unexpectedToken position

/-- Fails at the next token, which is unexpected. -/
def unexpected : Parse σ α := do unexpectedAt (← startPosition)

def nextIs (symbol : Punctuator) : Parse σ Bool := do return (← peek) == .punctuator symbol

def nextIsWord (word : Keyword) : Parse σ Bool := do return (← peek) == .keyword word

/-- Whether the next token is the name, written without escapes. -/
def nextIsName (name : String) : Parse σ Bool := do return (← peek) == .identifier name false

def nextIsIdentifier : Parse σ Bool := do return (← peek).isIdentifierLike

/-- Consumes the next token if it is the punctuator, and says whether it did. -/
def accept (symbol : Punctuator) : Parse σ Bool := do
  if ← nextIs symbol then
    skip
    return true
  return false

/-- Consumes the next token if it is the keyword, and says whether it did. -/
def acceptWord (word : Keyword) : Parse σ Bool := do
  if ← nextIsWord word then
    skip
    return true
  return false

/-- Consumes the punctuator, which must be next. -/
def expect (symbol : Punctuator) : Parse σ Unit := do
  unless ← accept symbol do unexpected

/-- Consumes the keyword, which must be next. -/
def expectWord (word : Keyword) : Parse σ Unit := do
  unless ← acceptWord word do unexpected

/-- Whether a statement may end in front of the next token. -/
def atStatementEnd : Parse σ Bool := do
  if ← newlineBefore then return true
  let token ← peek
  return token == .endOfInput || token == .punctuator .semicolon || token == .punctuator .rBrace

def endStatement : Parse σ Unit := do
  if ← accept .semicolon then return
  unless ← atStatementEnd do unexpected

end Parse

namespace Grammar

variable {σ : Type}

/-- Repeats a round that consumes a token whenever it goes on. -/
def loop {α β : Type} (g : Grammar σ) (round : α → Parse σ (Round α β)) (a : α) : Parse σ β :=
  repeatRounds round g.bound a

def nameRules (g : Grammar σ) : Parse σ NameRules := do
  return ⟨(← Parse.context).strict, g.options.goal⟩

end Grammar

end EcmaScript
