import EcmaScript.Scan.Token

/-!
The lexer: a cursor with one token of lookahead.

The lookahead is filled when it is first asked for and emptied when the token is consumed. A scan
that fails leaves the lookahead empty, the cursor where the scan stopped, and the span of the last
token as it was. Re-scanning, as a regular expression or as the continuation of a template, drops
the lookahead and replaces the last consumed token.
-/

namespace EcmaScript

/-- A scanned token, with its span and whether a line terminator precedes it. -/
structure Lookahead where
  token : Token
  span : Span
  newlineBefore : Bool
deriving DecidableEq

/-- The part of a lexer's state that scanning changes. -/
structure LexerState where
  cursor : Cursor
  lookahead : Option Lookahead
  /-- Span of the last consumed token. -/
  lastSpan : Span
deriving DecidableEq

/-- A lexer over a source. -/
structure Lexer extends LexerState where
  source : List Char
  rules : List TokenRule

namespace Lexer

/-- The cursor behind a leading `#!` line. -/
def initialCursor (source : List Char) : Cursor :=
  match Scan.skipHashbang (.ofSource source) with
  | .ok _ cursor => cursor
  | .error _ cursor => cursor

/-- A lexer at the start of the source, behind a leading `#!` line. -/
def ofSource (source : String) (rules : List TokenRule) : Lexer where
  cursor := initialCursor source.toList
  lookahead := none
  lastSpan := .empty .start
  source := source.toList
  rules := rules

end Lexer

/-- A computation that uses a lexer and may fail. -/
abbrev Lexing := EStateM Failure Lexer

namespace Lexing

/-- Runs a scan at the lexer's cursor, which stays where the scan ends even if it fails. -/
def scan {α : Type} (action : Scan α) : Lexing α := fun lexer =>
  match action lexer.cursor with
  | .ok a cursor => .ok a { lexer with cursor }
  | .error e cursor => .error e { lexer with cursor }

/-- Scans the next token behind the trivia in front of it. -/
def scanToken : Lexing Lookahead := do
  let rules := (← get).rules
  scan do
    let before ← Scan.here
    Scan.skipTrivia
    let start ← Scan.here
    let token ← Scan.token rules
    return { token, span := ⟨start, ← Scan.here⟩, newlineBefore := before.line < start.line }

/-- Takes the lookahead out of the lexer, scanning a token if there is none. -/
def takeLookahead : Lexing Lookahead := do
  match (← get).lookahead with
  | some lookahead =>
    modify fun lexer => { lexer with lookahead := none }
    return lookahead
  | none => scanToken

/-- The next token, which stays in the lexer. -/
def lookahead : Lexing Lookahead := do
  let lookahead ← takeLookahead
  modify fun lexer => { lexer with lookahead := some lookahead }
  return lookahead

/-- Consumes the next token. -/
def next : Lexing Token := do
  let lookahead ← takeLookahead
  modify fun lexer => { lexer with lastSpan := lookahead.span }
  return lookahead.token

def peek : Lexing Token := do return (← lookahead).token

/-- Span of the next token. -/
def peekSpan : Lexing Span := do return (← lookahead).span

/-- Start of the next token. -/
def peekStart : Lexing Position := do return (← lookahead).span.start

/-- Whether a line terminator stands in front of the next token. -/
def newlineBefore : Lexing Bool := do return (← lookahead).newlineBefore

/-- Span of the last consumed token. -/
def lastSpan : Lexing Span := do return (← get).lastSpan

def lastEnd : Lexing Position := do return (← get).lastSpan.stop

def snapshot : Lexing LexerState := do return (← get).toLexerState

/-- Returns to a state taken before. -/
def restore (state : LexerState) : Lexing Unit :=
  modify fun lexer => { lexer with toLexerState := state }

/-- Replaces the last token by what `action` reads; the span still starts where the token did. -/
def rescan (action : Position → Scan Token) : Lexing Token := do
  let start := (← get).lastSpan.start
  modify fun lexer => { lexer with lookahead := none }
  let token ← scan (action start)
  modify fun lexer => { lexer with lastSpan := ⟨start, lexer.cursor.position⟩ }
  return token

def cursorBehind (source : List Char) (start : Position) : Cursor :=
  ⟨source.drop (start.offset + 1), ⟨start.line, start.column + 1, start.offset + 1⟩⟩

/-- Reads the last token, a slash or a slash with an equals sign, as a regular expression. -/
def rescanRegExp : Lexing Token := do
  let source := (← get).source
  rescan fun start => do
    set (cursorBehind source start)
    Scan.regExp start

/-- Reads on in a template behind the brace that closes a substitution. -/
def readTemplateContinuation : Lexing Token :=
  rescan Scan.templateContinuation

/-- The token after the next one, and whether a line terminator precedes it. The lexer is left as
it was, unless one of the two tokens cannot be scanned. -/
def peekSecond : Lexing (Token × Bool) := do
  let state ← snapshot
  let _ ← next
  let second ← lookahead
  restore state
  return (second.token, second.newlineBefore)

end Lexing

end EcmaScript
