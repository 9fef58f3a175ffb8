import EcmaScript.Scan.Cursor

/-!
What stands between tokens: white space, line terminators and comments.

A line comment ends in front of its line terminator, a block comment behind its closing mark. The
first line of a source is skipped as a whole if it begins with `#!`.
-/

namespace EcmaScript.Scan

/-- Skips up to the next line terminator, which is left. -/
def skipLine : Scan Unit := do
  let _ ← takeWhile (!isLineTerminator ·)

def skipBlockComment : Scan Unit := do
  let start ← here
  skip 2
  loop (fun _ => do
    match ← peek, ← peekSecond with
    | none, _ => fail .unterminatedComment start
    | some '*', some '/' =>
      skip 2
      return .stop ()
    | some _, _ =>
      skip 1
      return .again ()) ()

/-- Skips everything in front of the next token. -/
def skipTrivia : Scan Unit :=
  loop (fun _ => do
    match ← peek, ← peekSecond with
    | some '/', some '/' =>
      skipLine
      return .again ()
    | some '/', some '*' =>
      skipBlockComment
      return .again ()
    | some c, _ =>
      if isBlank c || isLineTerminator c then
        skip 1
        return .again ()
      else
        return .stop ()
    | none, _ => return .stop ()) ()

/-- Skips a first line that begins with `#!`, up to its line terminator. -/
def skipHashbang : Scan Unit := do
  if (← peek) == some '#' && (← peekSecond) == some '!' then skipLine

end EcmaScript.Scan
