import EcmaScript.Scan.Cursor
import EcmaScript.Token

/-!
Regular expression literals behind their opening slash.

The pattern ends at the first slash that is neither behind a backslash nor in a bracketed class,
and must end on its line. The flags are the longest run of identifier characters that follows.
-/

namespace EcmaScript.Scan

/-- What has been read of a pattern, last character first, and whether a class is open. -/
structure PatternRead where
  read : List Char := []
  inClass : Bool := false

/-- Reads a pattern and its closing slash. -/
def pattern (start : Position) : Scan (List Char) :=
  loop (fun (state : PatternRead) => do
    unless ← nextIs (!isLineTerminator ·) do fail .unterminatedRegExp start
    let c ← advance
    if c == '\\' then
      if ← nextIs (!isLineTerminator ·) then
        return .again { state with read := (← advance) :: c :: state.read }
      else
        return .again { state with read := c :: state.read }
    else if c == '/' && !state.inClass then
      return .stop state.read.reverse
    else
      let inClass := if c == '[' then true else if c == ']' then false else state.inClass
      return .again ⟨c :: state.read, inClass⟩) {}

/-- Reads a regular expression behind its opening slash. -/
def regExp (start : Position) : Scan Token := do
  let text ← pattern start
  let flags ← takeWhile isIdContinue
  return .regExp (String.ofList text) (String.ofList flags)

end EcmaScript.Scan
