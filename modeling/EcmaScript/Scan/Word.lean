import EcmaScript.Scan.Escape
import EcmaScript.Token

/-!
Identifier words.

A word is read with its escapes decoded; its first character must be able to start an identifier
and the others to continue one, escaped or not. A word without escapes that is spelled like a
keyword is that keyword.
-/

namespace EcmaScript.Scan

def fitsWord (read : List Char) (c : Char) : Bool :=
  if read.isEmpty then isIdStart c else isIdContinue c

/-- Reads the word at the cursor, which is empty if no identifier starts there. -/
def word : Scan (List Char) :=
  loop (fun read => do
    match ← peek, ← peekSecond with
    | some '\\', some 'u' =>
      let start ← here
      skip 1
      let c ← scalarEscape
      unless fitsWord read c do fail .escapeNotInIdentifier start
      return .again (c :: read)
    | some c, _ =>
      if fitsWord read c then
        skip 1
        return .again (c :: read)
      else
        return .stop read.reverse
    | none, _ => return .stop read.reverse) []

/-- Whether the run of identifier characters and backslashes at the start of `text` holds a
backslash. -/
def hasEscape (text : List Char) : Bool :=
  (text.takeWhile fun c => c == '\\' || isIdContinue c).contains '\\'

/-- Reads an identifier or keyword; `first` is the character at the cursor. -/
def identifier (first : Char) (start : Position) : Scan Token := do
  let escaped := hasEscape (← ahead)
  let text ← word
  if text.isEmpty then fail (.unexpectedCharacter first) start
  let name := String.ofList text
  if escaped then
    return .identifier name true
  match Keyword.ofWord? name with
  | some keyword => return .keyword keyword
  | none => return .identifier name false

end EcmaScript.Scan
