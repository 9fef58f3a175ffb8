import EcmaScript.Scan.Escape
import EcmaScript.Token

/-!
String literals and the pieces of template literals.

Both are read to their decoded text. A string must close on its line, unless the line break is
escaped; a template ends at its closing mark or at the `${` of a substitution.
-/

namespace EcmaScript.Scan

/-- Reads a string whose opening quote has been read. -/
def stringLiteral (quote : Char) (start : Position) : Scan Token := do
  let value ← loop (fun read => do
    match ← peek with
    | none => fail .unterminatedString start
    | some c =>
      if c == quote then
        skip 1
        return .stop read.reverse
      else if c == '\\' then
        skip 1
        match ← peek with
        | none => fail .unterminatedString start
        | some escaped => return .again ((← textEscape escaped false start).reverse ++ read)
      else if c == '\n' || c == '\r' then
        fail .unterminatedString start
      else
        skip 1
        return .again (c :: read)) []
  return .string (String.ofList value)

inductive TemplateEnd where
  /-- The closing mark of the template. -/
  | close
  /-- A substitution. -/
  | substitution
deriving DecidableEq

/-- Reads the characters of a template up to its end or the next substitution. -/
def templateCharacters (start : Position) : Scan (List Char × TemplateEnd) :=
  loop (fun read => do
    match ← peek, ← peekSecond with
    | none, _ => fail .unterminatedTemplate start
    | some '\x60', _ =>
      skip 1
      return .stop (read.reverse, .close)
    | some '$', some '\x7b' =>
      skip 2
      return .stop (read.reverse, .substitution)
    | some '\\', _ =>
      skip 1
      match ← peek with
      | none => fail .unterminatedTemplate start
      | some escaped => return .again ((← textEscape escaped true start).reverse ++ read)
    | some c, _ =>
      skip 1
      return .again (c :: read)) []

/-- Reads a template from behind its opening mark. -/
def templateStart (start : Position) : Scan Token := do
  match ← templateCharacters start with
  | (cooked, .close) => return .templateLiteral (String.ofList cooked)
  | (cooked, .substitution) => return .templateHead (String.ofList cooked)

/-- Reads a template from behind the brace that closes a substitution. -/
def templateContinuation (start : Position) : Scan Token := do
  match ← templateCharacters start with
  | (cooked, .close) => return .templateTail (String.ofList cooked)
  | (cooked, .substitution) => return .templateMiddle (String.ofList cooked)

end EcmaScript.Scan
