import EcmaScript.Scan.Cursor

/-!
Escapes in identifiers, strings and templates.

A Unicode escape is `\uHHHH` or `\u{H...}` with any number of digits. Its value is a code point up
to 10FFFF. In an identifier it must be a scalar value; in a string or template two escapes that
form a surrogate pair are one character, and a surrogate that is left alone is read as U+FFFD.
-/

namespace EcmaScript.Scan

/-- Reads exactly `n` hexadecimal digits; `bad` is what a character that is none leads to. -/
def hexDigits (bad : Scan Unit) : Nat → Scan (List Char)
  | 0 => pure []
  | n + 1 => do
    unless ← nextIs isHexDigit do bad
    let c ← advance
    let rest ← hexDigits bad n
    return c :: rest

/-- Reads a Unicode escape, of which the backslash may have been read before, to its value. -/
def unicodeEscape : Scan Nat := do
  let start ← here
  let _ ← accept '\\'
  unless ← accept 'u' do fail .badEscape start
  let digits ←
    if ← accept '\x7b' then do
      let digits ← takeWhile isHexDigit
      if digits.isEmpty then fail .badEscape start
      unless ← accept '\x7d' do fail .badEscape start
      pure digits
    else
      hexDigits (fail .badEscape start) 4
  let code := digitsValue 16 digits
  if 0x10FFFF < code then fail .codePointOutOfBounds start
  return code

/-- Reads a Unicode escape that must denote a character, as in an identifier. -/
def scalarEscape : Scan Char := do
  let start ← here
  match scalar? (← unicodeEscape) with
  | some c => return c
  | none => fail .badEscape start

/-- Whether the code point is the first half of a surrogate pair. -/
def isHighSurrogate (n : Nat) : Bool := 0xD800 ≤ n && n ≤ 0xDBFF

/-- Whether the code point is the second half of a surrogate pair. -/
def isLowSurrogate (n : Nat) : Bool := 0xDC00 ≤ n && n ≤ 0xDFFF

/-- The code point that a surrogate pair denotes. -/
def joinSurrogates (high low : Nat) : Nat := 0x10000 + (high - 0xD800) * 0x400 + (low - 0xDC00)

/-- Reads a Unicode escape of a string or template, joining a surrogate pair. -/
def textUnicodeEscape : Scan Char := do
  let code ← unicodeEscape
  match scalar? code with
  | some c => return c
  | none =>
    if isHighSurrogate code && (← peek) == some '\\' && (← peekSecond) == some 'u' then
      let second ← get
      let low ← unicodeEscape
      if isLowSurrogate low then
        return (scalar? (joinSurrogates code low)).getD '\uFFFD'
      set second
    return '\uFFFD'

/-- What a single character behind a backslash stands for. -/
def simpleEscape? : Char → Option Char
  | 'n' => some '\n'
  | 't' => some '\t'
  | 'r' => some '\r'
  | 'b' => some '\x08'
  | 'f' => some '\x0C'
  | 'v' => some '\x0B'
  | _ => none

/-- Reads an escape of a string or template behind its backslash, in front of `c`, to the
characters that it denotes. Errors on octal escapes are reported at `start`. -/
def textEscape (c : Char) (inTemplate : Bool) (start : Position) : Scan (List Char) := do
  if c == 'u' then
    revisit
    return [← textUnicodeEscape]
  skip 1
  if let some denoted := simpleEscape? c then
    return [denoted]
  if c == '0' && !(← nextIs isDecimalDigit) then
    return ['\x00']
  if isDecimalDigit c && inTemplate then
    fail .octalInTemplate start
  if c == 'x' then
    let digits ← hexDigits (do fail .badEscape (← here)) 2
    return (scalar? (digitsValue 16 digits)).toList
  if c == '\r' then
    let _ ← accept '\n'
    return []
  if isLineTerminator c then
    return []
  return [c]

end EcmaScript.Scan
