import EcmaScript.Text.Ranges
import EcmaScript.Text.Alphabetic
import EcmaScript.Text.Numeric

/-!
Character classes of the lexical grammar.

An identifier starts with a character that has the Unicode property Alphabetic, with `_` or with
`$`. It continues with those, with any character of a number category, and with the zero-width
joiner and non-joiner. Digits of numeric literals and of escapes are ASCII only.
-/

namespace EcmaScript

def isIdStart (c : Char) : Bool :=
  c == '_' || c == '$' || Text.inRanges Text.alphabetic c.toNat

/-- Whether an identifier may go on with `c`. -/
def isIdContinue (c : Char) : Bool :=
  c == '_' || c == '$' || Text.inRanges Text.alphabetic c.toNat ||
    Text.inRanges Text.numeric c.toNat || c == '\u200C' || c == '\u200D'

/-- White space between tokens that is not a line terminator. -/
def isBlank (c : Char) : Bool :=
  c == ' ' || c == '\t' || c == '\x0B' || c == '\x0C' || c == '\u00A0' || c == '\uFEFF' ||
    c == '\u1680' || (0x2000 ≤ c.toNat && c.toNat ≤ 0x200A) || c == '\u202F' ||
    c == '\u205F' || c == '\u3000'

/-- Value of `c` as a digit, of which the letters go on after nine in either case. -/
def digitValue? (c : Char) : Option Nat :=
  let n := c.toNat
  if 0x30 ≤ n && n ≤ 0x39 then some (n - 0x30)
  else if 0x41 ≤ n && n ≤ 0x5A then some (n - 0x41 + 10)
  else if 0x61 ≤ n && n ≤ 0x7A then some (n - 0x61 + 10)
  else none

def isDigitOf (radix : Nat) (c : Char) : Bool :=
  (digitValue? c).any (· < radix)

/-- Whether `c` is a decimal digit. -/
def isDecimalDigit (c : Char) : Bool := isDigitOf 10 c

def isHexDigit (c : Char) : Bool := isDigitOf 16 c

/-- The number that `digits` denote in the given radix; other characters count as zero. -/
def digitsValue (radix : Nat) (digits : List Char) : Nat :=
  digits.foldl (fun n c => n * radix + (digitValue? c).getD 0) 0

/-- The character with the given code point, unless that is a surrogate or too large. -/
def scalar? (n : Nat) : Option Char :=
  if h : n.isValidChar then some (Char.ofNatAux n h) else none

/-- Everything that starts an identifier may also continue one. -/
theorem isIdContinue_of_isIdStart {c : Char} (h : isIdStart c = true) : isIdContinue c = true := by
  simp only [isIdStart, Bool.or_eq_true] at h
  simp only [isIdContinue, Bool.or_eq_true]
  rcases h with (h | h) | h <;> simp [h]

end EcmaScript
