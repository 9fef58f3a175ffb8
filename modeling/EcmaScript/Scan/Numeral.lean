import EcmaScript.Scan.Cursor
import EcmaScript.Token

/-!
Numeric literals.

A numeral is an integer in radix 2, 8 or 16 behind `0b`, `0o` or `0x`, or a decimal with optional
fraction and exponent. Separators `_` may stand anywhere in the digits of the former and in front
of a digit in the latter. An integer without fraction and exponent may carry the suffix `n`. The
others denote binary64 values: decimals of any size, and radix integers below `2 ^ 64`.
-/

namespace EcmaScript

/-- A numeric literal without its suffix, separators removed. -/
inductive Numeral where
  | based (base : Nat) (digits : List Char)
  | decimal (whole : List Char) (fraction : Option (List Char)) (exponent : Option Int)

namespace Numeral

/-- The letter that introduces the digits of a radix. -/
def radixOf? : Char → Option Nat
  | 'x' | 'X' => some 16
  | 'o' | 'O' => some 8
  | 'b' | 'B' => some 2
  | _ => none

/-- Spelling of the radix in front of the digits of an integer. -/
def radixMark : Nat → String
  | 16 => "0x"
  | 8 => "0o"
  | 2 => "0b"
  | _ => ""

def integerText? : Numeral → Option String
  | .based base digits => some (radixMark base ++ String.ofList digits)
  | .decimal whole none none => some (String.ofList whole)
  | .decimal _ _ _ => none

/-- Value of the numeral, unless it is a radix integer of more than 64 bits. -/
def value? : Numeral → Option Binary64
  | .based base digits =>
    let n := digitsValue base digits
    if n < 0x10000000000000000 then some (.ofNat n) else none
  | .decimal whole fraction exponent =>
    let fraction := fraction.getD []
    some (.ofDecimal (digitsValue 10 (whole ++ fraction)) (exponent.getD 0 - fraction.length))

end Numeral

namespace Scan

/-- Reads decimal digits; a separator is skipped only in front of a digit. -/
def decimalDigits : Scan (List Char) :=
  loop (fun read => do
    match ← peek, ← peekSecond with
    | some c, next =>
      if isDecimalDigit c then
        skip 1
        return .again (c :: read)
      else if c == '_' && next.any isDecimalDigit then
        skip 1
        return .again read
      else
        return .stop read.reverse
    | none, _ => return .stop read.reverse) []

/-- Reads the exponent of a decimal, if there is one. -/
def exponent? (start : Position) : Scan (Option Int) := do
  unless ← nextIs (fun c => c == 'e' || c == 'E') do return none
  skip 1
  let negative ← nextIs (· == '-')
  if ← nextIs (fun c => c == '+' || c == '-') then skip 1
  unless ← nextIs isDecimalDigit do fail .invalidNumber start
  let magnitude : Int := digitsValue 10 (← decimalDigits)
  return some (if negative then -magnitude else magnitude)

/-- Reads the digits of an integer in the given radix behind its mark. -/
def radixNumeral (radix : Nat) (start : Position) : Scan Numeral := do
  let digits ← takeWhile (fun c => isDigitOf radix c || c == '_')
  let digits := digits.filter (· != '_')
  if digits.isEmpty then fail (.digitsExpected radix) start
  return .based radix digits

/-- Reads a numeral of which `first`, a digit or a point, has been read. -/
def numeral (first : Char) (start : Position) : Scan Numeral := do
  let next ← peek
  match (if first == '0' then next.bind Numeral.radixOf? else none) with
  | some radix =>
    skip 1
    radixNumeral radix start
  | none =>
    let leading ← decimalDigits
    if first == '.' then
      return .decimal [] (some leading) (← exponent? start)
    let fraction ← if ← accept '.' then some <$> decimalDigits else pure none
    return .decimal (first :: leading) fraction (← exponent? start)

/-- Reads a numeric literal of which `first` has been read. No identifier may follow directly. -/
def numericLiteral (first : Char) (start : Position) : Scan Token := do
  let literal ← numeral first start
  let token : Token ←
    if ← nextIs (· == 'n') then do
      match literal.integerText? with
      | none => fail .invalidBigInt start
      | some text =>
        skip 1
        pure (.bigInt text)
    else
      match literal.value? with
      | none => fail .invalidNumber start
      | some value => pure (.number value)
  if ← nextIs isIdStart then fail .identifierAfterNumber (← here)
  return token

end Scan

end EcmaScript
