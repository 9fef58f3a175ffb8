/-!
Binary64 values of numeric literals.

A value is kept as its 64-bit pattern. Literals denote exact rationals, and `ofRatio` rounds a
rational once to the nearest value, a tie to the even significand. With the quotient written as
`m * 2 ^ (e - 1074)`, where `e` is zero or `m` has 53 bits, the pattern is `e * 2 ^ 52 + m`: for a
subnormal value `m` alone, for a normal one the leading bit of `m` is the last step of the
exponent, and an `m` that rounds up to `2 ^ 53` carries into the exponent by itself.
-/

namespace EcmaScript

/-- A binary64 value, as its bit pattern. -/
structure Binary64 where
  /-- Sign, exponent and fraction. -/
  bits : UInt64
deriving DecidableEq

namespace Binary64

/-- Pattern of the positive infinity. -/
def infinityBits : Nat := 0x7FF0000000000000

def infinity : Binary64 := ⟨infinityBits.toUInt64⟩

/-- Whether the value is the positive infinity. -/
def isInfinite (x : Binary64) : Bool := x == infinity

/-- The quotient rounded to the nearest integer, a tie to the even one. -/
def roundDiv (num den : Nat) : Nat :=
  let q := num / den
  let r := num % den
  if 2 * r < den then q
  else if den < 2 * r then q + 1
  else q + q % 2

/-- Exponent step `e` at which the significand of `num / den` is taken: zero for a subnormal
quotient, and otherwise the step that leaves 53 bits before the point. -/
def exponentStep (num den : Nat) : Nat :=
  let scaled := num * Nat.pow 2 1074 / den
  scaled.log2 - 52

/-- The binary64 value nearest to `num / den`, infinite from the midpoint above the largest one. -/
def ofRatio (num den : Nat) : Binary64 :=
  let e := exponentStep num den
  let m := roundDiv (num * Nat.pow 2 1074) (den * Nat.pow 2 e)
  ⟨(min (e * Nat.pow 2 52 + m) infinityBits).toUInt64⟩

/-- The value nearest to a natural number. -/
def ofNat (n : Nat) : Binary64 := ofRatio n 1

/-- The value nearest to `digits * 10 ^ exponent`. The two ends of the range are decided by the
number of digits alone, so that the size of the arithmetic does not grow with the exponent. -/
def ofDecimal (digits : Nat) (exponent : Int) : Binary64 :=
  if digits = 0 then ⟨0⟩
  else
    let magnitude := exponent + (Nat.toDigits 10 digits).length
    if 400 < magnitude then infinity
    else if magnitude < -400 then ⟨0⟩
    else if 0 ≤ exponent then ofRatio (digits * Nat.pow 10 exponent.toNat) 1
    else ofRatio digits (Nat.pow 10 (-exponent).toNat)

end Binary64

end EcmaScript
