/-!
Sets of code points as ascending lists of closed ranges.

A Unicode property holds of too many characters to list and of too few runs to need more than a
list. The search stops at the first range that begins after the code point, so that for the
ascending tables of this library the common characters are decided by the first entries.
-/

namespace EcmaScript.Text

/-- Whether `n` lies in one of the closed ranges, which ascend and do not overlap. -/
def inRanges : List (Nat × Nat) → Nat → Bool
  | [], _ => false
  | (low, high) :: rest, n => if n < low then false else n ≤ high || inRanges rest n

end EcmaScript.Text
