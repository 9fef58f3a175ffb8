import EcmaScript.Binary64

/-!
JSON values: how trees are written and options are read.

Integers and floating-point numbers are kept apart, since an option that must be an integer may
not be written as a fraction. The fields of a record keep their order.
-/

namespace EcmaScript

inductive Json where
  | null
  | bool (value : Bool)
  | int (value : Int)
  | float (value : Binary64)
  | string (value : String)
  | list (items : List Json)
  | record (fields : List (String × Json))
deriving Inhabited

/-- A natural number as a JSON value. -/
def Json.nat (n : Nat) : Json := .int n

end EcmaScript
