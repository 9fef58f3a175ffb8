import EcmaScript.Json
import EcmaScript.Options

/-!
Options read from JSON.

A record may leave out any option, which then has its default, and may hold other fields, which
are ignored. A list gives the options by position and may end early. A variant is its name, or a
record with that name alone and the value null.
-/

namespace EcmaScript

namespace AllowReserved

/-- Name of the policy. -/
def name : AllowReserved → String
  | .yes => "yes"
  | .no => "no"
  | .never => "never"

/-- The policy with the given name. -/
def ofName? (name : String) : Option AllowReserved :=
  [yes, no, never].find? (·.name == name)

end AllowReserved

namespace Goal

/-- Name of the goal. -/
def name : Goal → String
  | .script => "script"
  | .module => "module"

def ofName? (name : String) : Option Goal :=
  [script, module].find? (·.name == name)

end Goal

namespace Json

/-- The value as a 32-bit natural number. -/
def word32? : Json → Option Nat
  | .int (.ofNat n) => if n < 0x100000000 then some n else none
  | _ => none

/-- The value as the name of a variant without data. -/
def variant? : Json → Option String
  | .string name => some name
  | .record [(name, .null)] => some name
  | _ => none

/-- Reads an optional value: what is missing has a default, what is there must be readable. -/
def readOr {α : Type} (read : Json → Option α) (default : α) : Option Json → Option α
  | none => some default
  | some value => read value

end Json

namespace Options

def ofParts? (version policy goal : Option Json) : Option Options := do
  let defaults : Options := {}
  return {
    ecmaVersion := ← Json.readOr Json.word32? defaults.ecmaVersion version
    allowReserved :=
      ← Json.readOr (·.variant?.bind AllowReserved.ofName?) defaults.allowReserved policy
    goal := ← Json.readOr (·.variant?.bind Goal.ofName?) defaults.goal goal }

def ofJson? : Json → Option Options
  | .record fields =>
    ofParts? (fields.lookup "ecma_version") (fields.lookup "allow_reserved")
      (fields.lookup "source_type")
  | .list items => if items.length ≤ 3 then ofParts? items[0]? items[1]? items[2]? else none
  | _ => none

def toJson (options : Options) : Json :=
  .record [("ecma_version", .nat options.ecmaVersion),
    ("allow_reserved", .string options.allowReserved.name),
    ("source_type", .string options.goal.name)]

end Options

end EcmaScript
