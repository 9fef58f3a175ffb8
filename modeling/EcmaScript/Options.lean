/-!
Options of a parse: the edition of the language, the policy on reserved words, and the goal.

The edition may be given as its number or, from 2015 on, as its year. Private class elements need
edition 8.
-/

namespace EcmaScript

/-- Whether reserved words are tolerated as names. -/
inductive AllowReserved where
  | yes
  | no
  /-- Private names, too, must not be reserved words. -/
  | never
deriving DecidableEq

/-- What the source is: a script, or a module, which is strict throughout. -/
inductive Goal where
  | script
  | module
deriving DecidableEq

/-- Options of a parse. -/
structure Options where
  /-- Edition number or year. -/
  ecmaVersion : Nat := 2018
  allowReserved : AllowReserved := .yes
  goal : Goal := .script
deriving DecidableEq

namespace Options

/-- Edition number; from 2015 on versions are years. -/
def edition (options : Options) : Nat :=
  if 2015 ≤ options.ecmaVersion then options.ecmaVersion - 2009 else options.ecmaVersion

/-- Whether the edition has private class elements. -/
def supportsPrivateNames (options : Options) : Bool :=
  8 ≤ options.edition

end Options

end EcmaScript
