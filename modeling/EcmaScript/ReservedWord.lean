import EcmaScript.Options
import EcmaScript.Token.Keyword

/-!
Words that may not be used as identifiers.

Keywords that are not contextual are refused everywhere, `enum` too; strict code reserves nine
more words and a module reserves `await`.
-/

namespace EcmaScript

/-- Why a word is refused as an identifier. -/
inductive WordRejection where
  | keyword (word : String)
  | awaitInModule
  | reserved (word : String)
deriving DecidableEq

namespace WordRejection

def message : WordRejection → String
  | .keyword word => "Unexpected keyword '" ++ word ++ "'"
  | .awaitInModule => "Cannot use keyword 'await' outside an async function"
  | .reserved word => "The keyword '" ++ word ++ "' is reserved"

end WordRejection

def strictReservedWords : List String :=
  ["implements", "interface", "let", "package", "private", "protected", "public", "static",
   "yield"]

def isAlwaysKeyword (word : String) : Bool :=
  (Keyword.ofWord? word).any (!·.isContextual)

/-- Why `word` is no identifier in code of the given strictness and goal, if it is none. -/
def rejectWord? (word : String) (strict : Bool) (goal : Goal) : Option WordRejection :=
  if isAlwaysKeyword word then some (.keyword word)
  else if word == "await" && goal == .module then some .awaitInModule
  else if word == "enum" || (strict && strictReservedWords.contains word) then
    some (.reserved word)
  else none

end EcmaScript
