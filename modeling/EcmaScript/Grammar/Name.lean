import EcmaScript.Grammar.State

/-!
Identifiers, private names and property keys.
-/

namespace EcmaScript.Grammar

open Parse

variable {σ : Type}

/-- Whether the keyword is read as a name here: `yield` and `await` are not where they are
operators. -/
def isNameIn (context : Context) (word : Keyword) : Bool :=
  word.isContextual && !(word == .yield && context.inGenerator) &&
    !(word == .await && context.inAsync)

def identifierReference (g : Grammar σ) : Parse σ (String × Span) := do
  let start ← startPosition
  let name ←
    match ← next with
    | .identifier name _ => pure name
    | .keyword word => if isNameIn (← context) word then pure word.spelling else unexpectedAt start
    | _ => unexpectedAt start
  ensure ((← g.nameRules).checkWord name start)
  return (name, ← spanFrom start)

def bindingIdentifier (g : Grammar σ) : Parse σ (String × Span) := do
  let (name, span) ← g.identifierReference
  ensure ((← g.nameRules).checkBinding name span.start)
  return (name, span)

/-- A private name; an empty one is reported at the token behind the `#`. -/
def privateName : Parse σ PrivateName := do
  let start ← startPosition
  match ← next with
  | .privateName name =>
    if name.isEmpty then unexpected
    return ⟨name, ← spanFrom start⟩
  | _ => unexpectedAt start

def nextIsPrivateName : Parse σ Bool := do
  match ← peek with
  | .privateName _ => return true
  | _ => return false

/-- A property key that is not private, and whether it is computed. -/
def propertyKey (g : Grammar σ) : Parse σ (PropertyKey × Bool) := do
  let start ← startPosition
  match ← next with
  | .identifier name _ => return (.identifier name (← spanFrom start), false)
  | .keyword word => return (.identifier word.spelling (← spanFrom start), false)
  | .string value => return (.string value (← spanFrom start), false)
  | .bigInt text => return (.string text (← spanFrom start), false)
  | .number value => return (.number value (← spanFrom start), false)
  | .punctuator .lBracket =>
    let expression ← allowingIn g.assignment
    expect .rBracket
    return (.computed expression (← spanFrom start), true)
  | _ => unexpectedAt start

end EcmaScript.Grammar
