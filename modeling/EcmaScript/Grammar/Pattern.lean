import EcmaScript.Grammar.Name

/-!
Patterns of declarations, parameters and handlers.
-/

namespace EcmaScript.Grammar

open Parse

variable {σ : Type}

/-- A binding target with an optional default value. -/
def bindingElement (g : Grammar σ) : Parse σ Pattern := do
  let start ← startPosition
  let target ← g.bindingTarget
  if ← accept .assign then
    let default ← allowingIn g.assignment
    return .withDefault target default (← spanFrom start)
  return target

/-- `...` and a binding target, which has no default value. -/
def restElement (g : Grammar σ) : Parse σ Pattern := do
  let start ← startPosition
  expect .spread
  let argument ← g.bindingTarget
  return .rest argument (← spanFrom start)

def arrayPatternRound (g : Grammar σ) (elements : List (Option Pattern)) :
    Parse σ (Round (List (Option Pattern)) (List (Option Pattern))) := do
  if ← accept .rBracket then
    return .stop elements
  if ← accept .comma then
    return .again (none :: elements)
  if ← nextIs .spread then
    let rest ← g.restElement
    expect .rBracket
    return .stop (some rest :: elements)
  let element ← g.bindingElement
  if ← accept .comma then
    return .again (some element :: elements)
  expect .rBracket
  return .stop (some element :: elements)

def arrayPattern (g : Grammar σ) : Parse σ Pattern := do
  let start ← startPosition
  expect .lBracket
  let elements ← g.loop g.arrayPatternRound []
  return .array elements.reverse (← spanFrom start)

/-- A property of an object pattern, of which a name alone binds that name. -/
def patternProperty (g : Grammar σ) : Parse σ PatternProperty := do
  let (key, _) ← g.propertyKey
  if ← accept .colon then
    return ⟨key, ← g.bindingElement, false⟩
  match key with
  | .identifier name span =>
    ensure ((← g.nameRules).checkBinding name span.start)
    if ← accept .assign then
      let default ← allowingIn g.assignment
      return ⟨key, .withDefault (.identifier name span) default (← spanFrom span.start), true⟩
    return ⟨key, .identifier name span, true⟩
  | _ => unexpected

def objectPatternRound (g : Grammar σ) (properties : List PatternProperty) :
    Parse σ (Round (List PatternProperty) (List PatternProperty × Option Pattern)) := do
  if ← accept .rBrace then
    return .stop (properties, none)
  if ← nextIs .spread then
    let rest ← g.restElement
    expect .rBrace
    return .stop (properties, some rest)
  let property ← g.patternProperty
  if ← accept .comma then
    return .again (property :: properties)
  expect .rBrace
  return .stop (property :: properties, none)

def objectPattern (g : Grammar σ) : Parse σ Pattern := do
  let start ← startPosition
  expect .lBrace
  let (properties, rest) ← g.loop g.objectPatternRound []
  return .object properties.reverse rest (← spanFrom start)

def bindingTargetRule (g : Grammar σ) : Parse σ Pattern := do
  match ← peek with
  | .punctuator .lBracket => g.arrayPattern
  | .punctuator .lBrace => g.objectPattern
  | _ =>
    let (name, span) ← g.bindingIdentifier
    return .identifier name span

end EcmaScript.Grammar
