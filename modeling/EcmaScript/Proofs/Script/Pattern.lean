import EcmaScript.Proofs.Script.Step

/-!
Scripts of the rules for names, property keys and patterns.
-/

namespace EcmaScript.Script

variable {σ : Type} (g : Grammar σ)

/-! ## Names and keys -/

def identifierReference : Script (String × Span) := do
  let start ← startPosition
  let name ←
    match ← next with
    | .identifier name _ => pure name
    | .keyword word =>
      if Grammar.isNameIn (← context) word then pure word.spelling else unexpectedAt start
    | _ => unexpectedAt start
  ensure ((← nameRules).checkWord name start)
  return (name, ← spanFrom start)

def bindingIdentifier : Script (String × Span) := do
  let (name, span) ← identifierReference
  ensure ((← nameRules).checkBinding name span.start)
  return (name, span)

def privateName : Script PrivateName := do
  let start ← startPosition
  match ← next with
  | .privateName name =>
    if name.isEmpty then unexpected
    return ⟨name, ← spanFrom start⟩
  | _ => unexpectedAt start

def nextIsPrivateName : Script Bool := do
  match ← peek with
  | .privateName _ => return true
  | _ => return false

def propertyKey : Script (PropertyKey × Bool) := do
  let start ← startPosition
  match ← next with
  | .identifier name _ => return (.identifier name (← spanFrom start), false)
  | .keyword word => return (.identifier word.spelling (← spanFrom start), false)
  | .string value => return (.string value (← spanFrom start), false)
  | .bigInt text => return (.string text (← spanFrom start), false)
  | .number value => return (.number value (← spanFrom start), false)
  | .punctuator .lBracket =>
    let expression ← allowingIn assignment
    expect .rBracket
    return (.computed expression (← spanFrom start), true)
  | _ => unexpectedAt start

@[simp] theorem denote_identifierReference :
    identifierReference.denote g = g.identifierReference := by
  simp only [identifierReference, Grammar.identifierReference, denote_bind, denote_startPosition]
  refine bind_congr fun start => ?_
  simp only [denote_next]
  refine bind_congr fun token => ?_
  cases token <;> simp

@[simp] theorem denote_bindingIdentifier : bindingIdentifier.denote g = g.bindingIdentifier := by
  simp [bindingIdentifier, Grammar.bindingIdentifier]

@[simp] theorem denote_privateName : privateName.denote g = Grammar.privateName := by
  simp only [privateName, Grammar.privateName, denote_bind, denote_startPosition, denote_next]
  refine bind_congr fun start => bind_congr fun token => ?_
  cases token <;> simp

@[simp] theorem denote_nextIsPrivateName :
    nextIsPrivateName.denote g = Grammar.nextIsPrivateName := by
  simp only [nextIsPrivateName, Grammar.nextIsPrivateName, denote_bind, denote_peek]
  refine bind_congr fun token => ?_
  cases token <;> simp

@[simp] theorem denote_propertyKey : propertyKey.denote g = g.propertyKey := by
  simp only [propertyKey, Grammar.propertyKey, denote_bind, denote_startPosition, denote_next]
  refine bind_congr fun start => bind_congr fun token => ?_
  cases token with
  | punctuator symbol => cases symbol <;> simp
  | _ => simp

/-! ## Patterns -/

def bindingElement : Script Pattern := do
  let start ← startPosition
  let target ← bindingTarget
  if ← accept .assign then
    let default ← allowingIn assignment
    return .withDefault target default (← spanFrom start)
  return target

def restElement : Script Pattern := do
  let start ← startPosition
  expect .spread
  let argument ← bindingTarget
  return .rest argument (← spanFrom start)

def arrayPatternRound (elements : List (Option Pattern)) :
    Script (Round (List (Option Pattern)) (List (Option Pattern))) := do
  if ← accept .rBracket then
    return .stop elements
  if ← accept .comma then
    return .again (none :: elements)
  if ← nextIs .spread then
    let rest ← restElement
    expect .rBracket
    return .stop (some rest :: elements)
  let element ← bindingElement
  if ← accept .comma then
    return .again (some element :: elements)
  expect .rBracket
  return .stop (some element :: elements)

def arrayPattern : Script Pattern := do
  let start ← startPosition
  expect .lBracket
  let elements ← loop arrayPatternRound []
  return .array elements.reverse (← spanFrom start)

def patternProperty : Script PatternProperty := do
  let (key, _) ← propertyKey
  if ← accept .colon then
    return ⟨key, ← bindingElement, false⟩
  match key with
  | .identifier name span =>
    ensure ((← nameRules).checkBinding name span.start)
    if ← accept .assign then
      let default ← allowingIn assignment
      return ⟨key, .withDefault (.identifier name span) default (← spanFrom span.start), true⟩
    return ⟨key, .identifier name span, true⟩
  | _ => unexpected

def objectPatternRound (properties : List PatternProperty) :
    Script (Round (List PatternProperty) (List PatternProperty × Option Pattern)) := do
  if ← accept .rBrace then
    return .stop (properties, none)
  if ← nextIs .spread then
    let rest ← restElement
    expect .rBrace
    return .stop (properties, some rest)
  let property ← patternProperty
  if ← accept .comma then
    return .again (property :: properties)
  expect .rBrace
  return .stop (property :: properties, none)

def objectPattern : Script Pattern := do
  let start ← startPosition
  expect .lBrace
  let (properties, rest) ← loop objectPatternRound []
  return .object properties.reverse rest (← spanFrom start)

def bindingTargetRule : Script Pattern := do
  match ← peek with
  | .punctuator .lBracket => arrayPattern
  | .punctuator .lBrace => objectPattern
  | _ =>
    let (name, span) ← bindingIdentifier
    return .identifier name span

@[simp] theorem denote_bindingElement : bindingElement.denote g = g.bindingElement := by
  simp [bindingElement, Grammar.bindingElement]

@[simp] theorem denote_restElement : restElement.denote g = g.restElement := by
  simp [restElement, Grammar.restElement]

@[simp] theorem denote_arrayPatternRound (elements : List (Option Pattern)) :
    (arrayPatternRound elements).denote g = g.arrayPatternRound elements := by
  simp [arrayPatternRound, Grammar.arrayPatternRound]

@[simp] theorem denote_arrayPattern : arrayPattern.denote g = g.arrayPattern := by
  simp [arrayPattern, Grammar.arrayPattern]

@[simp] theorem denote_patternProperty : patternProperty.denote g = g.patternProperty := by
  simp only [patternProperty, Grammar.patternProperty, denote_bind, denote_propertyKey]
  refine bind_congr fun read => ?_
  obtain ⟨key, computed⟩ := read
  cases key <;> simp

@[simp] theorem denote_objectPatternRound (properties : List PatternProperty) :
    (objectPatternRound properties).denote g = g.objectPatternRound properties := by
  simp [objectPatternRound, Grammar.objectPatternRound]

@[simp] theorem denote_objectPattern : objectPattern.denote g = g.objectPattern := by
  simp [objectPattern, Grammar.objectPattern]

@[simp] theorem denote_bindingTargetRule : bindingTargetRule.denote g = g.bindingTargetRule := by
  simp only [bindingTargetRule, Grammar.bindingTargetRule, denote_bind, denote_peek]
  refine bind_congr fun token => ?_
  cases token with
  | punctuator symbol => cases symbol <;> simp
  | _ => simp

end EcmaScript.Script
