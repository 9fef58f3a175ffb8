import EcmaScript.Diagnostic
import EcmaScript.Tree.Basic

/-!
Expressions read as targets and patterns.

An expression that turns out to stand in front of `=`, `=>`, `in` or `of` is re-read as a target.
Names are checked by the rules of the code they stand in. An assignment may also have a member
expression as a part of a pattern, a binding may not.
-/

namespace EcmaScript

/-- What decides which names are allowed: strictness and goal. -/
structure NameRules where
  strict : Bool
  goal : Goal
deriving DecidableEq

namespace NameRules

/-- Names that strict code may neither bind nor assign. -/
def isRestricted (name : String) : Bool := name == "eval" || name == "arguments"

/-- Refuses a word that is no identifier. -/
def checkWord (rules : NameRules) (name : String) (position : Position) : Except Diagnostic Unit :=
  match rejectWord? name rules.strict rules.goal with
  | some rejection => .error (.located (.word rejection) position)
  | none => .ok ()

/-- Refuses a name that may not be bound. -/
def checkBinding (rules : NameRules) (name : String) (position : Position) :
    Except Diagnostic Unit := do
  rules.checkWord name position
  if rules.strict && isRestricted name then
    throw (.located (.strictBinding name) position)

/-- Refuses an expression that is no simple assignment target: a name, or a member access that is
not in an optional chain. -/
def checkSimpleTarget (rules : NameRules) : Expression → Except Diagnostic Unit
  | .identifier name span =>
    if rules.strict && isRestricted name then
      .error (.located (.strictAssignment name) span.start)
    else
      .ok ()
  | e@(.member _ _ _ _ span) =>
    if e.inOptionalChain then
      .error (.located (.optionalChain .assignmentTarget) span.start)
    else
      .ok ()
  | e => .error (.located .invalidTarget e.start)

end NameRules

mutual

/-- Refuses a pattern that holds a member expression, at the first one. -/
def Pattern.checkBindable : Pattern → Except Diagnostic Unit
  | .identifier _ _ => .ok ()
  | .member expression => .error (.located .invalidTarget expression.start)
  | .object properties rest _ => do
    propertiesBindable properties
    optionalBindable rest
  | .array elements _ => elementsBindable elements
  | .withDefault target _ _ => target.checkBindable
  | .rest argument _ => argument.checkBindable

/-- The check for the values of the properties, in order. -/
def propertiesBindable : List PatternProperty → Except Diagnostic Unit
  | [] => .ok ()
  | ⟨_, value, _⟩ :: others => do
    value.checkBindable
    propertiesBindable others

/-- The check for a pattern that may be absent. -/
def optionalBindable : Option Pattern → Except Diagnostic Unit
  | none => .ok ()
  | some pattern => pattern.checkBindable

/-- The check for the elements, in order; holes pass. -/
def elementsBindable : List (Option Pattern) → Except Diagnostic Unit
  | [] => .ok ()
  | none :: others => elementsBindable others
  | some pattern :: others => do
    pattern.checkBindable
    elementsBindable others

end

/-- Which kind of pattern an expression is read as. -/
inductive PatternUse where
  /-- Parameters: every leaf is a name. -/
  | binding
  /-- A destructuring assignment: member expressions are leaves, too. -/
  | assignment
deriving DecidableEq

mutual

/-- The expression read as a pattern. -/
def Expression.toPattern (rules : NameRules) (use : PatternUse) :
    Expression → Except Diagnostic Pattern
  | .identifier name span => do
    rules.checkBinding name span.start
    return .identifier name span
  | .member object property computed optional span =>
    let e := Expression.member object property computed optional span
    match use with
    | .assignment => do
      rules.checkSimpleTarget e
      return .member e
    | .binding => .error (.located .invalidTarget span.start)
  | .assignment .assign target value span => do
    let target ← target.toPattern rules use
    return .withDefault target value span
  | .array elements span => do
    return .array (← elementsToPatterns rules use elements) span
  | .object properties span => do
    let (properties, rest) ← propertiesToPatterns rules use properties
    return .object properties rest span
  | e => .error (.located .invalidTarget e.start)

/-- The target of a default value read as a pattern. -/
def AssignmentTarget.toPattern (rules : NameRules) (use : PatternUse) :
    AssignmentTarget → Except Diagnostic Pattern
  | .simple target => target.toPattern rules use
  | .pattern target => do
    if use == .binding then target.checkBindable
    return target

/-- The elements of an array read as patterns; a spread is a rest element only at the end. -/
def elementsToPatterns (rules : NameRules) (use : PatternUse) :
    List (Option Expression) → Except Diagnostic (List (Option Pattern))
  | [] => return []
  | none :: others => do
    return none :: (← elementsToPatterns rules use others)
  | [some (.spread argument span)] => do
    return [some (.rest (← argument.toPattern rules use) span)]
  | some e :: others => do
    let pattern ← e.toPattern rules use
    return some pattern :: (← elementsToPatterns rules use others)

/-- The properties of an object read as those of a pattern; a spread is the rest only at the
end, and methods and accessors are refused. -/
def propertiesToPatterns (rules : NameRules) (use : PatternUse) :
    List ObjectProperty → Except Diagnostic (List PatternProperty × Option Pattern)
  | [] => return ([], none)
  | [.spread argument span] => do
    return ([], some (.rest (← argument.toPattern rules use) span))
  | .property key value .init false shorthand _ _ :: others => do
    let value ← value.toPattern rules use
    let (properties, rest) ← propertiesToPatterns rules use others
    return (⟨key, value, shorthand⟩ :: properties, rest)
  | .property _ _ _ _ _ _ span :: _ => .error (.located .invalidTarget span.start)
  | .spread _ span :: _ => .error (.located .invalidTarget span.start)

end

/-- Arguments of a call read as parameters; a spread is a rest element only at the end. -/
def argumentsToParams (rules : NameRules) : List Expression → Except Diagnostic (List Pattern)
  | [] => return []
  | [.spread argument span] => do
    return [.rest (← argument.toPattern rules .binding) span]
  | e :: others => do
    let pattern ← e.toPattern rules .binding
    return pattern :: (← argumentsToParams rules others)

def Expression.toTarget (rules : NameRules) (operator : AssignmentOperator) (e : Expression) :
    Except Diagnostic AssignmentTarget :=
  match e with
  | .identifier _ _ | .member _ _ _ _ _ => do
    rules.checkSimpleTarget e
    return .simple e
  | .array _ _ | .object _ _ =>
    if operator == .assign then do
      return .pattern (← e.toPattern rules .assignment)
    else
      .error (.located .invalidTarget e.start)
  | _ => .error (.located .invalidTarget e.start)

/-- An expression read as what a for-in or for-of loop assigns to. -/
def Expression.toForTarget (rules : NameRules) (e : Expression) : Except Diagnostic ForTarget :=
  match e with
  | .array _ _ | .object _ _ => do
    return .pattern (← e.toPattern rules .assignment)
  | _ => do
    rules.checkSimpleTarget e
    return .expression e

end EcmaScript
