import EcmaScript.Binary64
import EcmaScript.Source
import EcmaScript.Tree.Operator

/-!
Program trees.

Every node holds the span of source it was read from, except the few that are always a part of one
other node. Parentheses leave no node of their own. A pattern is what a declaration, a parameter
or a destructuring assignment binds; a member expression is a pattern only in an assignment.
-/

namespace EcmaScript

/-- A name behind `#`, without the `#`, which its span includes. -/
structure PrivateName where
  name : String
  span : Span
deriving DecidableEq

/-- Values that are written out. -/
inductive Literal where
  | number (value : Binary64)
  /-- An integer of any size, as its text. -/
  | bigInt (text : String)
  | string (value : String)
  | boolean (value : Bool)
  | null
  | regExp (pattern flags : String)
deriving DecidableEq

/-- The text of a template between substitutions, and whether it is the last. -/
structure TemplateElement where
  cooked : String
  tail : Bool
deriving DecidableEq

mutual

/-- Expressions. -/
inductive Expression where
  | identifier (name : String) (span : Span)
  /-- Only as the property of a member access. -/
  | privateName (name : PrivateName)
  | literal (value : Literal) (span : Span)
  | binary (operator : BinaryOperator) (left right : Expression) (span : Span)
  | logical (operator : LogicalOperator) (left right : Expression) (span : Span)
  | unary (operator : UnaryOperator) (argument : Expression) (span : Span)
  | update (operator : UpdateOperator) (inFront : Bool) (argument : Expression) (span : Span)
  | assignment (operator : AssignmentOperator) (target : AssignmentTarget) (value : Expression)
      (span : Span)
  | conditional (test consequent alternate : Expression) (span : Span)
  | call (callee : Expression) (arguments : List Expression) (optional : Bool) (span : Span)
  /-- `object.property`, or `object[property]` if computed. -/
  | member (object property : Expression) (computed optional : Bool) (span : Span)
  | new (callee : Expression) (arguments : List Expression) (span : Span)
  /-- An array literal; `none` is a hole. -/
  | array (elements : List (Option Expression)) (span : Span)
  | object (properties : List ObjectProperty) (span : Span)
  | arrow (params : List Pattern) (body : ArrowBody) (isAsync : Bool) (span : Span)
  | function (name : Option String) (function : Function)
  | class_ (name : Option String) (definition : Class)
  | this (span : Span)
  | super (span : Span)
  | await (argument : Expression) (span : Span)
  | yield (argument : Option Expression) (delegate : Bool) (span : Span)
  | template (quasis : List TemplateElement) (expressions : List Expression) (span : Span)
  | taggedTemplate (tag quasi : Expression) (span : Span)
  | spread (argument : Expression) (span : Span)
  | sequence (expressions : List Expression) (span : Span)

inductive AssignmentTarget where
  | simple (target : Expression)
  | pattern (target : Pattern)

inductive ObjectProperty where
  | property (key : PropertyKey) (value : Expression) (kind : PropertyKind)
      (method shorthand computed : Bool) (span : Span)
  | spread (argument : Expression) (span : Span)

/-- Names of properties and class elements. -/
inductive PropertyKey where
  | identifier (name : String) (span : Span)
  /-- Only in class bodies. -/
  | privateName (name : PrivateName)
  | string (value : String) (span : Span)
  | number (value : Binary64) (span : Span)
  /-- An expression in brackets, which the span includes. -/
  | computed (expression : Expression) (span : Span)

/-- Patterns of bindings and of destructuring assignments. -/
inductive Pattern where
  | identifier (name : String) (span : Span)
  | object (properties : List PatternProperty) (rest : Option Pattern) (span : Span)
  /-- An array pattern; `none` is a hole. -/
  | array (elements : List (Option Pattern)) (span : Span)
  | withDefault (target : Pattern) (default : Expression) (span : Span)
  | rest (argument : Pattern) (span : Span)
  /-- A member expression that is assigned to. -/
  | member (expression : Expression)

structure PatternProperty where
  key : PropertyKey
  value : Pattern
  shorthand : Bool

inductive ArrowBody where
  | expression (value : Expression)
  | block (body : List Statement)

/-- Parameters and body of a function that is not an arrow. -/
structure Function where
  params : List Pattern
  body : List Statement
  isAsync : Bool
  isGenerator : Bool
  span : Span

/-- A class without its name. -/
structure Class where
  superClass : Option Expression
  body : ClassBody
  span : Span

/-- The braces of a class and what is between them. -/
structure ClassBody where
  elements : List ClassElement
  span : Span

inductive ClassElement where
  /-- A method; its function begins at the parameter list. -/
  | method (key : PropertyKey) (kind : MethodKind) (function : Function)
      (isStatic computed : Bool) (span : Span)
  | field (key : PropertyKey) (value : Option Expression) (isStatic computed : Bool) (span : Span)
  | staticBlock (body : List Statement) (span : Span)

/-- One declared variable. -/
structure Declarator where
  id : Pattern
  init : Option Expression

/-- First part of the head of a three-part loop. -/
inductive ForInit where
  | variables (kind : VariableKind) (declarators : List Declarator)
  | expression (value : Expression)

/-- What a for-in or for-of loop assigns to. -/
inductive ForTarget where
  | variable (kind : VariableKind) (id : Pattern)
  | expression (target : Expression)
  | pattern (target : Pattern)

/-- The handler of a try statement. -/
structure CatchClause where
  param : Option Pattern
  body : List Statement

structure SwitchCase where
  test : Option Expression
  consequent : List Statement

inductive Statement where
  | variables (kind : VariableKind) (declarators : List Declarator) (span : Span)
  | function (name : String) (function : Function)
  | class_ (name : String) (definition : Class)
  | expression (value : Expression) (span : Span)
  | return_ (argument : Option Expression) (span : Span)
  | if_ (test : Expression) (consequent : Statement) (alternate : Option Statement) (span : Span)
  | while (test : Expression) (body : Statement) (span : Span)
  | doWhile (body : Statement) (test : Expression) (span : Span)
  | for_ (init : Option ForInit) (test update : Option Expression) (body : Statement) (span : Span)
  | forIn (target : ForTarget) (object : Expression) (body : Statement) (span : Span)
  | forOf (target : ForTarget) (iterable : Expression) (body : Statement) (span : Span)
  | block (body : List Statement) (span : Span)
  | empty (span : Span)
  | break_ (label : Option String) (span : Span)
  | continue_ (label : Option String) (span : Span)
  | throw (argument : Expression) (span : Span)
  | try_ (block : List Statement) (handler : Option CatchClause)
      (finalizer : Option (List Statement)) (span : Span)
  | switch (discriminant : Expression) (cases : List SwitchCase) (span : Span)
  | debugger (span : Span)
  | labeled (label : String) (body : Statement) (span : Span)

end

/-- A parsed script or module. -/
structure Program where
  body : List Statement
  span : Span

namespace Expression

/-- Source range of the expression. -/
def span : Expression → Span
  | .privateName name => name.span
  | .function _ f => f.span
  | .class_ _ c => c.span
  | .identifier _ span | .literal _ span | .binary _ _ _ span | .logical _ _ _ span
  | .unary _ _ span | .update _ _ _ span | .assignment _ _ _ span | .conditional _ _ _ span
  | .call _ _ _ span | .member _ _ _ _ span | .new _ _ span | .array _ span | .object _ span
  | .arrow _ _ _ span | .this span | .super span | .await _ span | .yield _ _ span
  | .template _ _ span | .taggedTemplate _ _ span | .spread _ span | .sequence _ span => span

/-- Start of the expression. -/
def start (e : Expression) : Position := e.span.start

def isPrivateMember : Expression → Bool
  | .member _ (.privateName _) _ _ _ => true
  | _ => false

/-- Whether the expression is an arrow function. -/
def isArrow : Expression → Bool
  | .arrow _ _ _ _ => true
  | _ => false

/-- Whether a chain of member accesses and calls holds an optional link. -/
def inOptionalChain : Expression → Bool
  | .member base _ _ optional _ => optional || inOptionalChain base
  | .call callee _ optional _ => optional || inOptionalChain callee
  | _ => false

end Expression

namespace Pattern

/-- Source range of the pattern. -/
def span : Pattern → Span
  | .identifier _ span | .object _ _ span | .array _ span | .withDefault _ _ span
  | .rest _ span => span
  | .member expression => expression.span

/-- Whether the pattern is a plain name. -/
def isIdentifier : Pattern → Bool
  | .identifier _ _ => true
  | _ => false

def isRest : Pattern → Bool
  | .rest _ _ => true
  | _ => false

end Pattern

namespace PropertyKey

/-- Source range of the key. -/
def span : PropertyKey → Span
  | .privateName name => name.span
  | .identifier _ span | .string _ span | .number _ span | .computed _ span => span

/-- Start of the key. -/
def start (key : PropertyKey) : Position := key.span.start

/-- The name that is known without evaluation and not private. -/
def staticName? : PropertyKey → Option String
  | .identifier name _ => some name
  | .string value _ => some value
  | _ => none

def isPrivate : PropertyKey → Bool
  | .privateName _ => true
  | _ => false

end PropertyKey

namespace Statement

/-- Source range of the statement. -/
def span : Statement → Span
  | .function _ f => f.span
  | .class_ _ c => c.span
  | .variables _ _ span | .expression _ span | .return_ _ span | .if_ _ _ _ span
  | .while _ _ span | .doWhile _ _ span | .for_ _ _ _ _ span | .forIn _ _ _ span
  | .forOf _ _ _ span | .block _ span | .empty span | .break_ _ span | .continue_ _ span
  | .throw _ span | .try_ _ _ _ span | .switch _ _ span | .debugger span
  | .labeled _ _ span => span

end Statement

end EcmaScript
