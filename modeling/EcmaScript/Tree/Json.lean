import EcmaScript.Json
import EcmaScript.Tree.Basic

/-!
Program trees written as JSON.

A node is a record of its parts, in which what is absent is null. Where a place admits several
kinds of node, the record says in `type` which one it is; a place that admits only a few shapes
wraps the part in a record with the name of the shape instead.
-/

namespace EcmaScript

def Position.toJson (p : Position) : Json :=
  .record [("line", .nat p.line), ("column", .nat p.column), ("offset", .nat p.offset)]

/-- The span as a record of its ends. -/
def Span.toJson (s : Span) : Json :=
  .record [("start", s.start.toJson), ("end", s.stop.toJson)]

namespace Json

def node (type : String) (parts : List (String × Json)) (span : Span) : Json :=
  .record (("type", .string type) :: parts ++ [("span", span.toJson)])

def shape (name : String) (value : Json) : Json := .record [(name, value)]

def optionalString : Option String → Json
  | none => .null
  | some s => .string s

end Json

/-- The name as a node of its own. -/
def PrivateName.toJson (name : PrivateName) : Json :=
  .node "PrivateName" [("name", .string name.name)] name.span

/-- The literal in the shape of its kind. -/
def Literal.toJson : Literal → Json
  | .number value => .shape "Number" (.float value)
  | .bigInt text => .shape "BigInt" (.string text)
  | .string value => .shape "String" (.string value)
  | .boolean value => .shape "Boolean" (.bool value)
  | .null => .string "Null"
  | .regExp pattern flags =>
    .shape "RegExp" (.record [("pattern", .string pattern), ("flags", .string flags)])

/-- The piece of a template as a record. -/
def TemplateElement.toJson (element : TemplateElement) : Json :=
  .record [("cooked", .string element.cooked), ("tail", .bool element.tail)]

mutual

def Expression.toJson : Expression → Json
  | .identifier name span => .node "Identifier" [("name", .string name)] span
  | .privateName name => name.toJson
  | .literal value span => .node "Literal" [("value", value.toJson)] span
  | .binary operator left right span =>
    .node "BinaryExpression" [("left", left.toJson), ("operator", .string operator.name),
      ("right", right.toJson)] span
  | .logical operator left right span =>
    .node "LogicalExpression" [("left", left.toJson), ("operator", .string operator.name),
      ("right", right.toJson)] span
  | .unary operator argument span =>
    .node "UnaryExpression" [("operator", .string operator.name),
      ("argument", argument.toJson)] span
  | .update operator inFront argument span =>
    .node "UpdateExpression" [("operator", .string operator.name), ("argument", argument.toJson),
      ("prefix", .bool inFront)] span
  | .assignment operator target value span =>
    .node "AssignmentExpression" [("left", target.toJson), ("operator", .string operator.name),
      ("right", value.toJson)] span
  | .conditional test consequent alternate span =>
    .node "ConditionalExpression" [("test", test.toJson), ("consequent", consequent.toJson),
      ("alternate", alternate.toJson)] span
  | .call callee arguments optional span =>
    .node "CallExpression" [("callee", callee.toJson),
      ("arguments", .list (expressionsToJson arguments)), ("optional", .bool optional)] span
  | .member object property computed optional span =>
    .node "MemberExpression" [("object", object.toJson), ("property", property.toJson),
      ("computed", .bool computed), ("optional", .bool optional)] span
  | .new callee arguments span =>
    .node "NewExpression" [("callee", callee.toJson),
      ("arguments", .list (expressionsToJson arguments))] span
  | .array elements span =>
    .node "ArrayExpression" [("elements", .list (elementsToJson elements))] span
  | .object properties span =>
    .node "ObjectExpression" [("properties", .list (propertiesToJson properties))] span
  | .arrow params body isAsync span =>
    .node "ArrowFunctionExpression" [("params", .list (patternsToJson params)),
      ("body", body.toJson), ("is_async", .bool isAsync)] span
  | .function name function => function.toJson "FunctionExpression" (.optionalString name)
  | .class_ name definition => definition.toJson "ClassExpression" (.optionalString name)
  | .this span => .node "ThisExpression" [] span
  | .super span => .node "Super" [] span
  | .await argument span => .node "AwaitExpression" [("argument", argument.toJson)] span
  | .yield argument delegate span =>
    .node "YieldExpression" [("argument", optionalToJson argument),
      ("delegate", .bool delegate)] span
  | .template quasis expressions span =>
    .node "TemplateLiteral" [("quasis", .list (quasis.map (·.toJson))),
      ("expressions", .list (expressionsToJson expressions))] span
  | .taggedTemplate tag quasi span =>
    .node "TaggedTemplateExpression" [("tag", tag.toJson), ("quasi", quasi.toJson)] span
  | .spread argument span => .node "SpreadElement" [("argument", argument.toJson)] span
  | .sequence expressions span =>
    .node "SequenceExpression" [("expressions", .list (expressionsToJson expressions))] span

def expressionsToJson : List Expression → List Json
  | [] => []
  | e :: rest => e.toJson :: expressionsToJson rest

def optionalToJson : Option Expression → Json
  | none => .null
  | some e => e.toJson

/-- The elements of an array in order, holes included. -/
def elementsToJson : List (Option Expression) → List Json
  | [] => []
  | none :: rest => .null :: elementsToJson rest
  | some e :: rest => e.toJson :: elementsToJson rest

def AssignmentTarget.toJson : AssignmentTarget → Json
  | .simple target => .shape "Simple" target.toJson
  | .pattern target => .shape "Pattern" target.toJson

def ObjectProperty.toJson : ObjectProperty → Json
  | .property key value kind method shorthand computed span =>
    .node "Property" [("key", key.toJson), ("value", value.toJson), ("kind", .string kind.name),
      ("method", .bool method), ("shorthand", .bool shorthand), ("computed", .bool computed)] span
  | .spread argument span => .node "SpreadElement" [("argument", argument.toJson)] span

def propertiesToJson : List ObjectProperty → List Json
  | [] => []
  | p :: rest => p.toJson :: propertiesToJson rest

def PropertyKey.toJson : PropertyKey → Json
  | .identifier name span => .node "Identifier" [("name", .string name)] span
  | .privateName name => name.toJson
  | .string value span => .node "StringLiteral" [("value", .string value)] span
  | .number value span => .node "NumericLiteral" [("value", .float value)] span
  | .computed expression span => .node "Computed" [("expression", expression.toJson)] span

def Pattern.toJson : Pattern → Json
  | .identifier name span => .node "Identifier" [("name", .string name)] span
  | .object properties rest span =>
    .node "ObjectPattern" [("properties", .list (patternPropertiesToJson properties)),
      ("rest", optionalPatternToJson rest)] span
  | .array elements span =>
    .node "ArrayPattern" [("elements", .list (patternElementsToJson elements))] span
  | .withDefault target default span =>
    .node "AssignmentPattern" [("left", target.toJson), ("right", default.toJson)] span
  | .rest argument span => .node "RestElement" [("argument", argument.toJson)] span
  | .member expression =>
    .record [("type", .string "MemberExpression"), ("expression", expression.toJson)]

def patternsToJson : List Pattern → List Json
  | [] => []
  | p :: rest => p.toJson :: patternsToJson rest

def optionalPatternToJson : Option Pattern → Json
  | none => .null
  | some p => p.toJson

/-- The elements of an array pattern in order, holes included. -/
def patternElementsToJson : List (Option Pattern) → List Json
  | [] => []
  | none :: rest => .null :: patternElementsToJson rest
  | some p :: rest => p.toJson :: patternElementsToJson rest

def PatternProperty.toJson : PatternProperty → Json
  | ⟨key, value, shorthand⟩ =>
    .record [("key", key.toJson), ("value", value.toJson), ("shorthand", .bool shorthand)]

def patternPropertiesToJson : List PatternProperty → List Json
  | [] => []
  | p :: rest => p.toJson :: patternPropertiesToJson rest

def ArrowBody.toJson : ArrowBody → Json
  | .expression value => .shape "Expression" value.toJson
  | .block body => .shape "Block" (.list (statementsToJson body))

/-- The function as a node of the given kind with the given name. -/
def Function.toJson : Function → String → Json → Json
  | ⟨params, body, isAsync, isGenerator, span⟩, type, name =>
    .node type [("name", name), ("params", .list (patternsToJson params)),
      ("body", .list (statementsToJson body)), ("is_async", .bool isAsync),
      ("is_generator", .bool isGenerator)] span

/-- The class as a node of the given kind with the given name. -/
def Class.toJson : Class → String → Json → Json
  | ⟨superClass, body, span⟩, type, name =>
    .node type [("name", name), ("super_class", optionalToJson superClass),
      ("body", body.toJson)] span

def ClassBody.toJson : ClassBody → Json
  | ⟨elements, span⟩ =>
    .record [("body", .list (classElementsToJson elements)), ("span", span.toJson)]

def ClassElement.toJson : ClassElement → Json
  | .method key kind function isStatic computed span =>
    .node "MethodDefinition" [("key", key.toJson), ("kind", .string kind.name),
      ("value", function.toJson "FunctionExpression" .null), ("is_static", .bool isStatic),
      ("computed", .bool computed)] span
  | .field key value isStatic computed span =>
    .node "PropertyDefinition" [("key", key.toJson), ("value", optionalToJson value),
      ("is_static", .bool isStatic), ("computed", .bool computed)] span
  | .staticBlock body span => .node "StaticBlock" [("body", .list (statementsToJson body))] span

def classElementsToJson : List ClassElement → List Json
  | [] => []
  | e :: rest => e.toJson :: classElementsToJson rest

def Declarator.toJson : Declarator → Json
  | ⟨id, init⟩ => .record [("id", id.toJson), ("init", optionalToJson init)]

def declaratorsToJson : List Declarator → List Json
  | [] => []
  | d :: rest => d.toJson :: declaratorsToJson rest

/-- The first part of a loop head in its shape. -/
def ForInit.toJson : ForInit → Json
  | .variables kind declarators =>
    .shape "VariableDeclaration" (.record [("kind", .string kind.name),
      ("declarations", .list (declaratorsToJson declarators))])
  | .expression value => .shape "Expression" value.toJson

/-- The first part of a loop head, which may be absent. -/
def optionalInitToJson : Option ForInit → Json
  | none => .null
  | some init => init.toJson

/-- The loop target in its shape. -/
def ForTarget.toJson : ForTarget → Json
  | .variable kind id =>
    .shape "VariableDeclaration" (.record [("kind", .string kind.name), ("id", id.toJson)])
  | .expression target => .shape "Expression" target.toJson
  | .pattern target => .shape "Pattern" target.toJson

/-- The handler as a record. -/
def CatchClause.toJson : CatchClause → Json
  | ⟨param, body⟩ =>
    .record [("param", optionalPatternToJson param), ("body", .list (statementsToJson body))]

def optionalHandlerToJson : Option CatchClause → Json
  | none => .null
  | some handler => handler.toJson

def SwitchCase.toJson : SwitchCase → Json
  | ⟨test, consequent⟩ =>
    .record [("test", optionalToJson test), ("consequent", .list (statementsToJson consequent))]

def casesToJson : List SwitchCase → List Json
  | [] => []
  | c :: rest => c.toJson :: casesToJson rest

def Statement.toJson : Statement → Json
  | .variables kind declarators span =>
    .node "VariableDeclaration" [("kind", .string kind.name),
      ("declarations", .list (declaratorsToJson declarators))] span
  | .function name function => function.toJson "FunctionDeclaration" (.string name)
  | .class_ name definition => definition.toJson "ClassDeclaration" (.string name)
  | .expression value span => .node "ExpressionStatement" [("expression", value.toJson)] span
  | .return_ argument span =>
    .node "ReturnStatement" [("argument", optionalToJson argument)] span
  | .if_ test consequent alternate span =>
    .node "IfStatement" [("test", test.toJson), ("consequent", consequent.toJson),
      ("alternate", optionalStatementToJson alternate)] span
  | .while test body span =>
    .node "WhileStatement" [("test", test.toJson), ("body", body.toJson)] span
  | .doWhile body test span =>
    .node "DoWhileStatement" [("body", body.toJson), ("test", test.toJson)] span
  | .for_ init test update body span =>
    .node "ForStatement" [("init", optionalInitToJson init), ("test", optionalToJson test),
      ("update", optionalToJson update), ("body", body.toJson)] span
  | .forIn target object body span =>
    .node "ForInStatement" [("left", target.toJson), ("right", object.toJson),
      ("body", body.toJson)] span
  | .forOf target iterable body span =>
    .node "ForOfStatement" [("left", target.toJson), ("right", iterable.toJson),
      ("body", body.toJson)] span
  | .block body span => .node "BlockStatement" [("body", .list (statementsToJson body))] span
  | .empty span => .node "EmptyStatement" [] span
  | .break_ label span => .node "BreakStatement" [("label", .optionalString label)] span
  | .continue_ label span => .node "ContinueStatement" [("label", .optionalString label)] span
  | .throw argument span => .node "ThrowStatement" [("argument", argument.toJson)] span
  | .try_ block handler finalizer span =>
    .node "TryStatement" [("block", .list (statementsToJson block)),
      ("handler", optionalHandlerToJson handler),
      ("finalizer", optionalStatementsToJson finalizer)] span
  | .switch discriminant cases span =>
    .node "SwitchStatement" [("discriminant", discriminant.toJson),
      ("cases", .list (casesToJson cases))] span
  | .debugger span => .node "DebuggerStatement" [] span
  | .labeled label body span =>
    .node "LabeledStatement" [("label", .string label), ("body", body.toJson)] span

def statementsToJson : List Statement → List Json
  | [] => []
  | s :: rest => s.toJson :: statementsToJson rest

def optionalStatementToJson : Option Statement → Json
  | none => .null
  | some s => s.toJson

def optionalStatementsToJson : Option (List Statement) → Json
  | none => .null
  | some body => .list (statementsToJson body)

end

def Program.toJson (p : Program) : Json :=
  .record [("body", .list (statementsToJson p.body)), ("span", p.span.toJson)]

end EcmaScript
