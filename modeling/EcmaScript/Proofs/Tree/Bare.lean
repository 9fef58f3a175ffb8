import EcmaScript.Tree.Basic

/-!
Trees without positions.

Two trees are the same up to spans if they are equal once every position in them has been replaced
by the start of the source. `bare` does so for all types that hold positions, and leaves everything
else alone. The functions unfold by themselves, so that a tree that is built from parts is bare as
soon as they are.
-/

namespace EcmaScript

/-- Types whose values may hold positions. -/
class Bare (α : Type) where
  /-- The value, with every position in it replaced by the start of the source. -/
  bare : α → α

export Bare (bare)

/-- Types whose values hold no positions. -/
class Exact (α : Type) [Bare α] : Prop where
  bare_eq : ∀ a : α, bare a = a

@[reducible] def PrivateName.bare : PrivateName → PrivateName
  | ⟨name, _⟩ => ⟨name, .empty .start⟩

mutual

@[reducible] def Expression.bare : Expression → Expression
  | .identifier name _ => .identifier name (.empty .start)
  | .privateName name => .privateName name.bare
  | .literal value _ => .literal value (.empty .start)
  | .binary operator left right _ => .binary operator left.bare right.bare (.empty .start)
  | .logical operator left right _ => .logical operator left.bare right.bare (.empty .start)
  | .unary operator argument _ => .unary operator argument.bare (.empty .start)
  | .update operator inFront argument _ => .update operator inFront argument.bare (.empty .start)
  | .assignment operator target value _ =>
    .assignment operator target.bare value.bare (.empty .start)
  | .conditional test consequent alternate _ =>
    .conditional test.bare consequent.bare alternate.bare (.empty .start)
  | .call callee arguments optional _ =>
    .call callee.bare (bareExpressions arguments) optional (.empty .start)
  | .member object property computed optional _ =>
    .member object.bare property.bare computed optional (.empty .start)
  | .new callee arguments _ => .new callee.bare (bareExpressions arguments) (.empty .start)
  | .array elements _ => .array (bareElements elements) (.empty .start)
  | .object properties _ => .object (bareProperties properties) (.empty .start)
  | .arrow params body isAsync _ => .arrow (barePatterns params) body.bare isAsync (.empty .start)
  | .function name function => .function name function.bare
  | .class_ name definition => .class_ name definition.bare
  | .this _ => .this (.empty .start)
  | .super _ => .super (.empty .start)
  | .await argument _ => .await argument.bare (.empty .start)
  | .yield argument delegate _ => .yield (bareOptional argument) delegate (.empty .start)
  | .template quasis expressions _ =>
    .template quasis (bareExpressions expressions) (.empty .start)
  | .taggedTemplate tag quasi _ => .taggedTemplate tag.bare quasi.bare (.empty .start)
  | .spread argument _ => .spread argument.bare (.empty .start)
  | .sequence expressions _ => .sequence (bareExpressions expressions) (.empty .start)

@[reducible] def bareExpressions : List Expression → List Expression
  | [] => []
  | e :: rest => e.bare :: bareExpressions rest

@[reducible] def bareOptional : Option Expression → Option Expression
  | none => none
  | some e => some e.bare

@[reducible] def bareElements : List (Option Expression) → List (Option Expression)
  | [] => []
  | none :: rest => none :: bareElements rest
  | some e :: rest => some e.bare :: bareElements rest

@[reducible] def AssignmentTarget.bare : AssignmentTarget → AssignmentTarget
  | .simple target => .simple target.bare
  | .pattern target => .pattern target.bare

@[reducible] def ObjectProperty.bare : ObjectProperty → ObjectProperty
  | .property key value kind method shorthand computed _ =>
    .property key.bare value.bare kind method shorthand computed (.empty .start)
  | .spread argument _ => .spread argument.bare (.empty .start)

@[reducible] def bareProperties : List ObjectProperty → List ObjectProperty
  | [] => []
  | p :: rest => p.bare :: bareProperties rest

@[reducible] def PropertyKey.bare : PropertyKey → PropertyKey
  | .identifier name _ => .identifier name (.empty .start)
  | .privateName name => .privateName name.bare
  | .string value _ => .string value (.empty .start)
  | .number value _ => .number value (.empty .start)
  | .computed expression _ => .computed expression.bare (.empty .start)

@[reducible] def Pattern.bare : Pattern → Pattern
  | .identifier name _ => .identifier name (.empty .start)
  | .object properties rest _ =>
    .object (barePatternProperties properties) (bareOptionalPattern rest) (.empty .start)
  | .array elements _ => .array (barePatternElements elements) (.empty .start)
  | .withDefault target default _ => .withDefault target.bare default.bare (.empty .start)
  | .rest argument _ => .rest argument.bare (.empty .start)
  | .member expression => .member expression.bare

@[reducible] def barePatterns : List Pattern → List Pattern
  | [] => []
  | p :: rest => p.bare :: barePatterns rest

@[reducible] def bareOptionalPattern : Option Pattern → Option Pattern
  | none => none
  | some p => some p.bare

@[reducible] def barePatternElements : List (Option Pattern) → List (Option Pattern)
  | [] => []
  | none :: rest => none :: barePatternElements rest
  | some p :: rest => some p.bare :: barePatternElements rest

@[reducible] def PatternProperty.bare : PatternProperty → PatternProperty
  | ⟨key, value, shorthand⟩ => ⟨key.bare, value.bare, shorthand⟩

@[reducible] def barePatternProperties : List PatternProperty → List PatternProperty
  | [] => []
  | p :: rest => p.bare :: barePatternProperties rest

@[reducible] def ArrowBody.bare : ArrowBody → ArrowBody
  | .expression value => .expression value.bare
  | .block body => .block (bareStatements body)

@[reducible] def Function.bare : Function → Function
  | ⟨params, body, isAsync, isGenerator, _⟩ =>
    ⟨barePatterns params, bareStatements body, isAsync, isGenerator, .empty .start⟩

@[reducible] def Class.bare : Class → Class
  | ⟨superClass, body, _⟩ => ⟨bareOptional superClass, body.bare, .empty .start⟩

@[reducible] def ClassBody.bare : ClassBody → ClassBody
  | ⟨elements, _⟩ => ⟨bareClassElements elements, .empty .start⟩

@[reducible] def ClassElement.bare : ClassElement → ClassElement
  | .method key kind function isStatic computed _ =>
    .method key.bare kind function.bare isStatic computed (.empty .start)
  | .field key value isStatic computed _ =>
    .field key.bare (bareOptional value) isStatic computed (.empty .start)
  | .staticBlock body _ => .staticBlock (bareStatements body) (.empty .start)

@[reducible] def bareClassElements : List ClassElement → List ClassElement
  | [] => []
  | e :: rest => e.bare :: bareClassElements rest

@[reducible] def Declarator.bare : Declarator → Declarator
  | ⟨id, init⟩ => ⟨id.bare, bareOptional init⟩

@[reducible] def bareDeclarators : List Declarator → List Declarator
  | [] => []
  | d :: rest => d.bare :: bareDeclarators rest

@[reducible] def ForInit.bare : ForInit → ForInit
  | .variables kind declarators => .variables kind (bareDeclarators declarators)
  | .expression value => .expression value.bare

@[reducible] def bareOptionalInit : Option ForInit → Option ForInit
  | none => none
  | some init => some init.bare

@[reducible] def ForTarget.bare : ForTarget → ForTarget
  | .variable kind id => .variable kind id.bare
  | .expression target => .expression target.bare
  | .pattern target => .pattern target.bare

@[reducible] def CatchClause.bare : CatchClause → CatchClause
  | ⟨param, body⟩ => ⟨bareOptionalPattern param, bareStatements body⟩

@[reducible] def bareOptionalHandler : Option CatchClause → Option CatchClause
  | none => none
  | some handler => some handler.bare

@[reducible] def SwitchCase.bare : SwitchCase → SwitchCase
  | ⟨test, consequent⟩ => ⟨bareOptional test, bareStatements consequent⟩

@[reducible] def bareCases : List SwitchCase → List SwitchCase
  | [] => []
  | c :: rest => c.bare :: bareCases rest

@[reducible] def Statement.bare : Statement → Statement
  | .variables kind declarators _ => .variables kind (bareDeclarators declarators) (.empty .start)
  | .function name function => .function name function.bare
  | .class_ name definition => .class_ name definition.bare
  | .expression value _ => .expression value.bare (.empty .start)
  | .return_ argument _ => .return_ (bareOptional argument) (.empty .start)
  | .if_ test consequent alternate _ =>
    .if_ test.bare consequent.bare (bareOptionalStatement alternate) (.empty .start)
  | .while test body _ => .while test.bare body.bare (.empty .start)
  | .doWhile body test _ => .doWhile body.bare test.bare (.empty .start)
  | .for_ init test update body _ =>
    .for_ (bareOptionalInit init) (bareOptional test) (bareOptional update) body.bare
      (.empty .start)
  | .forIn target object body _ => .forIn target.bare object.bare body.bare (.empty .start)
  | .forOf target iterable body _ => .forOf target.bare iterable.bare body.bare (.empty .start)
  | .block body _ => .block (bareStatements body) (.empty .start)
  | .empty _ => .empty (.empty .start)
  | .break_ label _ => .break_ label (.empty .start)
  | .continue_ label _ => .continue_ label (.empty .start)
  | .throw argument _ => .throw argument.bare (.empty .start)
  | .try_ block handler finalizer _ =>
    .try_ (bareStatements block) (bareOptionalHandler handler) (bareOptionalStatements finalizer)
      (.empty .start)
  | .switch discriminant cases _ => .switch discriminant.bare (bareCases cases) (.empty .start)
  | .debugger _ => .debugger (.empty .start)
  | .labeled label body _ => .labeled label body.bare (.empty .start)

@[reducible] def bareStatements : List Statement → List Statement
  | [] => []
  | s :: rest => s.bare :: bareStatements rest

@[reducible] def bareOptionalStatement : Option Statement → Option Statement
  | none => none
  | some s => some s.bare

@[reducible] def bareOptionalStatements : Option (List Statement) → Option (List Statement)
  | none => none
  | some body => some (bareStatements body)

end

@[reducible] def Program.bare : Program → Program
  | ⟨body, _⟩ => ⟨bareStatements body, .empty .start⟩

end EcmaScript
