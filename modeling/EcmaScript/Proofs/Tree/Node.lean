import EcmaScript.Tree.Basic

/-!
Program trees as trees of nodes.

The syntax has many types; a node is a value of any of them. Every node has a list of children, in
the order of the source, which are smaller than the node. `Occurs` says where a node stands in a
tree: with which nodes around it.
-/

namespace EcmaScript

/-- A part of a program tree. -/
inductive Node where
  | program (p : Program)
  | statement (s : Statement)
  | declarator (d : Declarator)
  | forInit (init : ForInit)
  | forTarget (target : ForTarget)
  | catchClause (handler : CatchClause)
  | switchCase (c : SwitchCase)
  | expression (e : Expression)
  | assignmentTarget (target : AssignmentTarget)
  | objectProperty (property : ObjectProperty)
  | propertyKey (key : PropertyKey)
  | pattern (p : Pattern)
  | patternProperty (property : PatternProperty)
  | arrowBody (body : ArrowBody)
  | function (f : Function)
  | class_ (c : Class)
  | classBody (body : ClassBody)
  | classElement (element : ClassElement)
  /-- The function of a class method, with the key of the method. -/
  | methodValue (key : PropertyKey) (f : Function)

/-! ## Children -/

@[simp] def Expression.children : Expression → List Node
  | .identifier _ _ | .privateName _ | .literal _ _ | .this _ | .super _ => []
  | .binary _ left right _ | .logical _ left right _ => [.expression left, .expression right]
  | .unary _ argument _ | .update _ _ argument _ | .await argument _ | .spread argument _ =>
    [.expression argument]
  | .assignment _ target value _ => [.assignmentTarget target, .expression value]
  | .conditional test consequent alternate _ =>
    [.expression test, .expression consequent, .expression alternate]
  | .call callee arguments _ _ | .new callee arguments _ =>
    .expression callee :: arguments.map .expression
  | .member base property _ _ _ => [.expression base, .expression property]
  | .array elements _ => (elements.filterMap id).map .expression
  | .object properties _ => properties.map .objectProperty
  | .arrow params body _ _ => params.map .pattern ++ [.arrowBody body]
  | .function _ f => [.function f]
  | .class_ _ c => [.class_ c]
  | .yield argument _ _ => argument.toList.map .expression
  | .template _ expressions _ | .sequence expressions _ => expressions.map .expression
  | .taggedTemplate tag quasi _ => [.expression tag, .expression quasi]

@[simp] def AssignmentTarget.children : AssignmentTarget → List Node
  | .simple target => [.expression target]
  | .pattern target => [.pattern target]

@[simp] def ObjectProperty.children : ObjectProperty → List Node
  | .property key value _ _ _ _ _ => [.propertyKey key, .expression value]
  | .spread argument _ => [.expression argument]

@[simp] def PropertyKey.children : PropertyKey → List Node
  | .computed expression _ => [.expression expression]
  | _ => []

@[simp] def Pattern.children : Pattern → List Node
  | .identifier _ _ => []
  | .object properties last _ => properties.map .patternProperty ++ last.toList.map .pattern
  | .array elements _ => (elements.filterMap id).map .pattern
  | .withDefault target default _ => [.pattern target, .expression default]
  | .rest argument _ => [.pattern argument]
  | .member expression => [.expression expression]

@[simp] def ArrowBody.children : ArrowBody → List Node
  | .expression value => [.expression value]
  | .block body => body.map .statement

@[simp] def ClassElement.children : ClassElement → List Node
  | .method key _ f _ _ _ => [.propertyKey key, .methodValue key f]
  | .field key value _ _ _ => .propertyKey key :: value.toList.map .expression
  | .staticBlock body _ => body.map .statement

/-- The parts of the first part of a loop head. -/
@[simp] def ForInit.children : ForInit → List Node
  | .variables _ declarators => declarators.map .declarator
  | .expression value => [.expression value]

/-- The parts of the target of a loop. -/
@[simp] def ForTarget.children : ForTarget → List Node
  | .variable _ id => [.pattern id]
  | .expression target => [.expression target]
  | .pattern target => [.pattern target]

@[simp] def Statement.children : Statement → List Node
  | .variables _ declarators _ => declarators.map .declarator
  | .function _ f => [.function f]
  | .class_ _ c => [.class_ c]
  | .expression value _ | .throw value _ => [.expression value]
  | .return_ argument _ => argument.toList.map .expression
  | .if_ test consequent alternate _ =>
    .expression test :: .statement consequent :: alternate.toList.map .statement
  | .while test body _ => [.expression test, .statement body]
  | .doWhile body test _ => [.statement body, .expression test]
  | .for_ init test update body _ =>
    init.toList.map .forInit ++ test.toList.map .expression ++ update.toList.map .expression ++
      [.statement body]
  | .forIn target object body _ => [.forTarget target, .expression object, .statement body]
  | .forOf target iterable body _ => [.forTarget target, .expression iterable, .statement body]
  | .block body _ => body.map .statement
  | .empty _ | .break_ _ _ | .continue_ _ _ | .debugger _ => []
  | .try_ body handler finalizer _ =>
    body.map .statement ++ handler.toList.map .catchClause ++
      finalizer.toList.flatten.map .statement
  | .switch discriminant cases _ => .expression discriminant :: cases.map .switchCase
  | .labeled _ body _ => [.statement body]

namespace Node

/-- The nodes right below a node, in the order of the source. -/
@[simp] def children : Node → List Node
  | .program p => p.body.map .statement
  | .statement s => s.children
  | .declarator d => .pattern d.id :: d.init.toList.map .expression
  | .forInit init => init.children
  | .forTarget target => target.children
  | .catchClause handler => handler.param.toList.map .pattern ++ handler.body.map .statement
  | .switchCase c => c.test.toList.map .expression ++ c.consequent.map .statement
  | .expression e => e.children
  | .assignmentTarget target => target.children
  | .objectProperty property => property.children
  | .propertyKey key => key.children
  | .pattern p => p.children
  | .patternProperty property => [.propertyKey property.key, .pattern property.value]
  | .arrowBody body => body.children
  | .function f => f.params.map .pattern ++ f.body.map .statement
  | .class_ c => c.superClass.toList.map .expression ++ [.classBody c.body]
  | .classBody body => body.elements.map .classElement
  | .classElement element => element.children
  | .methodValue _ f => [.function f]

end Node

/-! ## Sizes -/

section Sizes

variable {α : Type} [SizeOf α] {make : α → Node} {size : Nat}

theorem sizeOf_map_lt {l : List α} (hmake : ∀ a, sizeOf (make a) = 1 + sizeOf a)
    (hl : sizeOf l < size) : ∀ c ∈ l.map make, sizeOf c < size := by
  intro c hc
  obtain ⟨a, ha, rfl⟩ := List.mem_map.mp hc
  have h := List.sizeOf_lt_of_mem ha
  rw [hmake]
  omega

theorem sizeOf_toList_lt {o : Option α} (hmake : ∀ a, sizeOf (make a) = 1 + sizeOf a)
    (ho : sizeOf o < size) : ∀ c ∈ o.toList.map make, sizeOf c < size := by
  intro c hc
  cases o with
  | none => cases hc
  | some a =>
    rw [List.mem_singleton.mp hc, hmake]
    exact ho

theorem sizeOf_filterMap_lt {l : List (Option α)} (hmake : ∀ a, sizeOf (make a) = 1 + sizeOf a)
    (hl : sizeOf l < size) : ∀ c ∈ (l.filterMap id).map make, sizeOf c < size := by
  intro c hc
  obtain ⟨a, ha, rfl⟩ := List.mem_map.mp hc
  rw [List.mem_filterMap] at ha
  obtain ⟨o, ho, rfl⟩ := ha
  have h := List.sizeOf_lt_of_mem ho
  rw [Option.some.sizeOf_spec] at h
  rw [hmake]
  omega

theorem sizeOf_flatten_lt {o : Option (List α)} (hmake : ∀ a, sizeOf (make a) = 1 + sizeOf a)
    (ho : sizeOf o < size) : ∀ c ∈ o.toList.flatten.map make, sizeOf c < size := by
  cases o with
  | none => simp
  | some l =>
    rw [Option.some.sizeOf_spec] at ho
    rw [Option.toList_some, List.flatten_singleton]
    exact sizeOf_map_lt hmake (by omega)

end Sizes

theorem Expression.sizeOf_lt_of_mem_children (e : Expression) :
    ∀ c ∈ e.children, sizeOf c < sizeOf (Node.expression e) := by
  cases e <;> simp only [Expression.children, List.forall_mem_cons, List.forall_mem_append,
    List.not_mem_nil, false_implies, implies_true, and_true]
  all_goals and_intros
  -- One inequality for each part and each list of parts. A list is tried as all of a list last.
  all_goals try first
    | apply sizeOf_filterMap_lt (fun _ => rfl)
    | apply sizeOf_toList_lt (fun _ => rfl)
    | apply sizeOf_map_lt (fun _ => rfl)
  all_goals simp <;> omega

theorem Statement.sizeOf_lt_of_mem_children (s : Statement) :
    ∀ c ∈ s.children, sizeOf c < sizeOf (Node.statement s) := by
  cases s <;> simp only [Statement.children, List.forall_mem_cons, List.forall_mem_append,
    List.not_mem_nil, false_implies, implies_true, and_true]
  all_goals and_intros
  all_goals try first
    | apply sizeOf_flatten_lt (fun _ => rfl)
    | apply sizeOf_toList_lt (fun _ => rfl)
    | apply sizeOf_map_lt (fun _ => rfl)
  all_goals simp <;> omega

namespace Node

/-- The children of a node are smaller than the node. -/
theorem sizeOf_lt_of_mem_children {n c : Node} (hc : c ∈ n.children) : sizeOf c < sizeOf n := by
  revert c
  cases n
  case expression e => exact fun {c} => e.sizeOf_lt_of_mem_children c
  case statement s => exact fun {c} => s.sizeOf_lt_of_mem_children c
  case methodValue key f =>
    intro c hc
    have hkey : sizeOf key ≠ 0 := by
      cases key <;> simp
    rw [List.mem_singleton.mp hc, function.sizeOf_spec, methodValue.sizeOf_spec]
    omega
  all_goals
    next part =>
    change ∀ c ∈ children _, _
    cases part <;> simp only [children, AssignmentTarget.children, ObjectProperty.children,
      PropertyKey.children, Pattern.children, ArrowBody.children, ClassElement.children,
      ForInit.children, ForTarget.children, List.forall_mem_cons, List.forall_mem_append,
      List.not_mem_nil, false_implies, implies_true, and_true]
    all_goals and_intros
    all_goals try first
      | apply sizeOf_filterMap_lt (fun _ => rfl)
      | apply sizeOf_toList_lt (fun _ => rfl)
      | apply sizeOf_map_lt (fun _ => rfl)
    all_goals simp <;> omega

/-! ## Occurrences -/

/-- The node `n` stands in the tree below `root`, inside the nodes of `path`, innermost first. -/
inductive Occurs (root : Node) : List Node → Node → Prop where
  | here : Occurs root [] root
  | child {path : List Node} {n c : Node} (hn : Occurs root path n) (hc : c ∈ n.children) :
      Occurs root (n :: path) c

/-- Occurrences from the root on: in the root itself, or below one of its children. -/
theorem occurs_iff {root n : Node} {path : List Node} :
    Occurs root path n ↔
      (path = [] ∧ n = root) ∨
        ∃ c ∈ root.children, ∃ below, Occurs c below n ∧ path = below ++ [root] := by
  constructor
  · intro h
    induction h with
    | here => exact .inl ⟨rfl, rfl⟩
    | @child path n c _ hc ih =>
      right
      rcases ih with ⟨rfl, rfl⟩ | ⟨d, hd, below, hbelow, rfl⟩
      · exact ⟨c, hc, [], .here, rfl⟩
      · exact ⟨d, hd, n :: below, .child hbelow hc, rfl⟩
  · rintro (⟨rfl, rfl⟩ | ⟨c, hc, below, hbelow, rfl⟩)
    · exact .here
    · induction hbelow with
      | here => exact .child .here hc
      | child _ hc ih => exact .child ih hc

/-- The nodes of a tree down to a depth, each with the nodes around it. -/
def places : Nat → Node → List (List Node × Node)
  | 0, _ => []
  | depth + 1, n =>
    ([], n) :: n.children.flatMap fun c => (places depth c).map fun place => (place.1 ++ [n], place.2)

/-- What is found down to a depth occurs in the tree. -/
theorem occurs_of_mem_places {depth : Nat} {root n : Node} {path : List Node}
    (h : (path, n) ∈ places depth root) : Occurs root path n := by
  induction depth generalizing root path with
  | zero => cases h
  | succ depth ih =>
    rcases List.mem_cons.1 h with hhere | hbelow
    · cases hhere
      exact .here
    · obtain ⟨c, hc, hplace⟩ := List.mem_flatMap.1 hbelow
      obtain ⟨⟨below, m⟩, hm, hplace⟩ := List.mem_map.1 hplace
      cases hplace
      exact occurs_iff.2 (.inr ⟨c, hc, below, ih hm, rfl⟩)

/-- What is found down to a depth in the program that is returned. -/
theorem exists_place {ε : Type} {result : Except ε Program} {test : List Node × Node → Bool}
    {depth : Nat}
    (h : result.toOption.any (fun p => (places depth (.program p)).any test) = true) :
    ∃ p path n, result = .ok p ∧ Occurs (.program p) path n ∧ test (path, n) = true := by
  cases result with
  | error e => cases h
  | ok p =>
    obtain ⟨⟨path, n⟩, hplace, htest⟩ := List.any_eq_true.1 h
    exact ⟨p, path, n, rfl, occurs_of_mem_places hplace, htest⟩

end Node

end EcmaScript
