import EcmaScript.Grammar.Class
import EcmaScript.Proofs.PrivateNames
import EcmaScript.Proofs.Tree.Node
import Mathlib.Algebra.BigOperators.Group.List.Basic

/-!
What a tree tells about classes and private names.

The account of a node lists the calls about classes, methods and private names that a traversal
of the tree in the order of the source makes, and says whether a private member is deleted
anywhere. A deletion is not one of the calls, because parentheses leave no trace in the tree but
make a parser report what is inside them once more.

An expression that is re-read as a pattern keeps its account.
-/

namespace EcmaScript

/-- A call about classes, methods and private names. -/
inductive Call where
  | enterClass
  | exitClass
  | declare (name : PrivateName) (kind : MemberKind) (start : Position)
  | enterMethod (key : PropertyKey)
  | exitMethod
  | reference (name : PrivateName)
  /-- `super` with arguments behind it. -/
  | superCall

/-- Calls in their order, and whether a private member is deleted. -/
@[ext] structure Account where
  calls : List Call
  deletes : Bool

namespace Account

instance : Zero Account := ⟨⟨[], false⟩⟩

instance : Add Account := ⟨fun a b => ⟨a.calls ++ b.calls, a.deletes || b.deletes⟩⟩

@[simp] theorem zero_calls : (0 : Account).calls = [] := rfl

@[simp] theorem zero_deletes : (0 : Account).deletes = false := rfl

@[simp] theorem add_calls (a b : Account) : (a + b).calls = a.calls ++ b.calls := rfl

@[simp] theorem add_deletes (a b : Account) : (a + b).deletes = (a.deletes || b.deletes) := rfl

instance : AddMonoid Account where
  add_assoc a b c := by ext1 <;> simp [Bool.or_assoc]
  zero_add a := by ext1 <;> simp
  add_zero a := by ext1 <;> simp
  nsmul := nsmulRec

def ofCall (call : Call) : Account := ⟨[call], false⟩

def deletion : Account := ⟨[], true⟩

/-- One more deletion makes no difference where there is one. -/
theorem add_deletion {a : Account} (h : a.deletes = true) : a + deletion = a := by
  ext1 <;> simp [deletion, h]

end Account

/-- What a method declares under a private name. -/
@[simp] def MethodKind.memberKind : MethodKind → MemberKind
  | .get => .get
  | .set => .set
  | _ => .method

namespace ClassElement

@[simp] def privateMember? : ClassElement → Option (PrivateName × MemberKind)
  | .method (.privateName name) kind _ _ _ _ => some (name, kind.memberKind)
  | .field (.privateName name) _ _ _ _ => some (name, .field)
  | _ => none

@[simp] def declaration (element : ClassElement) : Account :=
  match element.privateMember? with
  | some (name, kind) => .ofCall (.declare name kind (Grammar.elementSpan element).start)
  | none => 0

end ClassElement

namespace Expression

@[simp] def privateProperty? : Expression → Option PrivateName
  | .member _ (.privateName name) _ _ _ => some name
  | _ => none

@[simp] def isSuperCall : Expression → Bool
  | .call callee _ _ _ | .new callee _ _ => callee.isSuper
  | _ => false

@[simp] def ownAccount (e : Expression) : Account :=
  match e.privateProperty? with
  | some name => .ofCall (.reference name)
  | none => if e.isPrivateDelete then .deletion else 0

end Expression

namespace Node

/-- The account in front of the children. -/
@[simp] def opening : Node → Account
  | .expression e => if e.isSuperCall then .ofCall .superCall else 0
  | .classBody _ => .ofCall .enterClass
  | .classElement element => element.declaration
  | .methodValue key _ => .ofCall (.enterMethod key)
  | _ => 0

@[simp] def closing : Node → Account
  | .expression e => e.ownAccount
  | .classBody _ => .ofCall .exitClass
  | .methodValue _ _ => .ofCall .exitMethod
  | _ => 0

def account (n : Node) : Account :=
  n.opening + (n.children.attach.map fun c => c.1.account).sum + n.closing
termination_by sizeOf n
decreasing_by exact sizeOf_lt_of_mem_children c.2

theorem account_eq (n : Node) :
    n.account = n.opening + (n.children.map account).sum + n.closing := by
  rw [account, List.attach_map_val]

end Node

/-! ## Expressions read as patterns -/

theorem except_bind_eq_ok {ε α β : Type} {x : Except ε α} {f : α → Except ε β} {b : β} :
    (x >>= f) = .ok b ↔ ∃ a, x = .ok a ∧ f a = .ok b := by
  cases x with
  | error e => simp [Bind.bind, Except.bind]
  | ok a => simp [Bind.bind, Except.bind]

@[simp] theorem account_rest (p : Pattern) (span : Span) :
    (Node.pattern (.rest p span)).account = (Node.pattern p).account := by
  rw [Node.account_eq]
  simp

@[simp] theorem account_spread (e : Expression) (span : Span) :
    (Node.expression (.spread e span)).account = (Node.expression e).account := by
  rw [Node.account_eq]
  simp

variable {rules : NameRules} {use : PatternUse}

/-- A target that is a pattern already stays as it is. -/
theorem AssignmentTarget.eq_of_toPattern {target p : Pattern}
    (h : (AssignmentTarget.pattern target).toPattern rules use = .ok p) : p = target := by
  cases use with
  | binding =>
    simp only [AssignmentTarget.toPattern, beq_self_eq_true, if_true, except_bind_eq_ok] at h
    obtain ⟨-, -, h⟩ := h
    cases h
    rfl
  | assignment =>
    cases h
    rfl

mutual

/-- A pattern has the account of the expression it is read from. -/
theorem Expression.account_toPattern (e : Expression) {p : Pattern}
    (h : e.toPattern rules use = .ok p) :
    (Node.pattern p).account = (Node.expression e).account := by
  cases e with
  | identifier name span =>
    simp only [Expression.toPattern, except_bind_eq_ok] at h
    obtain ⟨-, -, h⟩ := h
    cases h
    rw [Node.account_eq, Node.account_eq (.expression _)]
    simp
  | member base property computed optional span =>
    simp only [Expression.toPattern] at h
    cases use with
    | binding => cases h
    | assignment =>
      simp only [except_bind_eq_ok] at h
      obtain ⟨-, -, h⟩ := h
      cases h
      rw [Node.account_eq]
      simp
  | assignment operator target value span =>
    cases operator with
    | assign =>
      simp only [Expression.toPattern, except_bind_eq_ok] at h
      obtain ⟨target', htarget, h⟩ := h
      cases h
      have ih := target.account_toPattern htarget
      rw [Node.account_eq, Node.account_eq (.expression _)]
      simp [ih]
    | _ => simp [Expression.toPattern] at h
  | array elements span =>
    simp only [Expression.toPattern, except_bind_eq_ok] at h
    obtain ⟨patterns, hpatterns, h⟩ := h
    cases h
    have ih := account_elementsToPatterns elements hpatterns
    rw [Node.account_eq, Node.account_eq (.expression _)]
    simpa using ih
  | object properties span =>
    simp only [Expression.toPattern, except_bind_eq_ok] at h
    obtain ⟨⟨patterns, last⟩, hpatterns, h⟩ := h
    cases h
    have ih := account_propertiesToPatterns properties hpatterns
    rw [Node.account_eq, Node.account_eq (.expression _)]
    simpa using ih
  | _ => simp [Expression.toPattern] at h
termination_by sizeOf e

theorem AssignmentTarget.account_toPattern (target : AssignmentTarget) {p : Pattern}
    (h : target.toPattern rules use = .ok p) :
    (Node.pattern p).account = (Node.assignmentTarget target).account := by
  rw [Node.account_eq (.assignmentTarget _)]
  cases target with
  | simple target =>
    rw [AssignmentTarget.toPattern] at h
    simpa using target.account_toPattern h
  | pattern target =>
    cases AssignmentTarget.eq_of_toPattern h
    simp
termination_by sizeOf target

theorem account_elementsToPatterns (elements : List (Option Expression))
    {patterns : List (Option Pattern)} (h : elementsToPatterns rules use elements = .ok patterns) :
    (((patterns.filterMap id).map Node.pattern).map Node.account).sum =
      (((elements.filterMap id).map Node.expression).map Node.account).sum := by
  cases elements with
  | nil =>
    cases h
    rfl
  | cons element others =>
    cases element with
    | none =>
      simp only [elementsToPatterns, except_bind_eq_ok] at h
      obtain ⟨patterns, hpatterns, h⟩ := h
      cases h
      simpa using account_elementsToPatterns others hpatterns
    | some e =>
      unfold elementsToPatterns at h
      split at h
      · next heq => cases heq
      · next heq => cases heq
      · next argument span heq =>
        cases heq
        simp only [except_bind_eq_ok] at h
        obtain ⟨pattern, hpattern, h⟩ := h
        cases h
        have ih := argument.account_toPattern hpattern
        simp [ih]
      · next e' others' _ heq =>
        cases heq
        simp only [except_bind_eq_ok] at h
        obtain ⟨pattern, hpattern, patterns, hpatterns, h⟩ := h
        cases h
        have ihe := e.account_toPattern hpattern
        have ihothers := account_elementsToPatterns others hpatterns
        simpa [ihe] using congrArg ((Node.expression e).account + ·) ihothers
termination_by sizeOf elements

theorem account_propertiesToPatterns (properties : List ObjectProperty)
    {patterns : List PatternProperty} {last : Option Pattern}
    (h : propertiesToPatterns rules use properties = .ok (patterns, last)) :
    ((patterns.map Node.patternProperty ++ last.toList.map Node.pattern).map Node.account).sum =
      ((properties.map Node.objectProperty).map Node.account).sum := by
  unfold propertiesToPatterns at h
  split at h
  · cases h
    rfl
  · next argument span =>
    simp only [except_bind_eq_ok] at h
    obtain ⟨pattern, hpattern, h⟩ := h
    cases h
    have ih := argument.account_toPattern hpattern
    have hproperty : (Node.objectProperty (.spread argument span)).account =
        (Node.expression argument).account := by
      rw [Node.account_eq]
      simp
    simp [ih, hproperty]
  · next key value shorthand computed span others =>
    simp only [except_bind_eq_ok] at h
    obtain ⟨pattern, hpattern, ⟨patterns, last⟩, hpatterns, h⟩ := h
    cases h
    have ihvalue := value.account_toPattern hpattern
    have ihothers := account_propertiesToPatterns others hpatterns
    simp only [List.map_cons, List.cons_append, List.sum_cons, ihothers]
    rw [Node.account_eq, Node.account_eq (.objectProperty _)]
    simp [ihvalue]
  · cases h
  · cases h
termination_by sizeOf properties

end

theorem account_argumentsToParams (arguments : List Expression) {params : List Pattern}
    (h : argumentsToParams rules arguments = .ok params) :
    ((params.map Node.pattern).map Node.account).sum =
      ((arguments.map Node.expression).map Node.account).sum := by
  fun_induction argumentsToParams rules arguments generalizing params with
  | case1 =>
    cases h
    rfl
  | case2 argument span =>
    rw [except_bind_eq_ok] at h
    obtain ⟨pattern, hpattern, h⟩ := h
    cases h
    simp [argument.account_toPattern hpattern]
  | case3 e others _ ih =>
    simp only [except_bind_eq_ok] at h
    obtain ⟨pattern, hpattern, params, hparams, h⟩ := h
    cases h
    simpa [e.account_toPattern hpattern] using
      congrArg ((Node.expression e).account + ·) (ih hparams)

theorem account_mapM_toPattern (items : List Expression) {params : List Pattern}
    (h : items.mapM (·.toPattern rules use) = .ok params) :
    ((params.map Node.pattern).map Node.account).sum =
      ((items.map Node.expression).map Node.account).sum := by
  induction items generalizing params with
  | nil =>
    cases h
    rfl
  | cons e others ih =>
    simp only [List.mapM_cons, except_bind_eq_ok] at h
    obtain ⟨pattern, hpattern, params, hparams, h⟩ := h
    cases h
    simpa [e.account_toPattern hpattern] using
      congrArg ((Node.expression e).account + ·) (ih hparams)

/-- The target of an assignment has the account of the expression it is read from. -/
theorem Expression.account_toTarget {operator : AssignmentOperator} {e : Expression}
    {target : AssignmentTarget} (h : e.toTarget rules operator = .ok target) :
    (Node.assignmentTarget target).account = (Node.expression e).account := by
  have hsimple : (rules.checkSimpleTarget e >>= fun _ => pure (AssignmentTarget.simple e)) =
      .ok target → (Node.assignmentTarget target).account = (Node.expression e).account := by
    intro h
    obtain ⟨-, -, h⟩ := except_bind_eq_ok.mp h
    cases h
    rw [Node.account_eq]
    simp
  have hpattern : (if operator == .assign then
        AssignmentTarget.pattern <$> e.toPattern rules .assignment
      else .error (.located .invalidTarget e.start)) = .ok target →
      (Node.assignmentTarget target).account = (Node.expression e).account := by
    intro h
    split at h
    · rw [map_eq_pure_bind] at h
      obtain ⟨pattern, hpattern, h⟩ := except_bind_eq_ok.mp h
      cases h
      rw [Node.account_eq, ← e.account_toPattern hpattern]
      simp
    · cases h
  cases e with
  | identifier name span => exact hsimple h
  | member base property computed optional span => exact hsimple h
  | array elements span => exact hpattern h
  | object properties span => exact hpattern h
  | _ => cases h

/-- The target of a loop has the account of the expression it is read from. -/
theorem Expression.account_toForTarget {e : Expression} {target : ForTarget}
    (h : e.toForTarget rules = .ok target) :
    (Node.forTarget target).account = (Node.expression e).account := by
  have hsimple : (rules.checkSimpleTarget e >>= fun _ => pure (ForTarget.expression e)) =
      .ok target → (Node.forTarget target).account = (Node.expression e).account := by
    intro h
    obtain ⟨-, -, h⟩ := except_bind_eq_ok.mp h
    cases h
    rw [Node.account_eq]
    simp
  have hpattern : (e.toPattern rules .assignment >>= fun p => pure (ForTarget.pattern p)) =
      .ok target → (Node.forTarget target).account = (Node.expression e).account := by
    intro h
    obtain ⟨pattern, hpattern, h⟩ := except_bind_eq_ok.mp h
    cases h
    rw [Node.account_eq, ← e.account_toPattern hpattern]
    simp
  cases e with
  | array elements span => exact hpattern h
  | object properties span => exact hpattern h
  | _ => exact hsimple h

end EcmaScript
