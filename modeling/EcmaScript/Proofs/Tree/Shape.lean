import EcmaScript.Proofs.Tree.Node

/-!
The shapes of trees.

The types of the syntax allow more trees than there are programs: a private name, `super`, a spread
or a rest element could stand wherever an expression, a key or a pattern can. `Node.IsShaped` lists
for every node where among its children they do stand; a child that is none of them is ordinary. It
also says which patterns bind, that is, have names as their leaves and no member expressions.
-/

namespace EcmaScript

/-- What an expression is for the node above it. -/
inductive Expression.Role where
  /-- An expression that has a value. -/
  | operand
  | privateName
  | super
  | spread
deriving DecidableEq

def Expression.role : Expression → Expression.Role
  | .privateName _ => .privateName
  | .super _ => .super
  | .spread _ _ => .spread
  | _ => .operand

/-- Whether the expression is a name or a member access. -/
def Expression.isReference : Expression → Bool
  | .identifier _ _ | .member _ _ _ _ _ => true
  | _ => false

theorem Expression.role_of_isReference {e : Expression} (h : e.isReference) :
    e.role = .operand := by
  cases e with
  | identifier | member => rfl
  | _ => cases h

namespace Pattern

def isDefault : Pattern → Bool
  | .withDefault _ _ _ => true
  | _ => false

def isStructured : Pattern → Bool
  | .array _ _ | .object _ _ _ => true
  | _ => false

theorem not_rest_or_default_of_isStructured {p : Pattern} (h : p.isStructured) :
    p.isRest = false ∧ p.isDefault = false := by
  cases p with
  | array | object => exact ⟨rfl, rfl⟩
  | _ => cases h

/-- No part of the pattern is a member expression. -/
inductive Binds : Pattern → Prop where
  | identifier (name : String) (span : Span) : Binds (.identifier name span)
  | object {properties : List PatternProperty} {last : Option Pattern} {span : Span}
      (hproperties : ∀ property ∈ properties, property.value.Binds)
      (hlast : ∀ p ∈ last, p.Binds) : Binds (.object properties last span)
  | array {elements : List (Option Pattern)} {span : Span}
      (helements : ∀ p, some p ∈ elements → p.Binds) : Binds (.array elements span)
  | withDefault {target : Pattern} (default : Expression) (span : Span) (htarget : target.Binds) :
      Binds (.withDefault target default span)
  | rest {argument : Pattern} (span : Span) (hargument : argument.Binds) :
      Binds (.rest argument span)

end Pattern

/-- Parameters bind, and only the last may be a rest element. -/
structure IsParameterList (params : List Pattern) : Prop where
  rest_last : ∀ p ∈ params.dropLast, p.isRest = false
  binds : ∀ p ∈ params, p.Binds

namespace Node

/-- Whether the node may stand wherever one of its type can: it is neither a private name nor
`super`, a spread or a rest element. -/
@[simp] def isOrdinary : Node → Bool
  | .expression e => e.role == .operand
  | .propertyKey key => !key.isPrivate
  | .pattern p => !p.isRest
  | _ => true

/-- The children of the node are such as may stand in their places. -/
def IsShaped : Node → Prop
  | .expression (.member base property computed _ _) =>
    (base.role = .operand ∨ base.role = .super) ∧
      (property.role = .operand ∨ property.role = .privateName ∧ computed = false)
  | .expression (.call callee arguments _ _) | .expression (.new callee arguments _) =>
    (callee.role = .operand ∨ callee.role = .super) ∧
      ∀ e ∈ arguments, e.role = .operand ∨ e.role = .spread
  | .expression (.array elements _) =>
    ∀ e, some e ∈ elements → e.role = .operand ∨ e.role = .spread
  | .expression (.arrow params _ _ _) => IsParameterList params
  | .function f => IsParameterList f.params
  | .classElement (.method _ _ _ _ _ _) => True
  | .classElement (.field _ value _ _ _) => ∀ e ∈ value, e.role = .operand
  | .declarator d => d.id.isRest = false ∧ d.id.Binds ∧ ∀ e ∈ d.init, e.role = .operand
  | .forTarget (.variable _ id) => id.isRest = false ∧ id.Binds
  | .catchClause handler => ∀ p ∈ handler.param, p.isRest = false ∧ p.Binds
  | .assignmentTarget (.simple target) => target.isReference
  | .assignmentTarget (.pattern target) => target.isStructured
  | .pattern (.array elements _) => ∀ p, some p ∈ elements.dropLast → p.isRest = false
  | .pattern (.object _ last _) => ∀ p ∈ last, p.isRest
  | .pattern (.withDefault target default _) =>
    target.isRest = false ∧ target.isDefault = false ∧ default.role = .operand
  | n => ∀ c ∈ n.children, c.isOrdinary

/-! ## Places of what is not ordinary -/

/-- The child is not ordinary, but stands where one of its kind may stand below the node. -/
inductive Place : Node → Node → Prop where
  /-- A private name as the property behind a dot. -/
  | privateProperty (object : Expression) (name : PrivateName) (optional : Bool) (span : Span) :
      Place (.expression (.member object (.privateName name) false optional span))
        (.expression (.privateName name))
  /-- A private name as the key of a method. -/
  | privateMethod (name : PrivateName) (kind : MethodKind) (f : Function)
      (isStatic computed : Bool) (span : Span) :
      Place (.classElement (.method (.privateName name) kind f isStatic computed span))
        (.propertyKey (.privateName name))
  /-- A private name as the key of a field. -/
  | privateField (name : PrivateName) (value : Option Expression) (isStatic computed : Bool)
      (span : Span) :
      Place (.classElement (.field (.privateName name) value isStatic computed span))
        (.propertyKey (.privateName name))
  /-- `super` as the object of a member access. -/
  | superObject (own : Span) (property : Expression) (computed optional : Bool) (span : Span) :
      Place (.expression (.member (.super own) property computed optional span))
        (.expression (.super own))
  /-- `super` as the callee of a call. -/
  | superCallee (own : Span) (arguments : List Expression) (optional : Bool) (span : Span) :
      Place (.expression (.call (.super own) arguments optional span)) (.expression (.super own))
  /-- `super` as the callee of `new`. -/
  | superConstructor (own : Span) (arguments : List Expression) (span : Span) :
      Place (.expression (.new (.super own) arguments span)) (.expression (.super own))
  /-- A spread among the arguments of a call. -/
  | spreadArgument {argument callee : Expression} {own : Span} {arguments : List Expression}
      (hmem : .spread argument own ∈ arguments) (optional : Bool) (span : Span) :
      Place (.expression (.call callee arguments optional span))
        (.expression (.spread argument own))
  /-- A spread among the arguments of `new`. -/
  | spreadNewArgument {argument callee : Expression} {own : Span} {arguments : List Expression}
      (hmem : .spread argument own ∈ arguments) (span : Span) :
      Place (.expression (.new callee arguments span)) (.expression (.spread argument own))
  /-- A spread among the elements of an array literal. -/
  | spreadElement {argument : Expression} {own : Span} {elements : List (Option Expression)}
      (hmem : some (.spread argument own) ∈ elements) (span : Span) :
      Place (.expression (.array elements span)) (.expression (.spread argument own))
  /-- A rest element as the last parameter of a function. -/
  | restParameter {f : Function} {argument : Pattern} {own : Span}
      (hlast : f.params = f.params.dropLast ++ [.rest argument own]) :
      Place (.function f) (.pattern (.rest argument own))
  /-- A rest element as the last parameter of an arrow function. -/
  | restArrowParameter {params : List Pattern} {argument : Pattern} {own : Span}
      (hlast : params = params.dropLast ++ [.rest argument own]) (body : ArrowBody)
      (isAsync : Bool) (span : Span) :
      Place (.expression (.arrow params body isAsync span)) (.pattern (.rest argument own))
  /-- A rest element as the last element of an array pattern. -/
  | restOfArray {elements : List (Option Pattern)} {argument : Pattern} {own : Span}
      (hlast : elements = elements.dropLast ++ [some (.rest argument own)]) (span : Span) :
      Place (.pattern (.array elements span)) (.pattern (.rest argument own))
  /-- A rest element as the rest of an object pattern. -/
  | restOfObject (properties : List PatternProperty) (argument : Pattern) (own span : Span) :
      Place (.pattern (.object properties (some (.rest argument own)) span))
        (.pattern (.rest argument own))

/-- What is in a list, but not as what all but the last one are, is the last one. -/
theorem eq_dropLast_concat {α : Type} {l : List α} {a : α} {P : α → Prop}
    (h : ∀ b ∈ l.dropLast, P b) (ha : a ∈ l) (hnot : ¬P a) : l = l.dropLast ++ [a] := by
  have hne : l ≠ [] := List.ne_nil_of_mem ha
  have hsplit := List.dropLast_concat_getLast hne
  rw [← hsplit] at ha
  rcases List.mem_append.1 ha with hfront | hlast
  · exact absurd (h a hfront) hnot
  · rw [List.mem_singleton.1 hlast]
    exact hsplit.symm

/-- Where an argument of a call stands that is a spread. -/
theorem place_of_argument {e : Expression} {n : Node} (he : e.role = .operand ∨ e.role = .spread)
    (hplace : ∀ argument own, e = .spread argument own → Place n (.expression e)) :
    (Node.expression e).isOrdinary ∨ Place n (.expression e) := by
  rcases he with hoperand | hspread
  · exact .inl (by simp [hoperand])
  · cases e with
    | spread argument own => exact .inr (hplace argument own rfl)
    | _ => cases hspread

/-- Where a callee or object stands that is `super`. -/
theorem place_of_base {e : Expression} {n : Node} (he : e.role = .operand ∨ e.role = .super)
    (hplace : ∀ own, e = .super own → Place n (.expression e)) :
    (Node.expression e).isOrdinary ∨ Place n (.expression e) := by
  rcases he with hoperand | hsuper
  · exact .inl (by simp [hoperand])
  · cases e with
    | super own => exact .inr (hplace own rfl)
    | _ => cases hsuper

/-- Where a pattern stands that is a rest element. -/
theorem place_of_pattern {p : Pattern} {n : Node}
    (hplace : ∀ argument own, p = .rest argument own → Place n (.pattern p)) :
    (Node.pattern p).isOrdinary ∨ Place n (.pattern p) := by
  cases p with
  | rest argument own => exact .inr (hplace argument own rfl)
  | _ => exact .inl rfl

/-- Where a key stands that is a private name. -/
theorem place_of_key {key : PropertyKey} {n : Node}
    (hplace : ∀ name, key = .privateName name → Place n (.propertyKey key)) :
    (Node.propertyKey key).isOrdinary ∨ Place n (.propertyKey key) := by
  cases key with
  | privateName name => exact .inr (hplace name rfl)
  | _ => exact .inl rfl

namespace IsShaped

variable {c : Node}

theorem place_expression {e : Expression} (h : (expression e).IsShaped) (hc : c ∈ e.children) :
    c.isOrdinary ∨ (expression e).Place c := by
  cases e with
  | member object property computed optional span =>
    simp only [Expression.children, List.mem_cons, List.not_mem_nil, or_false] at hc
    rcases hc with rfl | rfl
    · refine place_of_base h.1 ?_
      rintro own rfl
      exact .superObject own property computed optional span
    · rcases h.2 with hoperand | ⟨hprivate, rfl⟩
      · exact .inl (by simp [hoperand])
      · cases property with
        | privateName name => exact .inr (.privateProperty object name optional span)
        | _ => cases hprivate
  | call callee arguments optional span =>
    simp only [Expression.children, List.mem_cons, List.mem_map] at hc
    rcases hc with rfl | ⟨e, he, rfl⟩
    · refine place_of_base h.1 ?_
      rintro own rfl
      exact .superCallee own arguments optional span
    · refine place_of_argument (h.2 e he) ?_
      rintro argument own rfl
      exact .spreadArgument he optional span
  | new callee arguments span =>
    simp only [Expression.children, List.mem_cons, List.mem_map] at hc
    rcases hc with rfl | ⟨e, he, rfl⟩
    · refine place_of_base h.1 ?_
      rintro own rfl
      exact .superConstructor own arguments span
    · refine place_of_argument (h.2 e he) ?_
      rintro argument own rfl
      exact .spreadNewArgument he span
  | array elements span =>
    obtain ⟨e, he, rfl⟩ := List.mem_map.1 hc
    obtain ⟨element, helement, rfl⟩ := List.mem_filterMap.1 he
    refine place_of_argument (h e helement) ?_
    rintro argument own rfl
    exact .spreadElement helement span
  | arrow params body isAsync span =>
    rcases List.mem_append.1 hc with hparam | hbody
    · obtain ⟨q, hq, rfl⟩ := List.mem_map.1 hparam
      refine place_of_pattern ?_
      rintro argument own rfl
      exact .restArrowParameter (eq_dropLast_concat h.rest_last hq nofun) body isAsync span
    · rw [List.mem_singleton.1 hbody]
      exact .inl rfl
  | _ => exact .inl (h c hc)

theorem place_classElement {element : ClassElement} (h : (classElement element).IsShaped)
    (hc : c ∈ element.children) : c.isOrdinary ∨ (classElement element).Place c := by
  cases element with
  | method key kind f isStatic computed span =>
    simp only [ClassElement.children, List.mem_cons, List.not_mem_nil, or_false] at hc
    rcases hc with rfl | rfl
    · refine place_of_key ?_
      rintro name rfl
      exact .privateMethod name kind f isStatic computed span
    · exact .inl rfl
  | field key value isStatic computed span =>
    simp only [ClassElement.children, List.mem_cons, List.mem_map] at hc
    rcases hc with rfl | ⟨e, he, rfl⟩
    · refine place_of_key ?_
      rintro name rfl
      exact .privateField name value isStatic computed span
    · exact .inl (by simp [h e (Option.mem_toList.1 he)])
  | staticBlock body span => exact .inl (h c hc)

theorem place_pattern {p : Pattern} (h : (pattern p).IsShaped) (hc : c ∈ p.children) :
    c.isOrdinary ∨ (pattern p).Place c := by
  cases p with
  | array elements span =>
    obtain ⟨r, hr, rfl⟩ := List.mem_map.1 hc
    obtain ⟨element, helement, rfl⟩ := List.mem_filterMap.1 hr
    refine place_of_pattern ?_
    rintro argument own rfl
    exact .restOfArray (eq_dropLast_concat (P := fun o => ∀ q, o = some q → q.isRest = false)
      (fun o ho q hq => h q (hq ▸ ho)) helement fun hrest => by cases hrest _ rfl) span
  | object properties last span =>
    rcases List.mem_append.1 hc with hproperty | hlast
    · obtain ⟨property, -, rfl⟩ := List.mem_map.1 hproperty
      exact .inl rfl
    · obtain ⟨r, hr, rfl⟩ := List.mem_map.1 hlast
      have hsome : last = some r := Option.mem_toList.1 hr
      subst hsome
      refine place_of_pattern ?_
      rintro argument own rfl
      exact .restOfObject properties argument own span
  | withDefault target default span =>
    simp only [Pattern.children, List.mem_cons, List.not_mem_nil, or_false] at hc
    rcases hc with rfl | rfl
    · exact .inl (by simp [h.1])
    · exact .inl (by simp [h.2.2])
  | _ => exact .inl (h c hc)

/-- A child of a shaped node is ordinary, or stands where one of its kind may stand. -/
theorem place {n : Node} (h : n.IsShaped) (hc : c ∈ n.children) : c.isOrdinary ∨ n.Place c := by
  cases n with
  | expression e => exact place_expression h hc
  | classElement element => exact place_classElement h hc
  | pattern p => exact place_pattern h hc
  | function f =>
    rcases List.mem_append.1 hc with hparam | hbody
    · obtain ⟨q, hq, rfl⟩ := List.mem_map.1 hparam
      refine place_of_pattern ?_
      rintro argument own rfl
      exact .restParameter (eq_dropLast_concat h.rest_last hq nofun)
    · obtain ⟨s, -, rfl⟩ := List.mem_map.1 hbody
      exact .inl rfl
  | declarator d =>
    simp only [children, List.mem_cons, List.mem_map] at hc
    rcases hc with rfl | ⟨e, he, rfl⟩
    · exact .inl (by simp [h.1])
    · exact .inl (by simp [h.2.2 e (Option.mem_toList.1 he)])
  | forTarget target =>
    cases target with
    | «variable» kind id =>
      rw [List.mem_singleton.1 hc]
      exact .inl (by simp [h.1])
    | _ => exact .inl (h c hc)
  | catchClause handler =>
    rcases List.mem_append.1 hc with hparam | hbody
    · obtain ⟨q, hq, rfl⟩ := List.mem_map.1 hparam
      exact .inl (by simp [(h q (Option.mem_toList.1 hq)).1])
    · obtain ⟨s, -, rfl⟩ := List.mem_map.1 hbody
      exact .inl rfl
  | assignmentTarget target =>
    cases target with
    | simple e =>
      rw [List.mem_singleton.1 hc]
      exact .inl (by simp [Expression.role_of_isReference h])
    | pattern q =>
      rw [List.mem_singleton.1 hc]
      exact .inl (by simp [(Pattern.not_rest_or_default_of_isStructured h).1])
  | _ => exact .inl (h c hc)

end IsShaped

/-! ## Where member expressions are patterns -/

def isPatternPart : Node → Bool
  | .pattern _ | .patternProperty _ => true
  | _ => false

def assignsPattern : Node → Bool
  | .assignmentTarget (.pattern _) | .forTarget (.pattern _) => true
  | _ => false

/-- No part of the pattern that the node is or holds is a member expression. -/
def PartBinds : Node → Prop
  | .pattern p => p.Binds
  | .patternProperty property => property.value.Binds
  | _ => True

/-- The parts of a pattern that binds, bind. -/
theorem PartBinds.child {n c : Node} (hn : n.isPatternPart) (h : n.PartBinds)
    (hc : c ∈ n.children) : c.PartBinds := by
  cases n with
  | pattern p =>
    cases p with
    | identifier name span => cases hc
    | object properties last span =>
      cases h with
      | object hproperties hlast =>
        rcases List.mem_append.1 hc with hc | hc
        · obtain ⟨property, hmem, rfl⟩ := List.mem_map.1 hc
          exact hproperties property hmem
        · obtain ⟨p, hmem, rfl⟩ := List.mem_map.1 hc
          exact hlast p (Option.mem_toList.1 hmem)
    | array elements span =>
      cases h with
      | array helements =>
        obtain ⟨p, hmem, rfl⟩ := List.mem_map.1 hc
        obtain ⟨element, helement, rfl⟩ := List.mem_filterMap.1 hmem
        exact helements p helement
    | withDefault target default span =>
      cases h with
      | withDefault _ _ htarget =>
        simp only [children, Pattern.children, List.mem_cons, List.not_mem_nil, or_false] at hc
        rcases hc with rfl | rfl
        · exact htarget
        · trivial
    | rest argument span =>
      cases h with
      | rest _ hargument =>
        rw [List.mem_singleton.1 hc]
        exact hargument
    | member expression => cases h
  | patternProperty property =>
    simp only [children, List.mem_cons, List.not_mem_nil, or_false] at hc
    rcases hc with rfl | rfl
    · trivial
    · exact h
  | _ => cases hn

/-- A pattern right below another kind of node binds, unless it is assigned to. -/
theorem IsShaped.partBinds {n : Node} (h : n.IsShaped) (hn : n.isPatternPart = false)
    (hassigns : n.assignsPattern = false) : ∀ c ∈ n.children, c.PartBinds := by
  cases n with
  | pattern | patternProperty => cases hn
  | expression e =>
    cases e with
    | arrow params body isAsync span => simpa [PartBinds, or_imp, forall_and] using h.binds
    | _ => simp [PartBinds, or_imp, forall_and]
  | function f => simpa [PartBinds, or_imp, forall_and] using h.binds
  | declarator d => simpa [PartBinds, or_imp, forall_and] using h.2.1
  | catchClause handler => simpa [PartBinds, or_imp, forall_and] using fun p hp => (h p hp).2
  | forTarget target =>
    rcases target with ⟨kind, id⟩ | e | target
    · simpa [PartBinds, or_imp, forall_and] using h.2
    · simp [PartBinds]
    · cases hassigns
  | assignmentTarget target =>
    rcases target with e | target
    · simp [PartBinds]
    · cases hassigns
  | statement s =>
    cases s with
    | try_ block handler finalizer span =>
      cases finalizer <;> simp [PartBinds, or_imp, forall_and]
    | _ => simp [PartBinds, or_imp, forall_and]
  | objectProperty property => cases property <;> simp [PartBinds, or_imp, forall_and]
  | propertyKey key => cases key <;> simp [PartBinds]
  | arrowBody body => cases body <;> simp [PartBinds]
  | classElement element => cases element <;> simp [PartBinds, or_imp, forall_and]
  | forInit init => cases init <;> simp [PartBinds]
  | _ => simp [PartBinds, or_imp, forall_and]

/-- In a tree of shaped nodes, going up from a part of a pattern through patterns alone leads to an
assignment or a loop that assigns to the pattern, or else the part binds. -/
theorem assigned_or_partBinds {root n : Node} {path : List Node}
    (hroot : root.isPatternPart = false)
    (hshaped : ∀ path n, Occurs root path n → n.IsShaped) (h : Occurs root path n) :
    (path.dropWhile isPatternPart).head?.any assignsPattern ∨ n.PartBinds := by
  -- From the root down. Below a pattern whichever side holds of it holds on; below any other node
  -- the way up through patterns ends at once, and the node decides.
  induction h with
  | here =>
    right
    cases root with
    | pattern | patternProperty => cases hroot
    | _ => trivial
  | @child path m c hm hc ih =>
    cases hpart : m.isPatternPart with
    | true =>
      rw [List.dropWhile_cons_of_pos hpart]
      exact ih.imp_right fun hbinds => hbinds.child hpart hc
    | false =>
      rw [List.dropWhile_cons_of_neg (by simp [hpart])]
      cases hassigns : m.assignsPattern with
      | true => exact .inl hassigns
      | false => exact .inr ((hshaped path m hm).partBinds hpart hassigns c hc)

/-- In a tree of shaped nodes, a member expression is a pattern only as a part of a pattern that is
assigned to. -/
theorem assigned_of_member {root : Node} {path : List Node} {e : Expression}
    (hroot : root.isPatternPart = false)
    (hshaped : ∀ path n, Occurs root path n → n.IsShaped)
    (h : Occurs root path (.pattern (.member e))) :
    (path.dropWhile isPatternPart).head?.any assignsPattern := by
  rcases assigned_or_partBinds hroot hshaped h with hassigned | hbinds
  · exact hassigned
  · cases hbinds

end Node

end EcmaScript
