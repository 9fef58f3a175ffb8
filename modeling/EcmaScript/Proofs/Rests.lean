import EcmaScript.Proofs.Tree.Account
import EcmaScript.Proofs.WellFormed

/-!
Rest elements with default values.

A rest element that is read as one is not given a default value: not by a function or a method, not
by a declaration, a loop that declares or a `catch`, and not as the last thing in the parentheses of
an arrow function. A spread that is re-read as a rest element keeps its argument, so that the rest
element has a default value exactly if the argument is an assignment by `=`. Such spreads are not
refused, `rest_with_default_accepted` shows one.
-/

namespace EcmaScript

variable {rules : NameRules} {use : PatternUse}

/-! ## Literals read as patterns -/

/-- No spread that could become a rest element is of an assignment by `=`: of the spreads in the
literal itself and in the literals that are its elements, values or targets. -/
inductive Expression.SpreadsPlain : Expression → Prop where
  | identifier (name : String) (span : Span) : SpreadsPlain (.identifier name span)
  | member (object property : Expression) (computed optional : Bool) (span : Span) :
      SpreadsPlain (.member object property computed optional span)
  | simpleDefault {target : Expression} (operator : AssignmentOperator) (value : Expression)
      (span : Span) (htarget : target.SpreadsPlain) :
      SpreadsPlain (.assignment operator (.simple target) value span)
  | patternDefault {target : Pattern} (operator : AssignmentOperator) (value : Expression)
      (span : Span) (htarget : target.RestsPlain) :
      SpreadsPlain (.assignment operator (.pattern target) value span)
  | array {elements : List (Option Expression)} (span : Span)
      (helements : ∀ e, some e ∈ elements → e.SpreadsPlain) : SpreadsPlain (.array elements span)
  | object {properties : List ObjectProperty} (span : Span)
      (hvalues : ∀ key value kind method shorthand computed own,
        .property key value kind method shorthand computed own ∈ properties → value.SpreadsPlain)
      (hassignments : ∀ argument own, .spread argument own ∈ properties →
        argument.isPlainAssignment = false)
      (hspreads : ∀ argument own, .spread argument own ∈ properties → argument.SpreadsPlain) :
      SpreadsPlain (.object properties span)
  | spread {argument : Expression} (span : Span) (hassignment : argument.isPlainAssignment = false)
      (hargument : argument.SpreadsPlain) : SpreadsPlain (.spread argument span)

/-- The target of a default value, likewise. -/
def AssignmentTarget.SpreadsPlain : AssignmentTarget → Prop
  | .simple e => e.SpreadsPlain
  | .pattern p => p.RestsPlain

/-- An element of an object literal, likewise. -/
def ObjectProperty.SpreadsPlain : ObjectProperty → Prop
  | .property _ value _ _ _ _ _ => value.SpreadsPlain
  | .spread argument _ => argument.isPlainAssignment = false ∧ argument.SpreadsPlain

namespace Expression

theorem spreadsPlain_assignment_iff {operator : AssignmentOperator} {target : AssignmentTarget}
    {value : Expression} {span : Span} :
    (assignment operator target value span).SpreadsPlain ↔ target.SpreadsPlain := by
  constructor
  · intro h
    cases h with
    | simpleDefault _ _ _ htarget => exact htarget
    | patternDefault _ _ _ htarget => exact htarget
  · intro h
    cases target with
    | simple e => exact .simpleDefault operator value span h
    | pattern p => exact .patternDefault operator value span h

theorem spreadsPlain_array_iff {elements : List (Option Expression)} {span : Span} :
    (array elements span).SpreadsPlain ↔ ∀ e, some e ∈ elements → e.SpreadsPlain := by
  refine ⟨fun h => ?_, .array span⟩
  cases h with
  | array _ helements => exact helements

theorem spreadsPlain_object_iff {properties : List ObjectProperty} {span : Span} :
    (object properties span).SpreadsPlain ↔ ∀ property ∈ properties, property.SpreadsPlain := by
  constructor
  · intro h property hproperty
    cases h with
    | object _ hvalues hassignments hspreads =>
      cases property with
      | property key value kind method shorthand computed own =>
        exact hvalues _ _ _ _ _ _ _ hproperty
      | spread argument own =>
        exact ⟨hassignments argument own hproperty, hspreads argument own hproperty⟩
  · intro h
    exact .object span (fun _ _ _ _ _ _ _ hproperty => h _ hproperty)
      (fun _ _ hproperty => (h _ hproperty).1) fun _ _ hproperty => (h _ hproperty).2

theorem spreadsPlain_spread_iff {argument : Expression} {span : Span} :
    (spread argument span).SpreadsPlain ↔
      argument.isPlainAssignment = false ∧ argument.SpreadsPlain := by
  refine ⟨fun h => ?_, fun h => .spread span h.1 h.2⟩
  cases h with
  | spread _ hassignment hargument => exact ⟨hassignment, hargument⟩

/-- An assignment by `=` is read as a pattern with a default value, and nothing else is. -/
theorem isDefault_toPattern {e : Expression} {p : Pattern} (h : e.toPattern rules use = .ok p) :
    p.isDefault = e.isPlainAssignment := by
  cases e with
  | identifier name span =>
    simp only [toPattern, except_bind_eq_ok] at h
    obtain ⟨-, -, h⟩ := h
    cases h
    rfl
  | member object property computed optional span =>
    simp only [toPattern] at h
    cases use with
    | binding => cases h
    | assignment =>
      obtain ⟨-, -, h⟩ := except_bind_eq_ok.1 h
      cases h
      rfl
  | assignment operator target value span =>
    cases operator with
    | assign =>
      simp only [toPattern, except_bind_eq_ok] at h
      obtain ⟨_, -, h⟩ := h
      cases h
      rfl
    | _ => simp [toPattern] at h
  | array elements span | object properties span =>
    simp only [toPattern, except_bind_eq_ok] at h
    obtain ⟨_, -, h⟩ := h
    cases h
    rfl
  | _ => simp [toPattern] at h

end Expression

namespace Pattern

theorem restsPlain_withDefault_iff {target : Pattern} {default : Expression} {span : Span} :
    (withDefault target default span).RestsPlain ↔ target.RestsPlain := by
  refine ⟨fun h => ?_, .withDefault default span⟩
  cases h with
  | withDefault _ _ htarget => exact htarget

theorem restsPlain_array_iff {elements : List (Option Pattern)} {span : Span} :
    (array elements span).RestsPlain ↔ ∀ p, some p ∈ elements → p.RestsPlain := by
  refine ⟨fun h => ?_, .array⟩
  cases h with
  | array helements => exact helements

theorem restsPlain_object_iff {properties : List PatternProperty} {last : Option Pattern}
    {span : Span} :
    (object properties last span).RestsPlain ↔
      (∀ property ∈ properties, property.value.RestsPlain) ∧ ∀ p ∈ last, p.RestsPlain := by
  refine ⟨fun h => ?_, fun h => .object h.1 h.2⟩
  cases h with
  | object hproperties hlast => exact ⟨hproperties, hlast⟩

theorem restsPlain_rest_iff {argument : Pattern} {span : Span} :
    (rest argument span).RestsPlain ↔ argument.isDefault = false ∧ argument.RestsPlain := by
  refine ⟨fun h => ?_, fun h => .rest span h.1 h.2⟩
  cases h with
  | rest _ hdefault hargument => exact ⟨hdefault, hargument⟩

end Pattern

mutual

/-- A pattern has plain rest elements exactly if the expression that it is read from has plain
spreads. -/
theorem Expression.restsPlain_toPattern_iff (e : Expression) {p : Pattern}
    (h : e.toPattern rules use = .ok p) : p.RestsPlain ↔ e.SpreadsPlain := by
  cases e with
  | identifier name span =>
    simp only [Expression.toPattern, except_bind_eq_ok] at h
    obtain ⟨-, -, h⟩ := h
    cases h
    exact iff_of_true (.identifier name span) (.identifier name span)
  | member object property computed optional span =>
    simp only [Expression.toPattern] at h
    cases use with
    | binding => cases h
    | assignment =>
      obtain ⟨-, -, h⟩ := except_bind_eq_ok.1 h
      cases h
      exact iff_of_true (.member _) (.member object property computed optional span)
  | assignment operator target value span =>
    cases operator with
    | assign =>
      simp only [Expression.toPattern, except_bind_eq_ok] at h
      obtain ⟨target', htarget, h⟩ := h
      cases h
      rw [Pattern.restsPlain_withDefault_iff, Expression.spreadsPlain_assignment_iff]
      exact target.restsPlain_toPattern_iff htarget
    | _ => simp [Expression.toPattern] at h
  | array elements span =>
    simp only [Expression.toPattern, except_bind_eq_ok] at h
    obtain ⟨patterns, hpatterns, h⟩ := h
    cases h
    rw [Pattern.restsPlain_array_iff, Expression.spreadsPlain_array_iff]
    exact restsPlain_elementsToPatterns_iff elements hpatterns
  | object properties span =>
    simp only [Expression.toPattern, except_bind_eq_ok] at h
    obtain ⟨⟨patterns, last⟩, hpatterns, h⟩ := h
    cases h
    rw [Pattern.restsPlain_object_iff, Expression.spreadsPlain_object_iff]
    exact restsPlain_propertiesToPatterns_iff properties hpatterns
  | _ => simp [Expression.toPattern] at h
termination_by sizeOf e

theorem AssignmentTarget.restsPlain_toPattern_iff (target : AssignmentTarget) {p : Pattern}
    (h : target.toPattern rules use = .ok p) : p.RestsPlain ↔ target.SpreadsPlain := by
  cases target with
  | simple e => exact e.restsPlain_toPattern_iff h
  | pattern q =>
    cases AssignmentTarget.eq_of_toPattern h
    exact Iff.rfl
termination_by sizeOf target

theorem restsPlain_elementsToPatterns_iff (elements : List (Option Expression))
    {patterns : List (Option Pattern)} (h : elementsToPatterns rules use elements = .ok patterns) :
    (∀ p, some p ∈ patterns → p.RestsPlain) ↔ ∀ e, some e ∈ elements → e.SpreadsPlain := by
  cases elements with
  | nil =>
    cases h
    simp
  | cons element others =>
    cases element with
    | none =>
      simp only [elementsToPatterns, except_bind_eq_ok] at h
      obtain ⟨patterns, hpatterns, h⟩ := h
      cases h
      simpa using restsPlain_elementsToPatterns_iff others hpatterns
    | some e =>
      unfold elementsToPatterns at h
      split at h
      · next heq => cases heq
      · next heq => cases heq
      · next argument span heq =>
        cases heq
        obtain ⟨pattern, hpattern, h⟩ := except_bind_eq_ok.1 h
        cases h
        have ih := argument.restsPlain_toPattern_iff hpattern
        simp [Pattern.restsPlain_rest_iff, Expression.spreadsPlain_spread_iff, ih,
          Expression.isDefault_toPattern hpattern]
      · next e' others' _ heq =>
        cases heq
        simp only [except_bind_eq_ok] at h
        obtain ⟨pattern, hpattern, patterns, hpatterns, h⟩ := h
        cases h
        have ihe := e.restsPlain_toPattern_iff hpattern
        have ihothers := restsPlain_elementsToPatterns_iff others hpatterns
        simp [ihe, ihothers]
termination_by sizeOf elements

theorem restsPlain_propertiesToPatterns_iff (properties : List ObjectProperty)
    {patterns : List PatternProperty} {last : Option Pattern}
    (h : propertiesToPatterns rules use properties = .ok (patterns, last)) :
    ((∀ property ∈ patterns, property.value.RestsPlain) ∧ ∀ p ∈ last, p.RestsPlain) ↔
      ∀ property ∈ properties, property.SpreadsPlain := by
  unfold propertiesToPatterns at h
  split at h
  · cases h
    simp
  · next argument span =>
    obtain ⟨pattern, hpattern, h⟩ := except_bind_eq_ok.1 h
    cases h
    have ih := argument.restsPlain_toPattern_iff hpattern
    simp [Pattern.restsPlain_rest_iff, ObjectProperty.SpreadsPlain, ih,
      Expression.isDefault_toPattern hpattern]
  · next key value shorthand computed span others =>
    simp only [except_bind_eq_ok] at h
    obtain ⟨pattern, hpattern, ⟨patterns, last⟩, hpatterns, h⟩ := h
    cases h
    have ihvalue := value.restsPlain_toPattern_iff hpattern
    have ihothers := restsPlain_propertiesToPatterns_iff others hpatterns
    have hproperty :
        (ObjectProperty.property key value .init false shorthand computed span).SpreadsPlain ↔
          value.SpreadsPlain := Iff.rfl
    rw [List.forall_mem_cons, List.forall_mem_cons, hproperty, ← ihothers, ← ihvalue, and_assoc]
  · cases h
  · cases h
termination_by sizeOf properties

end

/-- Arguments of a call that are read as parameters. -/
theorem restsPlain_argumentsToParams_iff (arguments : List Expression) {params : List Pattern}
    (h : argumentsToParams rules arguments = .ok params) :
    (∀ p ∈ params, p.RestsPlain) ↔ ∀ e ∈ arguments, e.SpreadsPlain := by
  fun_induction argumentsToParams rules arguments generalizing params with
  | case1 =>
    cases h
    simp
  | case2 argument span =>
    obtain ⟨pattern, hpattern, h⟩ := except_bind_eq_ok.1 h
    cases h
    simp [Pattern.restsPlain_rest_iff, Expression.spreadsPlain_spread_iff,
      argument.restsPlain_toPattern_iff hpattern, Expression.isDefault_toPattern hpattern]
  | case3 e others _ ih =>
    simp only [except_bind_eq_ok] at h
    obtain ⟨pattern, hpattern, params, hparams, h⟩ := h
    cases h
    simp [e.restsPlain_toPattern_iff hpattern, ih hparams]

/-! ## Programs -/

/-- The rest elements of the program that are read as such have no default values. -/
structure Program.RestsPlain (p : Program) : Prop where
  functions : ∀ path f, Node.Occurs (.program p) path (.function f) → ∀ q ∈ f.params, q.RestsPlain
  declarators : ∀ path d, Node.Occurs (.program p) path (.declarator d) → d.id.RestsPlain
  loops : ∀ path kind id, Node.Occurs (.program p) path (.forTarget (.variable kind id)) →
    id.RestsPlain
  handlers : ∀ path handler, Node.Occurs (.program p) path (.catchClause handler) →
    ∀ q ∈ handler.param, q.RestsPlain
  /-- The last parameter of an arrow function that is not async. -/
  arrows : ∀ path params body span,
    Node.Occurs (.program p) path (.expression (.arrow params body false span)) →
      ∀ q ∈ params, q.isDefaultedRest = false

theorem parse_restsPlain {σ : Type} {source : String} {options : Options} {hooks : Hooks σ}
    {initial : σ} {p : Program} (h : parseWith source options hooks initial = .ok p) :
    p.RestsPlain := by
  have hreturns := Survey.returns_unpositioned source options hooks initial
  rw [h] at hreturns
  have hbinds (path : List Node) (n : Node) (hn : Node.Occurs (.program p) path n) :
      n.BindsPlainly := (hreturns.lawful hn).settable.binds
  exact ⟨fun path f hf => hbinds path _ hf, fun path d hd => hbinds path _ hd,
    fun path kind id hid => hbinds path _ hid, fun path handler hh => hbinds path _ hh,
    fun path params body span ha => hbinds path _ ha⟩

/-- A rest element has a default value only if it is re-read from a spread, and then exactly if the
spread is of an assignment by `=`. In what a program binds by reading it as such, and as the last
parameter of an arrow function that is not async, there is none. An expression in front of `=`, `in`
or `of` or among the parameters of an arrow function, and the arguments that become the parameters
of an async one, are read as patterns which have one exactly if a spread among them is of an
assignment. -/
theorem rests_plain_unless_reread {σ : Type} (source : String) (options : Options)
    (hooks : Hooks σ) (initial : σ) (p : Program) (rules : NameRules) (use : PatternUse)
    (e : Expression) (q : Pattern) (arguments : List Expression) (params : List Pattern) :
    (parseWith source options hooks initial = .ok p → p.RestsPlain) ∧
    (e.toPattern rules use = .ok q → (q.RestsPlain ↔ e.SpreadsPlain)) ∧
    (argumentsToParams rules arguments = .ok params →
      ((∀ q ∈ params, q.RestsPlain) ↔ ∀ e ∈ arguments, e.SpreadsPlain)) :=
  ⟨parse_restsPlain, e.restsPlain_toPattern_iff, restsPlain_argumentsToParams_iff arguments⟩

/-- Rest elements of a method and of a loop that declares, and a literal that is read as a pattern
although its spread is of an assignment. -/
theorem rests_plain_unless_reread_of_method :
    (∃ p, parse "(\x7b f(...[a]) \x7b for (const [...b] of c); \x7d \x7d)" {} = .ok p ∧
      p.RestsPlain) ∧
    ∃ q, (Expression.array [some (.spread (.assignment .assign (.simple (.identifier "a" default))
        (.identifier "b" default) default) default)] default).toPattern ⟨false, .script⟩
      .assignment = .ok q ∧ ¬q.RestsPlain := by
  constructor
  · have hok : (parse "(\x7b f(...[a]) \x7b for (const [...b] of c); \x7d \x7d)" {}).isOk =
        true := by
      decide +kernel
    cases hparse : parse "(\x7b f(...[a]) \x7b for (const [...b] of c); \x7d \x7d)" {} with
    | error e =>
      rw [hparse] at hok
      cases hok
    | ok p =>
      have hplain := (rests_plain_unless_reread _ _ .privateNames {} p ⟨false, .script⟩ .assignment
        (.identifier "a" default) (.identifier "a" default) [] []).1 hparse
      exact ⟨p, rfl, hplain⟩
  · have hread : ∃ q, (Expression.array [some (.spread (.assignment .assign
        (.simple (.identifier "a" default)) (.identifier "b" default) default) default)]
        default).toPattern ⟨false, .script⟩ .assignment = .ok q := ⟨_, rfl⟩
    obtain ⟨q, hq⟩ := hread
    refine ⟨q, hq, fun hplain => ?_⟩
    have hspreads := ((rests_plain_unless_reread "" {} .privateNames {} ⟨[], default⟩ _ _ _ q
      [] []).2.1 hq).1 hplain
    have helement := Expression.spreadsPlain_array_iff.1 hspreads _ List.mem_cons_self
    cases (Expression.spreadsPlain_spread_iff.1 helement).1

/-- The only pattern in the array pattern that the only statement of a program assigns to. -/
def Program.assignedElement? : Program → Option Pattern
  | ⟨[.expression (.assignment _ (.pattern (.array [some q] _)) _ _) _], _⟩ => some q
  | _ => none

/-- A spread of an assignment is accepted in front of `=`, and becomes a rest element with a default
value. -/
theorem rest_with_default_accepted :
    ∃ p path q, parse "[...a = 1] = b" {} = .ok p ∧
      Node.Occurs (.program p) path (.pattern q) ∧ q.isDefaultedRest = true := by
  have hfound : (parse "[...a = 1] = b" {}).toOption.any
      (·.assignedElement?.any Pattern.isDefaultedRest) = true := by
    decide +kernel
  obtain ⟨p, hp, hfound⟩ := (Option.any_eq_true _ _).1 hfound
  obtain ⟨q, hq, hrest⟩ := (Option.any_eq_true _ _).1 hfound
  have hparse : parse "[...a = 1] = b" {} = .ok p := by
    cases hresult : parse "[...a = 1] = b" {} with
    | error e =>
      rw [hresult] at hp
      cases hp
    | ok p' =>
      rw [hresult] at hp
      cases hp
      rfl
  unfold Program.assignedElement? at hq
  split at hq
  · next operator q arraySpan value span statementSpan programSpan =>
    cases hq
    let array := Pattern.array [some q] arraySpan
    let assignment := Expression.assignment operator (.pattern array) value span
    have hstatement : Node.Occurs (.program ⟨[.expression assignment statementSpan], programSpan⟩) _
        (.statement (.expression assignment statementSpan)) := .child .here (by simp)
    have hassignment := hstatement.child (c := .expression assignment) (by simp)
    have htarget :=
      hassignment.child (c := .assignmentTarget (.pattern array)) (by simp [assignment])
    have harray := htarget.child (c := .pattern array) (by simp)
    exact ⟨_, _, q, hparse, harray.child (by simp [array]), hrest⟩
  · cases hq

end EcmaScript
