import EcmaScript.Tree.Target

/-!
Expressions that are read as patterns.

Where an expression turns out to be a pattern, it is read as the same pattern whether it binds or
assigns, as long as its leaves are names. The elements of an array and the properties of an object
are read one after the other, so what has been read of them leads to the whole.
-/

namespace EcmaScript

/-- Whether the expression has a form that patterns without a default value have. -/
def Expression.hasPatternForm : Expression → Bool
  | .identifier _ _ | .array _ _ | .object _ _ => true
  | _ => false

structure Expression.ReadsAs (rules : NameRules) (e : Expression) (p : Pattern) : Prop where
  toPattern : ∀ use, e.toPattern rules use = .ok p
  bindable : p.checkBindable = .ok ()

structure ElementsRead (rules : NameRules) (patterns : List (Option Pattern))
    (elements : List (Option Expression)) : Prop where
  toPatterns : ∀ use, elementsToPatterns rules use elements = .ok patterns
  bindable : elementsBindable patterns = .ok ()

/-- What has been read of an array, last element first, leads to an array read as a pattern. -/
def ElementsLead (rules : NameRules) (patterns : List (Option Pattern))
    (elements : List (Option Expression)) : Prop :=
  ∀ patterns' elements', ElementsRead rules patterns' elements' →
    ElementsRead rules (patterns.reverse ++ patterns') (elements.reverse ++ elements')

structure PropertiesRead (rules : NameRules) (patterns : List PatternProperty)
    (rest : Option Pattern) (properties : List ObjectProperty) : Prop where
  toPatterns : ∀ use, propertiesToPatterns rules use properties = .ok (patterns, rest)
  bindable : propertiesBindable patterns = .ok ()
  restBindable : optionalBindable rest = .ok ()

/-- What has been read of an object, last property first, leads to an object read as a pattern. -/
def PropertiesLead (rules : NameRules) (patterns : List PatternProperty)
    (properties : List ObjectProperty) : Prop :=
  ∀ patterns' rest properties', PropertiesRead rules patterns' rest properties' →
    PropertiesRead rules (patterns.reverse ++ patterns') rest (properties.reverse ++ properties')

-- The equations are worked out here, once, and not by each proof that rewrites with them.
attribute [local simp] Expression.toPattern AssignmentTarget.toPattern elementsToPatterns
  propertiesToPatterns Pattern.checkBindable propertiesBindable optionalBindable elementsBindable

variable {rules : NameRules} {e : Expression} {p : Pattern} {span : Span}

theorem Expression.isArrow_of_hasPatternForm (h : e.hasPatternForm = true) : e.isArrow = false := by
  cases e <;> first | rfl | cases h

namespace NameRules

variable {name : String} {position : Position}

/-- A name that may be bound may be used. -/
theorem checkWord_of_checkBinding (h : rules.checkBinding name position = .ok ()) :
    rules.checkWord name position = .ok () := by
  unfold checkBinding at h
  cases hword : rules.checkWord name position with
  | ok _ => rfl
  | error d =>
    rw [hword] at h
    cases h

/-- A name that may be bound may be assigned. -/
theorem checkSimpleTarget_of_checkBinding (h : rules.checkBinding name span.start = .ok ()) :
    rules.checkSimpleTarget (.identifier name span) = .ok () := by
  have hword := checkWord_of_checkBinding h
  unfold checkBinding at h
  rw [checkSimpleTarget]
  cases hstrict : rules.strict && isRestricted name with
  | false => rfl
  | true =>
    rw [hword, hstrict] at h
    cases h

end NameRules

namespace ElementsRead

variable {elements : List (Option Expression)} {patterns : List (Option Pattern)}

theorem nil : ElementsRead rules [] [] :=
  ⟨fun _ => by rw [elementsToPatterns]; rfl, by rw [elementsBindable]⟩

theorem hole (h : ElementsRead rules patterns elements) :
    ElementsRead rules (none :: patterns) (none :: elements) where
  toPatterns use := by
    rw [elementsToPatterns, h.toPatterns use]
    rfl
  bindable := by rw [elementsBindable, h.bindable]

theorem rest (h : e.ReadsAs rules p) :
    ElementsRead rules [some (.rest p span)] [some (.spread e span)] where
  toPatterns use := by
    rw [elementsToPatterns, h.toPattern use]
    rfl
  bindable := by
    simp only [elementsBindable, Pattern.checkBindable, h.bindable]
    rfl

theorem cons (hfirst : e.ReadsAs rules p) (h : ElementsRead rules patterns elements) :
    ElementsRead rules (some p :: patterns) (some e :: elements) where
  toPatterns use := by
    have hspread : ∀ argument span, e ≠ .spread argument span := by
      rintro argument span rfl
      have h := hfirst.toPattern use
      rw [Expression.toPattern] at h
      · cases h
      all_goals intros; contradiction
    rw [elementsToPatterns]
    · rw [hfirst.toPattern use, h.toPatterns use]
      rfl
    · intro argument span _ heq
      exact hspread argument span heq
  bindable := by
    rw [elementsBindable, hfirst.bindable]
    exact h.bindable

end ElementsRead

namespace ElementsLead

variable {elements : List (Option Expression)} {patterns : List (Option Pattern)}

theorem nil : ElementsLead rules [] [] := fun _ _ h => h

theorem push {element : Option Expression} {pattern : Option Pattern}
    (h : ElementsLead rules patterns elements)
    (hpush : ∀ {patterns' elements'}, ElementsRead rules patterns' elements' →
      ElementsRead rules (pattern :: patterns') (element :: elements')) :
    ElementsLead rules (pattern :: patterns) (element :: elements) := by
  intro patterns' elements' hrest
  simpa using h _ _ (hpush hrest)

theorem close (h : ElementsLead rules patterns elements) :
    ElementsRead rules patterns.reverse elements.reverse := by
  simpa using h _ _ .nil

theorem closeRest (h : ElementsLead rules patterns elements) (he : e.ReadsAs rules p) :
    ElementsRead rules (some (.rest p span) :: patterns).reverse
      (some (.spread e span) :: elements).reverse := by
  simpa using h _ _ (.rest he)

end ElementsLead

namespace PropertiesRead

variable {properties : List ObjectProperty} {patterns : List PatternProperty}
  {restPattern : Option Pattern}

theorem nil : PropertiesRead rules [] none [] :=
  ⟨fun _ => by rw [propertiesToPatterns]; rfl, by rw [propertiesBindable],
    by rw [optionalBindable]⟩

theorem rest (h : e.ReadsAs rules p) :
    PropertiesRead rules [] (some (.rest p span)) [.spread e span] where
  toPatterns use := by
    rw [propertiesToPatterns, h.toPattern use]
    rfl
  bindable := by rw [propertiesBindable]
  restBindable := by rw [optionalBindable, Pattern.checkBindable, h.bindable]

theorem cons (h : PropertiesRead rules patterns restPattern properties)
    (hvalue : e.ReadsAs rules p) (key : PropertyKey) (shorthand computed : Bool) (span : Span) :
    PropertiesRead rules (⟨key, p, shorthand⟩ :: patterns) restPattern
      (.property key e .init false shorthand computed span :: properties) where
  toPatterns use := by
    rw [propertiesToPatterns, hvalue.toPattern use, h.toPatterns use]
    rfl
  bindable := by
    rw [propertiesBindable, hvalue.bindable]
    exact h.bindable
  restBindable := h.restBindable

end PropertiesRead

namespace PropertiesLead

variable {properties : List ObjectProperty} {patterns : List PatternProperty}

theorem nil : PropertiesLead rules [] [] := fun _ _ _ h => h

theorem push (h : PropertiesLead rules patterns properties) (hvalue : e.ReadsAs rules p)
    (key : PropertyKey) (shorthand computed : Bool) (span : Span) :
    PropertiesLead rules (⟨key, p, shorthand⟩ :: patterns)
      (.property key e .init false shorthand computed span :: properties) := by
  intro patterns' rest properties' hrest
  simpa using h _ _ _ (hrest.cons hvalue key shorthand computed span)

theorem close (h : PropertiesLead rules patterns properties) :
    PropertiesRead rules patterns.reverse none properties.reverse := by
  simpa using h _ _ _ .nil

theorem closeRest (h : PropertiesLead rules patterns properties) (he : e.ReadsAs rules p) :
    PropertiesRead rules patterns.reverse (some (.rest p span))
      (.spread e span :: properties).reverse := by
  simpa using h _ _ _ (.rest he)

end PropertiesLead

namespace Expression.ReadsAs

theorem identifier {name : String} (h : rules.checkBinding name span.start = .ok ()) :
    (Expression.identifier name span).ReadsAs rules (.identifier name span) where
  toPattern use := by
    rw [Expression.toPattern, h]
    rfl
  bindable := by rw [Pattern.checkBindable]

theorem array {elements : List (Option Expression)} {patterns : List (Option Pattern)}
    (h : ElementsRead rules patterns elements) :
    (Expression.array elements span).ReadsAs rules (.array patterns span) where
  toPattern use := by
    rw [Expression.toPattern, h.toPatterns use]
    rfl
  bindable := by rw [Pattern.checkBindable, h.bindable]

theorem object {properties : List ObjectProperty} {patterns : List PatternProperty}
    {rest : Option Pattern} (h : PropertiesRead rules patterns rest properties) :
    (Expression.object properties span).ReadsAs rules (.object patterns rest span) where
  toPattern use := by
    rw [Expression.toPattern, h.toPatterns use]
    rfl
  bindable := by
    rw [Pattern.checkBindable, h.bindable]
    exact h.restBindable

/-- A name in front of a default value. -/
theorem withDefault {name : String}
    (h : (Expression.identifier name span).ReadsAs rules (.identifier name span))
    (value : Expression) (whole : Span) :
    (Expression.assignment .assign (.simple (.identifier name span)) value whole).ReadsAs rules
      (.withDefault (.identifier name span) value whole) where
  toPattern use := by
    rw [Expression.toPattern, AssignmentTarget.toPattern, h.toPattern use]
    rfl
  bindable := by rw [Pattern.checkBindable, h.bindable]

/-- In front of `=` the expression is a target, and with the value behind it a pattern with that
default value. -/
theorem toTarget (h : e.ReadsAs rules p) (hform : e.hasPatternForm = true) :
    ∃ target, e.toTarget rules .assign = .ok target ∧ ∀ value span,
      (Expression.assignment .assign target value span).ReadsAs rules (.withDefault p value span) := by
  have hbindable (value : Expression) (span : Span) :
      (Pattern.withDefault p value span).checkBindable = .ok () := by
    rw [Pattern.checkBindable, h.bindable]
  -- An array or object literal is read as a pattern before its value is.
  have hpattern : e.toTarget rules .assign = .ok (.pattern p) →
      ∃ target, e.toTarget rules .assign = .ok target ∧ ∀ value span,
        (Expression.assignment .assign target value span).ReadsAs rules
          (.withDefault p value span) := by
    intro htarget
    refine ⟨_, htarget, fun value span => ⟨fun use => ?_, hbindable value span⟩⟩
    rw [Expression.toPattern, AssignmentTarget.toPattern, h.bindable]
    cases use <;> rfl
  cases e with
  | identifier name nameSpan =>
    have hname : rules.checkBinding name nameSpan.start = .ok () := by
      have hread := h.toPattern .binding
      rw [Expression.toPattern] at hread
      cases hcheck : rules.checkBinding name nameSpan.start with
      | ok _ => rfl
      | error d =>
        rw [hcheck] at hread
        cases hread
    obtain rfl : p = .identifier name nameSpan := by
      have hread := (identifier hname).toPattern .binding
      rw [h.toPattern] at hread
      cases hread
      rfl
    refine ⟨.simple (.identifier name nameSpan), ?_, h.withDefault⟩
    rw [Expression.toTarget, NameRules.checkSimpleTarget_of_checkBinding hname]
    rfl
  | array elements span =>
    refine hpattern ?_
    rw [Expression.toTarget, if_pos (by rfl), h.toPattern .assignment]
    rfl
  | object properties span =>
    refine hpattern ?_
    rw [Expression.toTarget, if_pos (by rfl), h.toPattern .assignment]
    rfl
  | _ => cases hform

end Expression.ReadsAs

end EcmaScript
