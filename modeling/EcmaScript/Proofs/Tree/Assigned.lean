import EcmaScript.Proofs.Tree.Shape

/-!
What is assigned to and what is bound.

A value can be assigned to a name and to a member access that no optional link leads up to. A rest
element takes what other patterns leave, so that there is nothing for which it could have a default
value; `Pattern.RestsPlain` says so of all rest elements of a pattern, and `Expression.SpreadsPlain`
of the spreads of a literal that can be read as one.
-/

namespace EcmaScript

namespace Expression

def isMember : Expression → Bool
  | .member _ _ _ _ _ => true
  | _ => false

def isPlainAssignment : Expression → Bool
  | .assignment .assign _ _ _ => true
  | _ => false

/-- Whether the expression is a member access or a call by `?.`. -/
def isOptionalLink : Expression → Bool
  | .member _ _ _ optional _ | .call _ _ optional _ => optional
  | _ => false

/-- The chain of an expression: the expression itself and, from a member access on to its object and
from a call on to its callee, what it is applied to. -/
inductive Chain : Expression → Expression → Prop where
  | here (e : Expression) : Chain e e
  | object {object link : Expression} (property : Expression) (computed optional : Bool)
      (span : Span) (h : Chain object link) :
      Chain (.member object property computed optional span) link
  | callee {callee link : Expression} (arguments : List Expression) (optional : Bool)
      (span : Span) (h : Chain callee link) : Chain (.call callee arguments optional span) link

/-- A chain is optional if one of its links is. -/
theorem inOptionalChain_eq_true_iff {e : Expression} :
    e.inOptionalChain = true ↔ ∃ link, e.Chain link ∧ link.isOptionalLink = true := by
  constructor
  · intro h
    fun_induction inOptionalChain e with
    | case1 object property computed optional span ih =>
      rcases Bool.or_eq_true_iff.1 h with hlink | hobject
      · exact ⟨_, .here _, hlink⟩
      · obtain ⟨link, hchain, hlink⟩ := ih hobject
        exact ⟨link, .object property computed optional span hchain, hlink⟩
    | case2 callee arguments optional span ih =>
      rcases Bool.or_eq_true_iff.1 h with hlink | hcallee
      · exact ⟨_, .here _, hlink⟩
      · obtain ⟨link, hchain, hlink⟩ := ih hcallee
        exact ⟨link, .callee arguments optional span hchain, hlink⟩
    | case3 => cases h
  · rintro ⟨link, hchain, hlink⟩
    induction hchain with
    | here e =>
      cases e with
      | member | call => exact Bool.or_eq_true_iff.2 (.inl hlink)
      | _ => cases hlink
    | object _ _ _ _ _ ih | callee _ _ _ _ ih => exact Bool.or_eq_true_iff.2 (.inr (ih hlink))

/-- A value can be assigned to the expression: it is a name, or a member access with no optional
link along its chain. -/
structure IsAssignable (e : Expression) : Prop where
  reference : e.isReference
  not_optional : ∀ link, e.Chain link → link.isOptionalLink = false

theorem IsAssignable.name (name : String) (span : Span) : (identifier name span).IsAssignable where
  reference := rfl
  not_optional := by
    rintro _ ⟨⟩
    rfl

theorem IsAssignable.member {e : Expression} (hmember : e.isMember)
    (hchain : e.inOptionalChain = false) : e.IsAssignable where
  reference := by
    cases e with
    | member => rfl
    | _ => cases hmember
  not_optional link hlink := by
    refine Bool.eq_false_iff.2 fun hoptional => ?_
    rw [inOptionalChain_eq_true_iff.2 ⟨link, hlink, hoptional⟩] at hchain
    cases hchain

end Expression

/-! ## Rest elements and spreads -/

namespace Pattern

/-- No rest element of the pattern has a default value. -/
inductive RestsPlain : Pattern → Prop where
  | identifier (name : String) (span : Span) : RestsPlain (.identifier name span)
  | member (e : Expression) : RestsPlain (.member e)
  | object {properties : List PatternProperty} {last : Option Pattern} {span : Span}
      (hproperties : ∀ property ∈ properties, property.value.RestsPlain)
      (hlast : ∀ p ∈ last, p.RestsPlain) : RestsPlain (.object properties last span)
  | array {elements : List (Option Pattern)} {span : Span}
      (helements : ∀ p, some p ∈ elements → p.RestsPlain) : RestsPlain (.array elements span)
  | withDefault {target : Pattern} (default : Expression) (span : Span)
      (htarget : target.RestsPlain) : RestsPlain (.withDefault target default span)
  | rest {argument : Pattern} (span : Span) (hdefault : argument.isDefault = false)
      (hargument : argument.RestsPlain) : RestsPlain (.rest argument span)

/-- Whether the pattern is a rest element with a default value. -/
def isDefaultedRest : Pattern → Bool
  | .rest argument _ => argument.isDefault
  | _ => false

theorem RestsPlain.isDefaultedRest {p : Pattern} (h : p.RestsPlain) :
    p.isDefaultedRest = false := by
  cases h with
  | rest _ hdefault _ => exact hdefault
  | _ => rfl

theorem isDefaultedRest_of_not_rest {p : Pattern} (h : p.isRest = false) :
    p.isDefaultedRest = false := by
  cases p with
  | rest => cases h
  | _ => rfl

end Pattern

namespace Node

/-- What the node assigns to can be assigned to. -/
def AssignsProperly : Node → Prop
  | .assignmentTarget (.simple e) | .forTarget (.expression e) | .expression (.update _ _ e _) =>
    e.IsAssignable
  | .pattern (.member e) => e.isMember ∧ e.IsAssignable
  | .expression (.assignment operator (.pattern _) _ _) => operator = .assign
  | _ => True

/-- The patterns that the node binds by reading them as such have plain rest elements. -/
def BindsPlainly : Node → Prop
  | .function f => ∀ p ∈ f.params, p.RestsPlain
  | .expression (.arrow params _ false _) => ∀ p ∈ params, p.isDefaultedRest = false
  | .declarator d => d.id.RestsPlain
  | .forTarget (.variable _ id) => id.RestsPlain
  | .catchClause handler => ∀ p ∈ handler.param, p.RestsPlain
  | _ => True

/-- What the node assigns to and binds is as it must be. -/
structure IsSettable (n : Node) : Prop where
  assigns : n.AssignsProperly
  binds : n.BindsPlainly

end Node

end EcmaScript
