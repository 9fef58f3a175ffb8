import EcmaScript.Proofs.Tree.Twins

/-!
Questions about twins.

What the grammar asks of a tree that it has read does not depend on the positions in it: a check
passes for one of two twins exactly if it does for the other, and an expression is read as a pattern
or as a target if its twin is, as twins again.
-/

namespace EcmaScript

/-! ## Checks -/

/-- The first check passes exactly if the second does, with twin results. -/
class Agree {α : Type} [Bare α] (c c' : Except Diagnostic α) : Prop where
  bare_eq : c.toOption.map bare = c'.toOption.map bare

namespace Agree

variable {α β : Type} [Bare α] [Bare β]

instance refl (c : Except Diagnostic α) : Agree c c := ⟨rfl⟩

theorem error (d d' : Diagnostic) : Agree (.error d : Except Diagnostic α) (.error d') := ⟨rfl⟩

theorem ok {a a' : α} [h : Twins a a'] : Agree (.ok a) (.ok a') := ⟨congrArg some h.bare_eq⟩

theorem of_ok {c c' : Except Diagnostic α} (h : Agree c c') {a : α} (ha : c = .ok a) :
    ∃ a', c' = .ok a' ∧ Twins a a' := by
  have h := h.bare_eq
  subst ha
  cases c' with
  | error d => cases h
  | ok a' => exact ⟨a', rfl, ⟨Option.some.inj h⟩⟩

theorem bind {c c' : Except Diagnostic α} {f f' : α → Except Diagnostic β} (h : Agree c c')
    (hf : ∀ a a', Twins a a' → Agree (f a) (f' a')) : Agree (c >>= f) (c' >>= f') := by
  cases c with
  | error d =>
    cases c' with
    | error d' => exact .error d d'
    | ok a' => cases h.bare_eq
  | ok a =>
    obtain ⟨a', rfl, ha⟩ := h.of_ok rfl
    exact hf a a' ha

theorem map {c c' : Except Diagnostic α} {f f' : α → β} (h : Agree c c')
    (hf : ∀ a a', Twins a a' → Twins (f a) (f' a')) : Agree (f <$> c) (f' <$> c') :=
  bind h fun a a' ha => @ok _ _ _ _ (hf a a' ha)

variable (rules : NameRules)

instance checkWord (name : String) (p p' : Position) :
    Agree (rules.checkWord name p) (rules.checkWord name p') := by
  unfold NameRules.checkWord
  cases rejectWord? name rules.strict rules.goal
  · exact refl _
  · exact error _ _

instance checkBinding (name : String) (p p' : Position) :
    Agree (rules.checkBinding name p) (rules.checkBinding name p') := by
  unfold NameRules.checkBinding
  refine bind inferInstance fun _ _ _ => ?_
  split
  · exact error _ _
  · exact refl _

end Agree

/-! ### Targets -/

instance Twins.isArrow {e e' : Expression} [h : Twins e e'] : Twins e.isArrow e'.isArrow := by
  have hbare (e : Expression) : e.bare.isArrow = e.isArrow := by cases e <;> rfl
  exact ⟨(hbare e).symm.trans ((congrArg Expression.isArrow h.bare_eq).trans (hbare e'))⟩

theorem Expression.inOptionalChain_bare (e : Expression) :
    e.bare.inOptionalChain = e.inOptionalChain := by
  cases e with
  | member base property computed optional span =>
    exact congrArg (optional || ·) base.inOptionalChain_bare
  | call callee arguments optional span =>
    exact congrArg (optional || ·) callee.inOptionalChain_bare
  | _ => rfl

instance Twins.inOptionalChain {e e' : Expression} [h : Twins e e'] :
    Twins e.inOptionalChain e'.inOptionalChain :=
  ⟨e.inOptionalChain_bare.symm.trans <|
    (congrArg Expression.inOptionalChain h.bare_eq).trans e'.inOptionalChain_bare⟩

/-! ### Twins of a given form -/

section

variable {e : Expression} {s : Span}

theorem Twins.eq_identifier {name : String} (h : Twins (.identifier name s) e) :
    ∃ s', e = .identifier name s' := by
  have h := h.bare_eq
  cases e <;> cases h
  exact ⟨_, rfl⟩

theorem Twins.eq_member {object property : Expression} {computed optional : Bool}
    (h : Twins (.member object property computed optional s) e) :
    ∃ object' property' s', e = .member object' property' computed optional s' ∧
      Twins object object' ∧ Twins property property' := by
  have h := h.bare_eq
  cases e with
  | member object' property' _ _ s' =>
    injection h with hobject hproperty hcomputed hoptional
    subst hcomputed hoptional
    exact ⟨_, _, _, rfl, ⟨hobject⟩, ⟨hproperty⟩⟩
  | _ => cases h

theorem Twins.eq_array {elements : List (Option Expression)} (h : Twins (.array elements s) e) :
    ∃ elements' s', e = .array elements' s' ∧ Twins elements elements' := by
  have h := h.bare_eq
  cases e with
  | array elements' s' =>
    injection h with helements
    rw [bareElements_eq, bareElements_eq] at helements
    exact ⟨_, _, rfl, ⟨helements⟩⟩
  | _ => cases h

theorem Twins.eq_object {properties : List ObjectProperty}
    (h : Twins (.object properties s) e) :
    ∃ properties' s', e = .object properties' s' ∧ Twins properties properties' := by
  have h := h.bare_eq
  cases e with
  | object properties' s' =>
    injection h with hproperties
    rw [bareProperties_eq, bareProperties_eq] at hproperties
    exact ⟨_, _, rfl, ⟨hproperties⟩⟩
  | _ => cases h

theorem Twins.eq_assignment {operator : AssignmentOperator} {target : AssignmentTarget}
    {value : Expression} (h : Twins (.assignment operator target value s) e) :
    ∃ target' value' s', e = .assignment operator target' value' s' ∧
      Twins target target' ∧ Twins value value' := by
  have h := h.bare_eq
  cases e with
  | assignment _ target' value' s' =>
    injection h with hoperator htarget hvalue
    subst hoperator
    exact ⟨_, _, _, rfl, ⟨htarget⟩, ⟨hvalue⟩⟩
  | _ => cases h

theorem Twins.eq_spread {argument : Expression} (h : Twins (.spread argument s) e) :
    ∃ argument' s', e = .spread argument' s' ∧ Twins argument argument' := by
  have h := h.bare_eq
  cases e with
  | spread argument' s' =>
    injection h with hargument
    exact ⟨_, _, rfl, ⟨hargument⟩⟩
  | _ => cases h

theorem Twins.eq_nil {α : Type} [Bare α] {l : List α} (h : Twins [] l) : l = [] :=
  List.map_eq_nil_iff.1 h.bare_eq.symm

theorem Twins.eq_cons {α : Type} [Bare α] {a : α} {l l' : List α} (h : Twins (a :: l) l') :
    ∃ a' m, l' = a' :: m ∧ Twins a a' ∧ Twins l m := by
  have h := h.bare_eq
  cases l' with
  | nil => cases h
  | cons a' m =>
    injection h with ha hl
    exact ⟨a', m, rfl, ⟨ha⟩, ⟨hl⟩⟩

theorem Twins.eq_none {α : Type} [Bare α] {o : Option α} (h : Twins none o) : o = none :=
  Option.map_eq_none_iff.1 h.bare_eq.symm

theorem Twins.eq_some {α : Type} [Bare α] {a : α} {o : Option α} (h : Twins (some a) o) :
    ∃ a', o = some a' ∧ Twins a a' := by
  have h := h.bare_eq
  cases o with
  | none => cases h
  | some a' => exact ⟨a', rfl, ⟨Option.some.inj h⟩⟩

end

/-- What an expression may be read as. -/
inductive TargetForm where
  | name
  | member
  /-- An array or an object literal. -/
  | literal
  | assignment
  | other

def Expression.targetForm : Expression → TargetForm
  | .identifier _ _ => .name
  | .member _ _ _ _ _ => .member
  | .array _ _ | .object _ _ => .literal
  | .assignment _ _ _ _ => .assignment
  | _ => .other

theorem Twins.targetForm {e e' : Expression} (h : Twins e e') : e.targetForm = e'.targetForm := by
  have hbare (e : Expression) : e.bare.targetForm = e.targetForm := by cases e <;> rfl
  exact (hbare e).symm.trans ((congrArg Expression.targetForm h.bare_eq).trans (hbare e'))

theorem Expression.toPattern_of_other (rules : NameRules) (use : PatternUse) {e : Expression}
    (h : e.targetForm = .other) : ∃ d, e.toPattern rules use = .error d := by
  cases e <;> first | exact ⟨_, rfl⟩ | cases h

/-- An expression is a simple target only by its form. -/
theorem NameRules.checkSimpleTarget_of_form (rules : NameRules) {e : Expression}
    (hname : e.targetForm ≠ .name) (hmember : e.targetForm ≠ .member) :
    ∃ d, rules.checkSimpleTarget e = .error d := by
  cases e <;> first | exact ⟨_, rfl⟩ | exact absurd rfl hname | exact absurd rfl hmember

instance Agree.checkSimpleTarget (rules : NameRules) {e e' : Expression} [h : Twins e e'] :
    Agree (rules.checkSimpleTarget e) (rules.checkSimpleTarget e') := by
  by_cases hname : e.targetForm = .name
  · cases e with
    | identifier name span =>
      obtain ⟨_, rfl⟩ := h.eq_identifier
      simp only [NameRules.checkSimpleTarget]
      split
      · exact .error _ _
      · exact .refl _
    | _ => cases hname
  by_cases hmember : e.targetForm = .member
  · have hchain : e.inOptionalChain = e'.inOptionalChain := Twins.eq inferInstance
    cases e with
    | member object property computed optional span =>
      obtain ⟨_, _, _, rfl, -, -⟩ := h.eq_member
      simp only [NameRules.checkSimpleTarget, hchain]
      split
      · exact .error _ _
      · exact .refl _
    | _ => cases hmember
  obtain ⟨d, hd⟩ := rules.checkSimpleTarget_of_form hname hmember
  rw [h.targetForm] at hname hmember
  obtain ⟨d', hd'⟩ := rules.checkSimpleTarget_of_form hname hmember
  rw [hd, hd']
  exact .error d d'

mutual

theorem Agree.checkBindable : ∀ p p' : Pattern, Twins p p' → Agree p.checkBindable p'.checkBindable
  | .identifier _ _, p', h => by
    have h := h.bare_eq
    cases p' <;> cases h
    exact .refl _
  | .member _, p', h => by
    have h := h.bare_eq
    cases p' <;> first | exact .error _ _ | cases h
  | .object properties rest _, p', h => by
    have h := h.bare_eq
    cases p' with
    | object properties' rest' _ =>
      injection h with hproperties hrest
      rw [barePatternProperties_eq, barePatternProperties_eq] at hproperties
      rw [bareOptionalPattern_eq, bareOptionalPattern_eq] at hrest
      exact (Agree.propertiesBindable properties properties' ⟨hproperties⟩).bind fun _ _ _ =>
        Agree.optionalBindable rest rest' ⟨hrest⟩
    | _ => cases h
  | .array elements _, p', h => by
    have h := h.bare_eq
    cases p' with
    | array elements' _ =>
      injection h with helements
      rw [barePatternElements_eq, barePatternElements_eq] at helements
      exact Agree.elementsBindable elements elements' ⟨helements⟩
    | _ => cases h
  | .withDefault target _ _, p', h => by
    have h := h.bare_eq
    cases p' with
    | withDefault target' _ _ =>
      injection h with htarget
      exact Agree.checkBindable target target' ⟨htarget⟩
    | _ => cases h
  | .rest argument _, p', h => by
    have h := h.bare_eq
    cases p' with
    | rest argument' _ =>
      injection h with hargument
      exact Agree.checkBindable argument argument' ⟨hargument⟩
    | _ => cases h

theorem Agree.propertiesBindable : ∀ l l' : List PatternProperty, Twins l l' →
    Agree (EcmaScript.propertiesBindable l) (EcmaScript.propertiesBindable l')
  | [], l', h => by
    rw [h.eq_nil]
    exact .refl _
  | ⟨_, value, _⟩ :: others, l', h => by
    obtain ⟨⟨_, value', _⟩, others', rfl, hvalue, hothers⟩ := h.eq_cons
    injection hvalue.bare_eq with _ hvalue
    exact .bind (Agree.checkBindable value value' ⟨hvalue⟩) fun _ _ _ =>
      Agree.propertiesBindable others others' hothers

theorem Agree.optionalBindable : ∀ p p' : Option Pattern, Twins p p' →
    Agree (EcmaScript.optionalBindable p) (EcmaScript.optionalBindable p')
  | none, p', h => by
    rw [h.eq_none]
    exact .refl _
  | some pattern, p', h => by
    obtain ⟨pattern', rfl, hpattern⟩ := h.eq_some
    exact Agree.checkBindable pattern pattern' hpattern

theorem Agree.elementsBindable : ∀ l l' : List (Option Pattern), Twins l l' →
    Agree (EcmaScript.elementsBindable l) (EcmaScript.elementsBindable l')
  | [], l', h => by
    rw [h.eq_nil]
    exact .refl _
  | none :: others, l', h => by
    obtain ⟨_, others', rfl, hnone, hothers⟩ := h.eq_cons
    rw [hnone.eq_none]
    exact Agree.elementsBindable others others' hothers
  | some pattern :: others, l', h => by
    obtain ⟨_, others', rfl, hsome, hothers⟩ := h.eq_cons
    obtain ⟨pattern', rfl, hpattern⟩ := hsome.eq_some
    exact .bind (Agree.checkBindable pattern pattern' hpattern) fun _ _ _ =>
      Agree.elementsBindable others others' hothers

end

mutual

theorem Agree.toPattern (rules : NameRules) (use : PatternUse) :
    ∀ e e' : Expression, Twins e e' → Agree (e.toPattern rules use) (e'.toPattern rules use)
  | .identifier name span, e', h => by
    obtain ⟨_, rfl⟩ := h.eq_identifier
    simp only [Expression.toPattern]
    exact .bind inferInstance fun _ _ _ => .ok
  | .member object property computed optional span, e', h => by
    obtain ⟨_, _, _, rfl, hobject, hproperty⟩ := h.eq_member
    cases use with
    | binding => exact .error _ _
    | assignment => exact .bind (Agree.checkSimpleTarget rules) fun _ _ _ => .ok
  | .assignment operator target value span, e', h => by
    obtain ⟨target', _, _, rfl, htarget, hvalue⟩ := h.eq_assignment
    cases operator with
    | assign =>
      simp only [Expression.toPattern]
      exact .bind (Agree.targetToPattern rules use target target' htarget) fun _ _ _ => .ok
    | _ => exact .error _ _
  | .array elements span, e', h => by
    obtain ⟨elements', _, rfl, helements⟩ := h.eq_array
    simp only [Expression.toPattern]
    exact .bind (Agree.elementsToPatterns rules use elements elements' helements)
      fun _ _ _ => .ok
  | .object properties span, e', h => by
    obtain ⟨properties', _, rfl, hproperties⟩ := h.eq_object
    simp only [Expression.toPattern]
    exact .bind (Agree.propertiesToPatterns rules use properties properties' hproperties)
      fun _ _ _ => .ok
  | .privateName _, e', h | .literal _ _, e', h | .binary _ _ _ _, e', h
  | .logical _ _ _ _, e', h | .unary _ _ _, e', h | .update _ _ _ _, e', h
  | .conditional _ _ _ _, e', h | .call _ _ _ _, e', h | .new _ _ _, e', h
  | .arrow _ _ _ _, e', h | .function _ _, e', h | .class_ _ _, e', h | .this _, e', h
  | .super _, e', h | .await _ _, e', h | .yield _ _ _, e', h | .template _ _ _, e', h
  | .taggedTemplate _ _ _, e', h | .spread _ _, e', h | .sequence _ _, e', h => by
    obtain ⟨d, hd⟩ := Expression.toPattern_of_other rules use h.targetForm.symm
    rw [hd]
    exact .error _ d

theorem Agree.targetToPattern (rules : NameRules) (use : PatternUse) :
    ∀ t t' : AssignmentTarget, Twins t t' → Agree (t.toPattern rules use) (t'.toPattern rules use)
  | .simple target, t', h => by
    have h := h.bare_eq
    cases t' with
    | simple target' =>
      injection h with h
      exact Agree.toPattern rules use target target' ⟨h⟩
    | pattern _ => cases h
  | .pattern target, t', h => by
    have h := h.bare_eq
    cases t' with
    | simple _ => cases h
    | pattern target' =>
      injection h with h
      have htarget : Twins target target' := ⟨h⟩
      cases use with
      | binding => exact .bind (Agree.checkBindable _ _ htarget) fun _ _ _ => .ok
      | assignment => exact .ok

theorem Agree.elementsToPatterns (rules : NameRules) (use : PatternUse) :
    ∀ l l' : List (Option Expression), Twins l l' →
      Agree (EcmaScript.elementsToPatterns rules use l)
        (EcmaScript.elementsToPatterns rules use l')
  | [], l', h => by
    rw [h.eq_nil]
    exact .refl _
  | none :: others, l', h => by
    obtain ⟨_, others', rfl, hnone, hothers⟩ := h.eq_cons
    rw [hnone.eq_none]
    simp only [EcmaScript.elementsToPatterns]
    exact .bind (Agree.elementsToPatterns rules use others others' hothers) fun _ _ _ => .ok
  | some e :: others, l', h => by
    obtain ⟨_, others', rfl, hsome, hothers⟩ := h.eq_cons
    obtain ⟨e', rfl, he⟩ := hsome.eq_some
    unfold EcmaScript.elementsToPatterns
    split
    · next heq => cases heq
    · next heq => cases heq
    · next argument span heq =>
      cases heq
      obtain ⟨argument', _, rfl, hargument⟩ := he.eq_spread
      cases hothers.eq_nil
      exact .bind (Agree.toPattern rules use argument argument' hargument) fun _ _ _ => .ok
    · next hlast heq =>
      cases heq
      split
      · next heq => cases heq
      · next heq => cases heq
      · next heq =>
        cases heq
        obtain ⟨argument, span, rfl, -⟩ := he.symm.eq_spread
        exact (hlast argument span hothers.symm.eq_nil rfl).elim
      · next hlast heq =>
        cases heq
        exact .bind (Agree.toPattern rules use e e' he) fun _ _ _ =>
          .bind (Agree.elementsToPatterns rules use others others' hothers) fun _ _ _ => .ok

theorem Agree.propertiesToPatterns (rules : NameRules) (use : PatternUse) :
    ∀ l l' : List ObjectProperty, Twins l l' →
      Agree (EcmaScript.propertiesToPatterns rules use l)
        (EcmaScript.propertiesToPatterns rules use l')
  | [], l', h => by
    rw [h.eq_nil]
    exact .refl _
  | .spread argument span :: others, l', h => by
    obtain ⟨p', others', rfl, hspread, hothers⟩ := h.eq_cons
    have hspread := hspread.bare_eq
    cases p' with
    | property _ _ _ _ _ _ _ => cases hspread
    | spread argument' _ =>
      injection hspread with hargument
      cases others with
      | nil =>
        rw [hothers.eq_nil]
        exact .bind (Agree.toPattern rules use argument argument' ⟨hargument⟩) fun _ _ _ => .ok
      | cons p others =>
        obtain ⟨_, _, rfl, -, -⟩ := hothers.eq_cons
        exact .error _ _
  | .property key value kind method shorthand computed span :: others, l', h => by
    obtain ⟨p', others', rfl, hproperty, hothers⟩ := h.eq_cons
    have hproperty := hproperty.bare_eq
    cases p' with
    | spread _ _ => cases hproperty
    | property key' value' _ _ _ _ _ =>
      injection hproperty with hkey hvalue hkind hmethod hshorthand
      subst hkind hmethod hshorthand
      have hkey : Twins key key' := ⟨hkey⟩
      unfold EcmaScript.propertiesToPatterns
      cases kind <;> cases method <;> try exact .error _ _
      exact .bind (Agree.toPattern rules use value value' ⟨hvalue⟩) fun _ _ _ =>
        .bind (Agree.propertiesToPatterns rules use others others' hothers) fun _ _ _ => .ok

end

instance {rules : NameRules} {use : PatternUse} {e e' : Expression} [h : Twins e e'] :
    Agree (e.toPattern rules use) (e'.toPattern rules use) :=
  Agree.toPattern rules use e e' h

/-- A check of every item of a list. -/
instance Agree.mapM {α β : Type} [Bare α] [Bare β] {f : α → Except Diagnostic β}
    [hf : ∀ x : TwinPair α, Agree (f x.left) (f x.right)] {l l' : List α} [h : Twins l l'] :
    Agree (l.mapM f) (l'.mapM f) := by
  induction l generalizing l' with
  | nil =>
    rw [h.eq_nil]
    exact .refl _
  | cons a l ih =>
    obtain ⟨a', m, rfl, ha, hl⟩ := h.eq_cons
    rw [List.mapM_cons, List.mapM_cons]
    exact .bind (hf ⟨a, a', ha⟩) fun _ _ _ => .bind (@ih m hl) fun _ _ _ => .ok

theorem Agree.argumentsToParams (rules : NameRules) {l l' : List Expression} (h : Twins l l') :
    Agree (EcmaScript.argumentsToParams rules l) (EcmaScript.argumentsToParams rules l') := by
  induction l generalizing l' with
  | nil =>
    rw [h.eq_nil]
    exact .refl _
  | cons e others ih =>
    obtain ⟨e', others', rfl, he, hothers⟩ := h.eq_cons
    unfold EcmaScript.argumentsToParams
    split
    · next heq => cases heq
    · next argument span heq =>
      cases heq
      obtain ⟨argument', _, rfl, hargument⟩ := he.eq_spread
      cases hothers.eq_nil
      exact .bind inferInstance fun _ _ _ => .ok
    · next hlast heq =>
      cases heq
      split
      · next heq => cases heq
      · next heq =>
        cases heq
        obtain ⟨argument, span, rfl, -⟩ := he.symm.eq_spread
        exact (hlast argument span rfl hothers.symm.eq_nil).elim
      · next hlast heq =>
        cases heq
        exact .bind inferInstance fun _ _ _ => .bind (ih hothers) fun _ _ _ => .ok

instance {rules : NameRules} {l l' : List Expression} [h : Twins l l'] :
    Agree (argumentsToParams rules l) (argumentsToParams rules l') :=
  Agree.argumentsToParams rules h

instance Agree.toTarget (rules : NameRules) (operator : AssignmentOperator) {e e' : Expression}
    [h : Twins e e'] : Agree (e.toTarget rules operator) (e'.toTarget rules operator) := by
  have hpattern : Agree (e.toPattern rules .assignment) (e'.toPattern rules .assignment) :=
    inferInstance
  have hsimple : Agree (rules.checkSimpleTarget e) (rules.checkSimpleTarget e') := inferInstance
  have hrest (e : Expression) (hname : e.targetForm ≠ .name) (hmember : e.targetForm ≠ .member)
      (hliteral : e.targetForm ≠ .literal) : ∃ d, e.toTarget rules operator = .error d := by
    cases e <;> first
      | exact ⟨_, rfl⟩ | exact absurd rfl hname | exact absurd rfl hmember
      | exact absurd rfl hliteral
  cases hform : e.targetForm with
  | name =>
    cases e <;> cases hform
    obtain ⟨_, rfl⟩ := h.eq_identifier
    exact .bind hsimple fun _ _ _ => .ok
  | member =>
    cases e <;> cases hform
    obtain ⟨_, _, _, rfl, -, -⟩ := h.eq_member
    exact .bind hsimple fun _ _ _ => .ok
  | literal =>
    have hassign : Agree
        (if operator == .assign then AssignmentTarget.pattern <$> e.toPattern rules .assignment
          else .error (.located .invalidTarget e.start))
        (if operator == .assign then AssignmentTarget.pattern <$> e'.toPattern rules .assignment
          else .error (.located .invalidTarget e'.start)) := by
      split
      · exact hpattern.map fun _ _ _ => inferInstance
      · exact .error _ _
    cases e <;> cases hform
    · obtain ⟨_, _, rfl, -⟩ := h.eq_array
      exact hassign
    · obtain ⟨_, _, rfl, -⟩ := h.eq_object
      exact hassign
  | _ =>
    obtain ⟨d, hd⟩ := hrest e (by simp [hform]) (by simp [hform]) (by simp [hform])
    rw [h.targetForm] at hform
    obtain ⟨d', hd'⟩ := hrest e' (by simp [hform]) (by simp [hform]) (by simp [hform])
    rw [hd, hd']
    exact .error d d'

instance Agree.toForTarget (rules : NameRules) {e e' : Expression} [h : Twins e e'] :
    Agree (e.toForTarget rules) (e'.toForTarget rules) := by
  have hpattern : Agree (e.toPattern rules .assignment) (e'.toPattern rules .assignment) :=
    inferInstance
  have hsimple : Agree (rules.checkSimpleTarget e) (rules.checkSimpleTarget e') := inferInstance
  have hrest (e : Expression) (hliteral : e.targetForm ≠ .literal) : e.toForTarget rules =
      (do rules.checkSimpleTarget e; return .expression e) := by
    cases e <;> first | rfl | exact absurd rfl hliteral
  by_cases hform : e.targetForm = .literal
  · cases e <;> cases hform
    · obtain ⟨_, _, rfl, -⟩ := h.eq_array
      exact .bind hpattern fun _ _ _ => .ok
    · obtain ⟨_, _, rfl, -⟩ := h.eq_object
      exact .bind hpattern fun _ _ _ => .ok
  · rw [hrest e hform, hrest e' (h.targetForm ▸ hform)]
    exact .bind hsimple fun _ _ _ => .ok

/-! ### Methods and accessors -/

instance Twins.staticName? {key key' : PropertyKey} [h : Twins key key'] :
    Twins key.staticName? key'.staticName? := by
  have hbare (k : PropertyKey) : k.bare.staticName? = k.staticName? := by cases k <;> rfl
  refine ⟨?_⟩
  rw [Exact.bare_eq, Exact.bare_eq, ← hbare key, ← hbare key']
  exact congrArg PropertyKey.staticName? h.bare_eq

instance Agree.methodKind (computed isStatic : Bool) (m : Grammar.Modifiers)
    {key key' : PropertyKey} [h : Twins key key'] :
    Agree (Grammar.methodKind key computed isStatic m)
      (Grammar.methodKind key' computed isStatic m) := by
  have htwins : Twins key.staticName? key'.staticName? := inferInstance
  have hname := htwins.eq
  unfold Grammar.methodKind
  simp only [hname]
  repeat' split
  all_goals first | exact .refl _ | exact .error _ _

theorem Twins.isRest {p p' : Pattern} (h : Twins p p') : p.isRest = p'.isRest := by
  have h := h.bare_eq
  cases p <;> cases p' <;> first | rfl | cases h

theorem Twins.params {f f' : Function} (h : Twins f f') : Twins f.params f'.params := by
  have hparams (f : Function) : f.bare.params = barePatterns f.params := by cases f; rfl
  have h := congrArg Function.params h.bare_eq
  change f.bare.params = f'.bare.params at h
  rw [hparams, hparams, barePatterns_eq, barePatterns_eq] at h
  exact ⟨h⟩

instance Agree.checkAccessor (kind : MethodKind) {f f' : Function} [h : Twins f f'] :
    Agree (Grammar.checkAccessor kind f) (Grammar.checkAccessor kind f') := by
  have hparams := h.params
  unfold Grammar.checkAccessor
  rcases hf : f.params with _ | ⟨p, _ | ⟨q, params⟩⟩ <;> rw [hf] at hparams
  · rw [hparams.eq_nil]
    cases kind <;> first | exact .refl _ | exact .error _ _
  · obtain ⟨p', _, hf', hp, hnil⟩ := hparams.eq_cons
    rw [hf', hnil.eq_nil]
    cases kind <;> try first | exact .refl _ | exact .error _ _
    simp only [hp.isRest]
    split
    · exact .error _ _
    · exact .refl _
  · obtain ⟨p', _, hf', -, hrest⟩ := hparams.eq_cons
    obtain ⟨q', params', rfl, -, -⟩ := hrest.eq_cons
    rw [hf']
    cases kind <;> first | exact .refl _ | exact .error _ _

/-! ### Other questions -/

instance Twins.isAsyncName {e e' : Expression} [h : Twins e e'] :
    Twins (Grammar.isAsyncName e) (Grammar.isAsyncName e') := by
  have hbare (e : Expression) : Grammar.isAsyncName e.bare = Grammar.isAsyncName e := by
    cases e with
    | identifier name span =>
      by_cases hname : name = "async"
      · rw [hname]
        rfl
      · simp [Grammar.isAsyncName, hname]
    | _ => rfl
  exact ⟨(hbare e).symm.trans ((congrArg Grammar.isAsyncName h.bare_eq).trans (hbare e'))⟩

instance Twins.labelOf? {e e' : Expression} [h : Twins e e'] :
    Twins (Grammar.labelOf? e) (Grammar.labelOf? e') := by
  have hbare (e : Expression) : Grammar.labelOf? e.bare = Grammar.labelOf? e := by cases e <;> rfl
  exact ⟨congrArg bare <|
    (hbare e).symm.trans ((congrArg Grammar.labelOf? h.bare_eq).trans (hbare e'))⟩

instance Twins.directive? {s s' : Statement} [h : Twins s s'] :
    Twins s.directive? s'.directive? := by
  have hbare (s : Statement) : s.bare.directive? = s.directive? := by
    cases s with
    | expression e =>
      cases e with
      | literal value => cases value <;> rfl
      | _ => rfl
    | _ => rfl
  exact ⟨congrArg bare <|
    (hbare s).symm.trans ((congrArg Statement.directive? h.bare_eq).trans (hbare s'))⟩

instance Twins.isConstructor {c c' : ClassElement} [h : Twins c c'] :
    Twins (Grammar.isConstructor c) (Grammar.isConstructor c') := by
  have hbare (c : ClassElement) : Grammar.isConstructor c.bare = Grammar.isConstructor c := by
    cases c with
    | method key kind => cases kind <;> rfl
    | _ => rfl
  exact ⟨(hbare c).symm.trans ((congrArg Grammar.isConstructor h.bare_eq).trans (hbare c'))⟩

instance Twins.isIdentifier {p p' : Pattern} [h : Twins p p'] :
    Twins p.isIdentifier p'.isIdentifier := by
  have hbare (p : Pattern) : p.bare.isIdentifier = p.isIdentifier := by cases p <;> rfl
  exact ⟨(hbare p).symm.trans ((congrArg Pattern.isIdentifier h.bare_eq).trans (hbare p'))⟩

instance Twins.test {c c' : SwitchCase} [h : Twins c c'] : Twins c.test c'.test := by
  have htest (c : SwitchCase) : c.bare.test = bare c.test := by
    cases c
    exact bareOptional_eq _
  have h := congrArg SwitchCase.test h.bare_eq
  change c.bare.test = c'.bare.test at h
  rw [htest, htest] at h
  exact ⟨h⟩

/-- Whether some item has a property that twins share. -/
instance Twins.any {α : Type} [Bare α] {f : α → Bool}
    [hf : ∀ x : TwinPair α, Twins (f x.left) (f x.right)] {l l' : List α} [h : Twins l l'] :
    Twins (l.any f) (l'.any f) := by
  refine ⟨show l.any f = l'.any f from ?_⟩
  induction l generalizing l' with
  | nil => rw [h.eq_nil]
  | cons a l ih =>
    obtain ⟨a', m, rfl, ha, hl⟩ := h.eq_cons
    rw [List.any_cons, List.any_cons, (hf ⟨a, a', ha⟩).eq, @ih m hl]

end EcmaScript
