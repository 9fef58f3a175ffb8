import EcmaScript.Proofs.Tree.Account
import EcmaScript.Proofs.WellFormed

/-!
Properties that are names alone.

A property of an object literal may be a name alone, and such a name may have a default value, as it
may in a pattern: whether the literal is one is seen only behind it. When a literal is read as a
pattern, at any depth, each such property becomes one of the pattern, with the default value it has.
A literal that is not read as a pattern keeps the default value as an assignment, and is not refused
for it, `default_in_literal_accepted` shows one.
-/

namespace EcmaScript

/-! ## Literals read as patterns -/

/-- The property stands in the part of the expression that is read as a pattern: in the literal
itself, or in a literal that is an element, a value or a target in it. -/
inductive Expression.Rereads : Expression → ObjectProperty → Prop where
  | property {properties : List ObjectProperty} {property : ObjectProperty} (span : Span)
      (h : property ∈ properties) : Rereads (.object properties span) property
  | value {properties : List ObjectProperty} {key : PropertyKey} {value : Expression}
      {kind : PropertyKind} {method shorthand computed : Bool} {own : Span}
      {property : ObjectProperty} (span : Span)
      (h : .property key value kind method shorthand computed own ∈ properties)
      (hvalue : value.Rereads property) : Rereads (.object properties span) property
  | objectRest {properties : List ObjectProperty} {argument : Expression} {own : Span}
      {property : ObjectProperty} (span : Span) (h : .spread argument own ∈ properties)
      (hargument : argument.Rereads property) : Rereads (.object properties span) property
  | element {elements : List (Option Expression)} {e : Expression} {property : ObjectProperty}
      (span : Span) (h : some e ∈ elements) (he : e.Rereads property) :
      Rereads (.array elements span) property
  | arrayRest {elements : List (Option Expression)} {argument : Expression} {own : Span}
      {property : ObjectProperty} (span : Span) (h : some (.spread argument own) ∈ elements)
      (hargument : argument.Rereads property) : Rereads (.array elements span) property
  | target {e : Expression} {property : ObjectProperty} (operator : AssignmentOperator)
      (default : Expression) (span : Span) (he : e.Rereads property) :
      Rereads (.assignment operator (.simple e) default span) property

/-- The property stands in the pattern, at any depth. -/
inductive Pattern.Holds : Pattern → PatternProperty → Prop where
  | property {properties : List PatternProperty} {property : PatternProperty}
      (last : Option Pattern) (span : Span) (h : property ∈ properties) :
      Holds (.object properties last span) property
  | value {properties : List PatternProperty} {outer property : PatternProperty}
      (last : Option Pattern) (span : Span) (h : outer ∈ properties)
      (hvalue : outer.value.Holds property) : Holds (.object properties last span) property
  | objectRest {last : Pattern} {property : PatternProperty} (properties : List PatternProperty)
      (span : Span) (h : last.Holds property) : Holds (.object properties (some last) span) property
  | element {elements : List (Option Pattern)} {p : Pattern} {property : PatternProperty}
      (span : Span) (h : some p ∈ elements) (hp : p.Holds property) :
      Holds (.array elements span) property
  | target {p : Pattern} {property : PatternProperty} (default : Expression) (span : Span)
      (h : p.Holds property) : Holds (.withDefault p default span) property
  | rest {argument : Pattern} {property : PatternProperty} (span : Span)
      (h : argument.Holds property) : Holds (.rest argument span) property

variable {rules : NameRules} {use : PatternUse}

/-- An element is read as an element of the pattern, and a spread as a rest element. -/
theorem exists_of_elementsToPatterns {elements : List (Option Expression)}
    {patterns : List (Option Pattern)} (h : elementsToPatterns rules use elements = .ok patterns)
    {e : Expression} (he : some e ∈ elements) :
    (∃ p, e.toPattern rules use = .ok p ∧ some p ∈ patterns) ∨
      ∃ argument span p, e = .spread argument span ∧ argument.toPattern rules use = .ok p ∧
        some (.rest p span) ∈ patterns := by
  induction elements generalizing patterns with
  | nil => cases he
  | cons element others ih =>
    -- What one of the others is read as stands behind the first one.
    have hbehind {patterns : List (Option Pattern)} (first : Option Pattern)
        (hpatterns : elementsToPatterns rules use others = .ok patterns) (he : some e ∈ others) :
        (∃ p, e.toPattern rules use = .ok p ∧ some p ∈ first :: patterns) ∨
          ∃ argument span p, e = .spread argument span ∧ argument.toPattern rules use = .ok p ∧
            some (.rest p span) ∈ first :: patterns := by
      apply (ih hpatterns he).imp
      · rintro ⟨p, hp, hmem⟩
        exact ⟨p, hp, List.mem_cons_of_mem first hmem⟩
      · rintro ⟨argument, span, p, heq, hp, hmem⟩
        exact ⟨argument, span, p, heq, hp, List.mem_cons_of_mem first hmem⟩
    unfold elementsToPatterns at h
    split at h
    · next heq => cases heq
    · next heq =>
      cases heq
      obtain ⟨patterns, hpatterns, h⟩ := except_bind_eq_ok.1 h
      cases h
      exact hbehind none hpatterns (List.mem_of_ne_of_mem (by rintro ⟨⟩) he)
    · next argument span heq =>
      cases heq
      obtain ⟨p, hp, h⟩ := except_bind_eq_ok.1 h
      cases h
      cases List.mem_singleton.1 he
      exact .inr ⟨argument, span, p, rfl, hp, List.mem_cons_self⟩
    · next first others' _ heq =>
      cases heq
      simp only [except_bind_eq_ok] at h
      obtain ⟨q, hq, patterns, hpatterns, h⟩ := h
      cases h
      rcases List.mem_cons.1 he with heq | he
      · cases heq
        exact .inl ⟨q, hq, List.mem_cons_self⟩
      · exact hbehind (some q) hpatterns he

/-- A property is read as one of the pattern, which has its key. -/
theorem exists_of_propertiesToPatterns {properties : List ObjectProperty}
    {patterns : List PatternProperty} {last : Option Pattern}
    (h : propertiesToPatterns rules use properties = .ok (patterns, last)) {key : PropertyKey}
    {value : Expression} {kind : PropertyKind} {method shorthand computed : Bool} {span : Span}
    (hmem : .property key value kind method shorthand computed span ∈ properties) :
    ∃ p, value.toPattern rules use = .ok p ∧ ⟨key, p, shorthand⟩ ∈ patterns := by
  induction properties generalizing patterns last with
  | nil => cases hmem
  | cons property others ih =>
    unfold propertiesToPatterns at h
    split at h
    · next heq => cases heq
    · next heq =>
      cases heq
      cases List.mem_singleton.1 hmem
    · next heq =>
      cases heq
      simp only [except_bind_eq_ok] at h
      obtain ⟨q, hq, ⟨patterns, last⟩, hpatterns, h⟩ := h
      cases h
      rcases List.mem_cons.1 hmem with heq | hmem
      · cases heq
        exact ⟨q, hq, List.mem_cons_self⟩
      · obtain ⟨p, hp, hother⟩ := ih hpatterns hmem
        exact ⟨p, hp, List.mem_cons_of_mem _ hother⟩
    · cases h
    · cases h

/-- A spread is read as the rest of the pattern. -/
theorem exists_last_of_propertiesToPatterns {properties : List ObjectProperty}
    {patterns : List PatternProperty} {last : Option Pattern}
    (h : propertiesToPatterns rules use properties = .ok (patterns, last)) {argument : Expression}
    {span : Span} (hmem : .spread argument span ∈ properties) :
    ∃ p, argument.toPattern rules use = .ok p ∧ last = some (.rest p span) := by
  induction properties generalizing patterns last with
  | nil => cases hmem
  | cons property others ih =>
    unfold propertiesToPatterns at h
    split at h
    · next heq => cases heq
    · next heq =>
      cases heq
      obtain ⟨p, hp, h⟩ := except_bind_eq_ok.1 h
      cases h
      cases List.mem_singleton.1 hmem
      exact ⟨p, hp, rfl⟩
    · next heq =>
      cases heq
      simp only [except_bind_eq_ok] at h
      obtain ⟨q, hq, ⟨patterns, last⟩, hpatterns, h⟩ := h
      cases h
      exact ih hpatterns (List.mem_of_ne_of_mem (by rintro ⟨⟩) hmem)
    · cases h
    · cases h

/-- An argument is read as a parameter, and a spread as a rest element. -/
theorem exists_of_argumentsToParams {arguments : List Expression} {params : List Pattern}
    (h : argumentsToParams rules arguments = .ok params) {e : Expression} (he : e ∈ arguments) :
    (∃ p, e.toPattern rules .binding = .ok p ∧ p ∈ params) ∨
      ∃ argument span p, e = .spread argument span ∧ argument.toPattern rules .binding = .ok p ∧
        .rest p span ∈ params := by
  fun_induction argumentsToParams rules arguments generalizing params with
  | case1 => cases he
  | case2 argument span =>
    obtain ⟨p, hp, h⟩ := except_bind_eq_ok.1 h
    cases h
    cases List.mem_singleton.1 he
    exact .inr ⟨argument, span, p, rfl, hp, List.mem_cons_self⟩
  | case3 first others _ ih =>
    simp only [except_bind_eq_ok] at h
    obtain ⟨q, hq, params, hparams, h⟩ := h
    cases h
    rcases List.mem_cons.1 he with rfl | he
    · exact .inl ⟨q, hq, List.mem_cons_self⟩
    · apply (ih hparams he).imp
      · rintro ⟨p, hp, hmem⟩
        exact ⟨p, hp, List.mem_cons_of_mem q hmem⟩
      · rintro ⟨argument, span, p, heq, hp, hmem⟩
        exact ⟨argument, span, p, heq, hp, List.mem_cons_of_mem q hmem⟩

/-- Each property that is read is one of the pattern, which has its key, and its value read. -/
theorem Expression.Rereads.holds {e : Expression} {property : ObjectProperty}
    (h : e.Rereads property) {key : PropertyKey} {value : Expression} {kind : PropertyKind}
    {method shorthand computed : Bool} {own : Span}
    (hproperty : property = .property key value kind method shorthand computed own) {p : Pattern}
    (hread : e.toPattern rules use = .ok p) :
    ∃ q, value.toPattern rules use = .ok q ∧ p.Holds ⟨key, q, shorthand⟩ := by
  induction h generalizing p with
  | property span hmem =>
    subst hproperty
    simp only [toPattern, except_bind_eq_ok] at hread
    obtain ⟨⟨patterns, last⟩, hpatterns, hread⟩ := hread
    cases hread
    obtain ⟨q, hq, hmem⟩ := exists_of_propertiesToPatterns hpatterns hmem
    exact ⟨q, hq, .property last span hmem⟩
  | value span hmem _ ih =>
    simp only [toPattern, except_bind_eq_ok] at hread
    obtain ⟨⟨patterns, last⟩, hpatterns, hread⟩ := hread
    cases hread
    obtain ⟨outer, houter, hmem⟩ := exists_of_propertiesToPatterns hpatterns hmem
    obtain ⟨q, hq, hholds⟩ := ih hproperty houter
    exact ⟨q, hq, .value last span hmem hholds⟩
  | objectRest span hmem _ ih =>
    simp only [toPattern, except_bind_eq_ok] at hread
    obtain ⟨⟨patterns, last⟩, hpatterns, hread⟩ := hread
    cases hread
    obtain ⟨argument, hargument, rfl⟩ := exists_last_of_propertiesToPatterns hpatterns hmem
    obtain ⟨q, hq, hholds⟩ := ih hproperty hargument
    exact ⟨q, hq, .objectRest patterns span (.rest _ hholds)⟩
  | element span hmem he ih =>
    simp only [toPattern, except_bind_eq_ok] at hread
    obtain ⟨patterns, hpatterns, hread⟩ := hread
    cases hread
    rcases exists_of_elementsToPatterns hpatterns hmem with ⟨r, hr, hmem⟩ | ⟨_, _, _, rfl, -⟩
    · obtain ⟨q, hq, hholds⟩ := ih hproperty hr
      exact ⟨q, hq, .element span hmem hholds⟩
    · cases he
  | arrayRest span hmem _ ih =>
    simp only [toPattern, except_bind_eq_ok] at hread
    obtain ⟨patterns, hpatterns, hread⟩ := hread
    cases hread
    rcases exists_of_elementsToPatterns hpatterns hmem with ⟨r, hr, -⟩ | ⟨_, _, r, heq, hr, hmem⟩
    · simp [toPattern] at hr
    · cases heq
      obtain ⟨q, hq, hholds⟩ := ih hproperty hr
      exact ⟨q, hq, .element span hmem (.rest _ hholds)⟩
  | target operator default span _ ih =>
    cases operator with
    | assign =>
      simp only [toPattern, AssignmentTarget.toPattern, except_bind_eq_ok] at hread
      obtain ⟨target, htarget, hread⟩ := hread
      cases hread
      obtain ⟨q, hq, hholds⟩ := ih hproperty htarget
      exact ⟨q, hq, .target default span hholds⟩
    | _ => simp [toPattern] at hread

/-- The property is that of the name alone with a default value. -/
def ObjectProperty.IsDefault (name : String) (span : Span) (default : Expression) (whole : Span) :
    ObjectProperty → Prop
  | .property key value kind method shorthand _ _ =>
    key = .identifier name span ∧
      value = .assignment .assign (.simple (.identifier name span)) default whole ∧
      kind = .init ∧ method = false ∧ shorthand = true
  | .spread _ _ => False

section

variable {e : Expression} {property : ObjectProperty} {name : String} {span : Span}
  {default : Expression} {whole : Span}

/-- A name with a default value becomes a property of the pattern with this default value. -/
theorem Expression.Rereads.holds_default (h : e.Rereads property)
    (hproperty : property.IsDefault name span default whole) {p : Pattern}
    (hread : e.toPattern rules use = .ok p) :
    p.Holds ⟨.identifier name span, .withDefault (.identifier name span) default whole, true⟩ := by
  cases property with
  | spread => cases hproperty
  | property key value kind method shorthand computed own =>
    obtain ⟨rfl, rfl, -, -, rfl⟩ := hproperty
    obtain ⟨q, hq, hholds⟩ := h.holds rfl hread
    rw [toPattern_default hq] at hholds
    exact hholds

/-- So does one in an argument of a call that becomes a parameter. -/
theorem exists_param_holds_default {arguments : List Expression} {params : List Pattern}
    (hread : argumentsToParams rules arguments = .ok params) (he : e ∈ arguments)
    (h : e.Rereads property ∨ ∃ argument own, e = .spread argument own ∧ argument.Rereads property)
    (hproperty : property.IsDefault name span default whole) :
    ∃ p ∈ params, p.Holds
      ⟨.identifier name span, .withDefault (.identifier name span) default whole, true⟩ := by
  rcases exists_of_argumentsToParams hread he with ⟨p, hp, hmem⟩ | ⟨argument, own, p, rfl, hp, hmem⟩
  · rcases h with h | ⟨argument, own, rfl, -⟩
    · exact ⟨p, hmem, h.holds_default hproperty hp⟩
    · simp [Expression.toPattern] at hp
  · rcases h with h | ⟨_, _, heq, h⟩
    · cases h
    · cases heq
      exact ⟨_, hmem, .rest own (h.holds_default hproperty hp)⟩

end

/-! ## Programs -/

/-- The properties of the program that are names alone have that name for their value, and no
literal is left where something is assigned to. -/
structure Program.Abbreviates (p : Program) : Prop where
  literals : ∀ path property, Node.Occurs (.program p) path (.objectProperty property) →
    property.IsAbbreviated
  patterns : ∀ path property, Node.Occurs (.program p) path (.patternProperty property) →
    property.IsAbbreviated
  targets : ∀ path e, Node.Occurs (.program p) path (.assignmentTarget (.simple e)) →
    e.isReference
  loops : ∀ path e, Node.Occurs (.program p) path (.forTarget (.expression e)) → e.isReference

theorem parse_abbreviates {σ : Type} {source : String} {options : Options} {hooks : Hooks σ}
    {initial : σ} {p : Program} (h : parseWith source options hooks initial = .ok p) :
    p.Abbreviates := by
  have hreturns := Survey.returns_unpositioned source options hooks initial
  rw [h] at hreturns
  have hinitialised (path : List Node) (n : Node) (hn : Node.Occurs (.program p) path n) :
      Survey.IsInitialised n := by
    obtain ⟨steps, usage, hn⟩ := hn.as
    exact (hreturns.occurs hn).proper.initialised
  have hassigns (path : List Node) (n : Node) (hn : Node.Occurs (.program p) path n) :
      n.AssignsProperly := (hreturns.lawful hn).settable.assigns
  constructor
  · exact fun path property hn => hinitialised path _ hn
  · exact fun path property hn => hinitialised path _ hn
  · exact fun path e hn => (hassigns path _ hn).reference
  · exact fun path e hn => (hassigns path _ hn).reference

/-- A property that is a name alone has that name for its value, in a literal perhaps with an
assignment to it, in a pattern perhaps with a default value. A literal in front of `=`, `in` or `of`
or among the parameters of an arrow function, and the arguments that become the parameters of an
async one, are read as patterns, and then each such assignment, at any depth, becomes a property of
the pattern with this default value. -/
theorem shorthands_abbreviate {σ : Type} (source : String) (options : Options) (hooks : Hooks σ)
    (initial : σ) (p : Program) (rules : NameRules) (use : PatternUse) (e : Expression) (q : Pattern)
    (arguments : List Expression) (params : List Pattern) :
    (parseWith source options hooks initial = .ok p → p.Abbreviates) ∧
    (e.toPattern rules use = .ok q → ∀ property name span default whole, e.Rereads property →
      property.IsDefault name span default whole → q.Holds
        ⟨.identifier name span, .withDefault (.identifier name span) default whole, true⟩) ∧
    (argumentsToParams rules arguments = .ok params →
      ∀ e ∈ arguments, ∀ property name span default whole,
        (e.Rereads property ∨
          ∃ argument own, e = .spread argument own ∧ argument.Rereads property) →
        property.IsDefault name span default whole → ∃ q ∈ params, q.Holds
          ⟨.identifier name span, .withDefault (.identifier name span) default whole, true⟩) :=
  ⟨parse_abbreviates, fun hread _ _ _ _ _ h hproperty => h.holds_default hproperty hread,
    fun hread _ he _ _ _ _ _ h hproperty => exists_param_holds_default hread he h hproperty⟩

/-- Names alone in a literal and in an assignment, and a literal in a literal that is read as a
pattern. -/
theorem shorthands_abbreviate_of_nested :
    ∃ p property q params,
      parse "[\x7b a = 1 \x7d] = b => (\x7b b \x7d)" {} = .ok p ∧ p.Abbreviates ∧
      (Expression.array [some (.object [property] default)] default).toPattern ⟨false, .script⟩
        .assignment = .ok q ∧
      q.Holds ⟨.identifier "a" default,
        .withDefault (.identifier "a" default) (.identifier "b" default) default, true⟩ ∧
      argumentsToParams ⟨false, .script⟩ [.spread (.object [property] default) default] =
        .ok params ∧
      ∃ q ∈ params, q.Holds ⟨.identifier "a" default,
        .withDefault (.identifier "a" default) (.identifier "b" default) default, true⟩ := by
  have hok : (parse "[\x7b a = 1 \x7d] = b => (\x7b b \x7d)" {}).isOk = true := by
    decide +kernel
  let property : ObjectProperty := .property (.identifier "a" default)
    (.assignment .assign (.simple (.identifier "a" default)) (.identifier "b" default) default)
    .init false true false default
  have hdefault : property.IsDefault "a" default (.identifier "b" default) default :=
    ⟨rfl, rfl, rfl, rfl, rfl⟩
  have hliteral : (Expression.object [property] default).Rereads property :=
    .property default List.mem_cons_self
  have helement : (Expression.array [some (.object [property] default)] default).Rereads property :=
    .element default List.mem_cons_self hliteral
  cases hparse : parse "[\x7b a = 1 \x7d] = b => (\x7b b \x7d)" {} with
  | error e =>
    rw [hparse] at hok
    cases hok
  | ok p =>
    obtain ⟨hprogram, hpattern, hparams⟩ := shorthands_abbreviate _ _ .privateNames {} p
      ⟨false, .script⟩ .assignment (.array [some (.object [property] default)] default) _
      [.spread (.object [property] default) default] _
    exact ⟨p, property, _, _, rfl, hprogram hparse, rfl,
      hpattern rfl _ _ _ _ _ helement hdefault, rfl,
      hparams rfl _ List.mem_cons_self _ _ _ _ _ (.inr ⟨_, _, rfl, hliteral⟩) hdefault⟩

/-- Whether the node at a place is a property of an object literal with a default value. -/
def Node.isDefaulted : List Node × Node → Bool
  | (_, .objectProperty (.property (.identifier name span)
      (.assignment .assign (.simple (.identifier name' span')) _ _) .init false true _ _)) =>
    decide (name' = name ∧ span' = span)
  | _ => false

/-- A literal that is not read as a pattern keeps the default value of a name as an assignment. -/
theorem default_in_literal_accepted :
    ∃ p path property name span value whole, parse "(\x7ba = 1\x7d)" {} = .ok p ∧
      Node.Occurs (.program p) path (.objectProperty property) ∧
      property.IsDefault name span value whole := by
  have hfound : (parse "(\x7ba = 1\x7d)" {}).toOption.any (fun p =>
      (Node.places 4 (.program p)).any Node.isDefaulted) = true := by
    decide +kernel
  obtain ⟨p, path, n, hparse, hoccurs, htest⟩ := Node.exists_place hfound
  unfold Node.isDefaulted at htest
  split at htest
  · next path name span name' span' value whole computed own hplace =>
    cases hplace
    obtain ⟨rfl, rfl⟩ := of_decide_eq_true htest
    exact ⟨p, path, _, name', span', value, whole, hparse, hoccurs, rfl, rfl, rfl, rfl, rfl⟩
  · cases htest

end EcmaScript
