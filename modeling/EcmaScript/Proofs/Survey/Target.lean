import EcmaScript.Proofs.Survey.Formed
import EcmaScript.Tree.Target

/-!
Expressions read as patterns and targets.

Reading an expression as a pattern keeps what holds of the tree: every node keeps its span, or lies
within the span of the node it is made from. The patterns are shaped as patterns must be, and they
bind if they are to be parameters. Where an expression cannot be read as a pattern, the error is at
the start of a node, which is exact.
-/

namespace EcmaScript

/-! ## Names alone -/

section Abbreviated

variable {rules : NameRules} {use : PatternUse} {name : String} {span : Span} {p : Pattern}

/-- A name is read as itself. -/
theorem Expression.toPattern_name (h : (identifier name span).toPattern rules use = .ok p) :
    p = .identifier name span := by
  unfold Expression.toPattern at h
  cases hcheck : rules.checkBinding name span.start with
  | error d =>
    rw [hcheck] at h
    cases h
  | ok _ =>
    rw [hcheck] at h
    cases h
    rfl

/-- An assignment to a name is read as the name with a default value. -/
theorem Expression.toPattern_default {default : Expression} {own : Span}
    (h : (assignment .assign (.simple (.identifier name span)) default own).toPattern rules use =
      .ok p) : p = .withDefault (.identifier name span) default own := by
  unfold Expression.toPattern AssignmentTarget.toPattern at h
  cases hread : (identifier name span).toPattern rules use with
  | error d =>
    rw [hread] at h
    cases h
  | ok target =>
    rw [hread] at h
    cases h
    rw [toPattern_name hread]

/-- A name that stands for itself does so as a pattern, too. -/
theorem Expression.Abbreviates.toPattern {value : Expression} (h : value.Abbreviates name span)
    (hread : value.toPattern rules use = .ok p) : p.Abbreviates name span := by
  rcases h with rfl | ⟨default, own, rfl⟩
  · exact .inl (toPattern_name hread)
  · exact .inr ⟨default, own, toPattern_default hread⟩

/-- A property keeps being a name alone. -/
theorem ObjectProperty.IsAbbreviated.toPattern {key : PropertyKey} {value : Expression}
    {shorthand computed : Bool}
    (h : (property key value .init false shorthand computed span).IsAbbreviated)
    (hread : value.toPattern rules use = .ok p) :
    PatternProperty.IsAbbreviated ⟨key, p, shorthand⟩ := by
  cases shorthand with
  | false => trivial
  | true =>
    obtain ⟨-, -, -, name, own, hkey, hvalue⟩ := h
    exact ⟨name, own, hkey, hvalue.toPattern hread⟩

end Abbreviated

namespace Survey

variable {σ α β : Type} (S : Survey σ)

/-- The check passes with a result of which `P` holds, or fails at an exact position. -/
def Checks (x : Except Diagnostic α) (P : α → Prop) : Prop :=
  match x with
  | .ok a => P a
  | .error d => S.Located d

/-- Whether the expression is an array or object literal. -/
def isStructured : Expression → Bool
  | .array _ _ | .object _ _ => true
  | _ => false

structure ReadAs (around : List Node.Step) (usage : Node.Usage) (use : PatternUse) (e : Expression)
    (p : Pattern) : Prop where
  formed : S.FormedAs around usage (.pattern p)
  span_eq : p.span = e.span
  not_rest : p.isRest = false
  not_default : e.isReference → p.isDefault = false
  structured : isStructured e → p.isStructured
  binds : use = .binding → p.Binds

/-- The one parts can stand in place of the other ones. -/
structure Recasts (around : List Node.Step) (ps qs : List Node.Part) : Prop where
  formed : S.AllFormed around qs
  inOrder : S.positioned → ∀ {low high}, InOrder low (ps.map Node.Part.node) high →
    InOrder low (qs.map Node.Part.node) high

variable {S} {around : List Node.Step} {usage : Node.Usage} {use : PatternUse} {rules : NameRules}

namespace Checks

variable {x : Except Diagnostic α} {P Q : α → Prop}

theorem mono (h : S.Checks x P) (hQ : ∀ a, P a → Q a) : S.Checks x Q := by
  cases x with
  | ok a => exact hQ a h
  | error d => exact h

theorem bind {f : α → Except Diagnostic β} {R : β → Prop} (h : S.Checks x P)
    (hf : ∀ a, P a → S.Checks (f a) R) : S.Checks (x >>= f) R := by
  cases x with
  | ok a => exact hf a h
  | error d => exact h

theorem fail (cause : Cause) {p : Position} (h : S.Exact p) :
    S.Checks (.error (.located cause p)) P :=
  fun hpositioned => ⟨p, rfl, h hpositioned⟩

theorem word (hrules : S.Governs around rules) (name : String) {p : Position} (h : S.Exact p) :
    S.Checks (rules.checkWord name p) fun _ => S.Fits around name := by
  unfold NameRules.checkWord
  cases haccepts : rejectWord? name rules.strict rules.goal with
  | some rejection => exact fail _ h
  | none => exact hrules.fits haccepts

theorem binding (hrules : S.Governs around rules) (name : String) {p : Position} (h : S.Exact p) :
    S.Checks (rules.checkBinding name p) fun _ => S.Fits around name ∧ S.Assigns around name := by
  refine (word hrules name h).bind fun _ hfits => ?_
  split
  · exact fail _ h
  · next haccepts => exact ⟨hfits, hrules.assigns haccepts⟩

/-- Only names that may be assigned to, and member accesses outside of optional chains, are simple
targets. -/
theorem simpleTarget (hrules : S.Governs around rules) (e : Expression) (h : S.Exact e.span.start) :
    S.Checks (rules.checkSimpleTarget e) fun _ => e.IsAssignable ∧
      ∀ name span, e = .identifier name span → S.Assigns around name := by
  unfold NameRules.checkSimpleTarget
  cases e with
  | identifier name span =>
    dsimp only
    split
    · exact fail _ h
    · next haccepts =>
      refine ⟨.name name span, ?_⟩
      rintro _ _ ⟨⟩
      exact hrules.assigns haccepts
  | member base property computed optional span =>
    dsimp only
    split
    · exact fail _ h
    · next hchain => exact ⟨.member rfl (Bool.eq_false_iff.2 hchain), nofun⟩
  | _ => exact fail _ h

end Checks

/-- What passes is the result of the check. -/
theorem Checks.result {x : Except Diagnostic α} {P : α → Prop} (h : S.Checks x P) :
    S.Checks x fun a => x = .ok a ∧ P a := by
  cases x with
  | ok a => exact ⟨rfl, h⟩
  | error d => exact h

namespace Recasts

variable {ps qs rs : List Node.Part}

theorem nil : S.Recasts around [] [] := ⟨by rintro _ ⟨⟩, fun _ => fun h => h⟩

theorem cons {p q : Node.Part} (hq : S.FormedAs (q.step.toList ++ around) q.usage q.node)
    (hliesIn : S.positioned → ∀ {low high}, p.node.LiesIn low high → q.node.LiesIn low high)
    (h : S.Recasts around ps qs) : S.Recasts around (p :: ps) (q :: qs) where
  formed := List.forall_mem_cons.2 ⟨hq, h.formed⟩
  inOrder hpositioned := by
    rintro low high ⟨middle, hp, hps⟩
    exact ⟨middle, hliesIn hpositioned hp, h.inOrder hpositioned hps⟩

theorem trans (h : S.Recasts around ps qs) (h' : S.Recasts around qs rs) :
    S.Recasts around ps rs :=
  ⟨h'.formed, fun hpositioned => fun hinOrder =>
    h'.inOrder hpositioned (h.inOrder hpositioned hinOrder)⟩

/-- A node with the span of another one, whose parts stand in place of its parts. -/
theorem node {usage usage' : Node.Usage} {n m : Node} {span : Span}
    (hn : S.FormedAs around usage n) (hspan : n.span? = some span)
    (hshorthand : n.isShorthand = false) (hprogram : n.isProgram = false)
    (hspan' : m.span? = some span) (hshorthand' : m.isShorthand = false)
    (hallowed : m.isAllowedIn (Node.enclosures around)) (hshaped : m.IsShaped)
    (h : S.Recasts around (n.parts usage) (m.parts usage'))
    (hsettable : m.IsSettable := by exact ⟨trivial, trivial⟩)
    (hproper : S.Proper around usage' m := by exact ⟨trivial, trivial, fun _ => trivial⟩) :
    S.FormedAs around usage' m := by
  have hcovers := hn.covers hspan hshorthand hprogram
  refine .spanned hspan' hshorthand' hallowed hshaped ?_ h.formed hsettable hproper
  refine ⟨hcovers.start, hcovers.stop, hcovers.nonempty, fun hpositioned => ?_⟩
  have hinOrder := hcovers.inOrder hpositioned
  rw [← Node.map_node_parts usage] at hinOrder
  rw [← Node.map_node_parts usage']
  exact h.inOrder hpositioned hinOrder

end Recasts

/-- Nodes with the same span lie in the same places. -/
theorem liesIn_of_span_eq {n m : Node} {span : Span} (hn : n.span? = some span)
    (hm : m.span? = some span) : ∀ {low high}, n.LiesIn low high → m.LiesIn low high := by
  intro low high h
  rw [Node.liesIn_iff_of_span hm, ← Node.liesIn_iff_of_span hn]
  exact h

namespace ReadAs

variable {e : Expression} {p : Pattern}

theorem liesIn (h : S.ReadAs around usage use e p) :
    ∀ {low high}, (Node.expression e).LiesIn low high → (Node.pattern p).LiesIn low high :=
  liesIn_of_span_eq rfl (by rw [← h.span_eq]; rfl)

theorem recasts (h : S.ReadAs around usage use e p) {ps qs : List Node.Part}
    (hothers : S.Recasts around ps qs) :
    S.Recasts around (.here usage (.expression e) :: ps) (.here usage (.pattern p) :: qs) :=
  .cons h.formed (fun _ => h.liesIn) hothers

/-- A spread, of either sort, read as a rest element. -/
theorem rest (h : S.ReadAs around .ordinary use e p) {n : Node} {span : Span}
    (hn : S.Formed around n) (hspan : n.span? = some span) (hshorthand : n.isShorthand = false)
    (hprogram : n.isProgram = false) (hparts : n.parts .ordinary = plain [.expression e]) :
    S.Formed around (.pattern (.rest p span)) := by
  refine Recasts.node hn hspan hshorthand hprogram rfl rfl rfl ?_ ?_
  · change ∀ c ∈ [Node.pattern p], c.isOrdinary
    simp [h.not_rest]
  · rw [hparts]
    exact h.recasts .nil

/-- A property of an object literal read as one of a pattern. -/
theorem property {shorthand : Bool}
    (h : S.ReadAs around (Node.usageOfValue .init false shorthand) use e p)
    (hread : e.toPattern rules use = .ok p) {key : PropertyKey}
    {computed : Bool} {span : Span}
    (hn : S.Formed around (.objectProperty (.property key e .init false shorthand computed span))) :
    S.Formed around (.patternProperty ⟨key, p, shorthand⟩) ∧
      (S.positioned → ∀ {low high},
        (Node.objectProperty (.property key e .init false shorthand computed span)).LiesIn low
          high →
        (Node.patternProperty ⟨key, p, shorthand⟩).LiesIn low high) := by
  have hordinary : ∀ c ∈ [Node.propertyKey key, Node.expression e], c.isOrdinary :=
    hn.lawful.shaped
  have hkey : S.Formed around (.propertyKey key) := hn.parts _ List.mem_cons_self
  have hlaid : S.positioned →
      (Node.objectProperty (.property key e .init false shorthand computed span)).ArrangedIn
        span.start.offset span.stop.offset := hn.lawful.laidOut
  have hstart : p.span.start = e.span.start := by rw [h.span_eq]
  simp only [List.forall_mem_cons, List.not_mem_nil, false_implies, implies_true, and_true]
    at hordinary
  -- The children of the one lie where those of the other one do.
  have harranged : S.positioned →
      (Node.patternProperty ⟨key, p, shorthand⟩).ArrangedIn span.start.offset
        span.stop.offset := by
    intro hpositioned
    obtain ⟨hliesIn, hinOrder, hsame⟩ := hlaid hpositioned
    simp only [Node.children, ObjectProperty.children, List.forall_mem_cons, List.not_mem_nil,
      false_implies, implies_true, and_true] at hliesIn
    refine ⟨?_, fun hno => ?_, fun hyes => ?_⟩
    · simp only [Node.children, List.forall_mem_cons, List.not_mem_nil, false_implies,
        implies_true, and_true]
      exact ⟨hliesIn.1, h.liesIn hliesIn.2⟩
    · obtain ⟨middle, hkey, hvalue⟩ := hinOrder hno
      exact ⟨middle, hkey, InOrder.singleton.2 (h.liesIn (InOrder.singleton.1 hvalue))⟩
    · have hkeyStart := hsame hyes (.propertyKey key) (by simp) (.expression e) (by simp)
      simp only [Node.span?, Option.map_some, Option.some.injEq] at hkeyStart
      simp [hkeyStart, hstart]
  constructor
  · refine .mk ⟨⟨rfl, ?_, by rintro _ ⟨⟩, by rintro _ _ _ ⟨⟩, fun hpositioned => ?_,
      ⟨trivial, trivial⟩⟩, trivial, hn.lawful.proper.initialised.toPattern hread,
      fun _ => trivial⟩ ?_
    · change ∀ c ∈ [Node.propertyKey key, Node.pattern p], c.isOrdinary
      simpa [h.not_rest] using hordinary.1
    · exact ⟨_, _, harranged hpositioned⟩
    · exact List.forall_mem_cons.2 ⟨hkey, List.forall_mem_singleton.2 h.formed⟩
  · intro hpositioned low high hliesIn
    have hspan : span.LiesIn low high :=
      (Node.liesIn_iff_of_span (n := .objectProperty (.property ..)) rfl).1 hliesIn
    refine ⟨hliesIn.low_le_high, fun other hother => ?_⟩
    rw [Node.extents_of_no_span rfl] at hother
    obtain ⟨c, hc, hother⟩ := List.mem_flatMap.1 hother
    exact (((harranged hpositioned).liesIn c hc).extents other hother).mono hspan.low_le
      hspan.le_high

end ReadAs

/-! ## Patterns that bind -/

mutual

/-- The check for member expressions passes only if there are none. -/
theorem Checks.bindable (p : Pattern) {usage : Node.Usage}
    (h : S.FormedAs around usage (.pattern p)) : S.Checks p.checkBindable fun _ => p.Binds := by
  cases p with
  | identifier name span => exact .identifier name span
  | member expression => exact fail _ (h.start rfl)
  | object properties last span =>
    have hchildren := h.children rfl
    simp only [Node.children, Pattern.children, List.forall_mem_append, List.forall_mem_map]
      at hchildren
    unfold Pattern.checkBindable
    refine (propertiesBindable properties hchildren.1).bind fun _ hproperties => ?_
    refine (optionalBindable last ?_).mono fun _ hlast => .object hproperties hlast
    exact fun p hp => hchildren.2 p (Option.mem_toList.2 hp)
  | array elements span =>
    have hchildren := h.children rfl
    simp only [Node.children, Pattern.children, List.forall_mem_map] at hchildren
    unfold Pattern.checkBindable
    refine (elementsBindable elements fun p hp => ?_).mono fun _ helements => .array helements
    exact hchildren p (List.mem_filterMap.2 ⟨some p, hp, rfl⟩)
  | withDefault target default span =>
    unfold Pattern.checkBindable
    have htarget := bindable target (h.parts _ List.mem_cons_self)
    exact htarget.mono fun _ hbinds => .withDefault default span hbinds
  | rest argument span =>
    have hchildren := h.children rfl
    unfold Pattern.checkBindable
    have hargument := bindable argument (hchildren _ List.mem_cons_self)
    exact hargument.mono fun _ hbinds => .rest span hbinds
termination_by sizeOf p

theorem Checks.propertiesBindable (properties : List PatternProperty)
    (h : ∀ property ∈ properties, S.Formed around (.patternProperty property)) :
    S.Checks (EcmaScript.propertiesBindable properties) fun _ =>
      ∀ property ∈ properties, property.value.Binds := by
  match properties with
  | [] => exact fun _ hnone => by cases hnone
  | ⟨key, value, shorthand⟩ :: others =>
    rw [List.forall_mem_cons] at h
    have hvalue := h.1.parts _ (List.mem_cons_of_mem _ List.mem_cons_self)
    unfold EcmaScript.propertiesBindable
    refine (bindable value hvalue).bind fun _ hvalue => ?_
    refine (propertiesBindable others h.2).mono fun _ hothers => ?_
    exact List.forall_mem_cons.2 ⟨hvalue, hothers⟩
termination_by sizeOf properties

theorem Checks.optionalBindable (last : Option Pattern)
    (h : ∀ p ∈ last, S.Formed around (.pattern p)) :
    S.Checks (EcmaScript.optionalBindable last) fun _ => ∀ p ∈ last, p.Binds := by
  cases last with
  | none => exact fun _ hnone => by cases hnone
  | some p =>
    refine (bindable p (h p rfl)).mono fun _ hbinds => ?_
    rintro _ ⟨⟩
    exact hbinds
termination_by sizeOf last

theorem Checks.elementsBindable (elements : List (Option Pattern))
    (h : ∀ p, some p ∈ elements → S.Formed around (.pattern p)) :
    S.Checks (EcmaScript.elementsBindable elements) fun _ =>
      ∀ p, some p ∈ elements → p.Binds := by
  cases elements with
  | nil => exact fun _ hnone => by cases hnone
  | cons element others =>
    cases element with
    | none =>
      unfold EcmaScript.elementsBindable
      refine (elementsBindable others fun p hp => h p (List.mem_cons_of_mem _ hp)).mono ?_
      intro _ hothers p hp
      exact hothers p ((List.mem_cons.1 hp).resolve_left nofun)
    | some element =>
      unfold EcmaScript.elementsBindable
      refine (bindable element (h element List.mem_cons_self)).bind fun _ helement => ?_
      refine (elementsBindable others fun p hp => h p (List.mem_cons_of_mem _ hp)).mono ?_
      intro _ hothers p hp
      rcases List.mem_cons.1 hp with heq | hp
      · cases heq
        exact helement
      · exact hothers p hp
termination_by sizeOf elements

end

/-! ## Expressions read as patterns -/

/-- The elements are read as patterns, of which only the last may be a rest element. -/
structure ReadElements (S : Survey σ) (around : List Node.Step) (use : PatternUse)
    (elements : List (Option Expression)) (patterns : List (Option Pattern)) : Prop where
  recasts : S.Recasts around (plain ((elements.filterMap id).map .expression))
    (plain ((patterns.filterMap id).map .pattern))
  rest_last : ∀ p, some p ∈ patterns.dropLast → p.isRest = false
  binds : use = .binding → ∀ p, some p ∈ patterns → p.Binds

structure ReadProperties (S : Survey σ) (around : List Node.Step) (use : PatternUse)
    (properties : List ObjectProperty) (read : List PatternProperty × Option Pattern) : Prop where
  recasts : S.Recasts around (plain (properties.map .objectProperty))
    (plain (read.1.map .patternProperty ++ read.2.toList.map .pattern))
  rest : ∀ p ∈ read.2, p.isRest
  binds : use = .binding → (∀ property ∈ read.1, property.value.Binds) ∧ ∀ p ∈ read.2, p.Binds

/-- One more element in front, which is not a rest element. -/
theorem ReadElements.cons {elements : List (Option Expression)} {patterns : List (Option Pattern)}
    (h : S.ReadElements around use elements patterns) {e : Expression} {p : Pattern}
    (hp : S.ReadAs around .ordinary use e p) :
    S.ReadElements around use (some e :: elements) (some p :: patterns) where
  recasts := hp.recasts h.recasts
  rest_last q hq := by
    cases patterns with
    | nil => cases hq
    | cons pattern patterns =>
      rw [List.dropLast_cons_cons] at hq
      rcases List.mem_cons.1 hq with heq | hq
      · cases heq
        exact hp.not_rest
      · exact h.rest_last q hq
  binds huse q hq := by
    rcases List.mem_cons.1 hq with heq | hq
    · cases heq
      exact hp.binds huse
    · exact h.binds huse q hq

/-- One more hole in front. -/
theorem ReadElements.hole {elements : List (Option Expression)} {patterns : List (Option Pattern)}
    (h : S.ReadElements around use elements patterns) :
    S.ReadElements around use (none :: elements) (none :: patterns) where
  recasts := h.recasts
  rest_last q hq := by
    cases patterns with
    | nil => cases hq
    | cons pattern patterns =>
      rw [List.dropLast_cons_cons] at hq
      exact h.rest_last q ((List.mem_cons.1 hq).resolve_left nofun)
  binds huse q hq := h.binds huse q ((List.mem_cons.1 hq).resolve_left nofun)

/-- One more property in front. -/
theorem ReadProperties.cons {properties : List ObjectProperty}
    {read : List PatternProperty × Option Pattern}
    (h : S.ReadProperties around use properties read) {e : Expression} {p : Pattern}
    {shorthand : Bool} (hp : S.ReadAs around (Node.usageOfValue .init false shorthand) use e p)
    (hread : e.toPattern rules use = .ok p) {key : PropertyKey} {computed : Bool} {span : Span}
    (hn : S.Formed around (.objectProperty (.property key e .init false shorthand computed span))) :
    S.ReadProperties around use (.property key e .init false shorthand computed span :: properties)
      (⟨key, p, shorthand⟩ :: read.1, read.2) where
  recasts := .cons (hp.property hread hn).1 (hp.property hread hn).2 h.recasts
  rest := h.rest
  binds huse := ⟨List.forall_mem_cons.2 ⟨hp.binds huse, (h.binds huse).1⟩, (h.binds huse).2⟩

mutual

/-- An expression that is read as a pattern can be replaced by the pattern. -/
theorem Checks.toPattern (hrules : S.Governs around rules) (use : PatternUse) (e : Expression)
    {usage : Node.Usage} (h : S.FormedAs around usage (.expression e)) (husage : usage.ofTarget = usage) :
    S.Checks (e.toPattern rules use) (S.ReadAs around usage use e) := by
  have hstart : S.Exact e.span.start := h.start rfl
  cases e with
  | identifier name span =>
    unfold Expression.toPattern
    refine (binding hrules name hstart).bind fun _ ⟨_, hassigns⟩ => ?_
    refine ⟨?_, rfl, rfl, fun _ => rfl, nofun, fun _ => .identifier name span⟩
    exact Recasts.node h rfl rfl rfl rfl rfl rfl (by rintro _ ⟨⟩) .nil ⟨trivial, trivial⟩
      ⟨⟨h.lawful.proper.named (by rintro rfl; cases husage), hassigns⟩, trivial, fun _ => trivial⟩
  | member base property computed optional span =>
    unfold Expression.toPattern
    cases use with
    | binding => exact fail _ hstart
    | assignment =>
      refine (simpleTarget hrules _ hstart).bind fun _ ⟨hassignable, _⟩ => ?_
      refine ⟨?_, rfl, rfl, fun _ => rfl, nofun, nofun⟩
      have hcovers := h.covers rfl rfl rfl
      have hmember : S.Formed around (.expression (.member base property computed optional span)) := by
        refine .mk ⟨h.lawful.toWellFormed, trivial, trivial, fun _ => trivial⟩ ?_
        cases computed <;> exact h.parts
      refine .spanned rfl rfl rfl ?_ ⟨hcovers.start, hcovers.stop, hcovers.nonempty, ?_⟩ ?_
        ⟨⟨rfl, hassignable⟩, trivial⟩
      · change ∀ c ∈ [Node.expression (.member base property computed optional span)],
          c.isOrdinary
        exact List.forall_mem_singleton.2 rfl
      · intro hpositioned
        refine InOrder.singleton.2 ((Node.liesIn_iff_of_span rfl).2 ?_)
        exact ⟨Nat.le_refl _, hcovers.nonempty hpositioned, Nat.le_refl _⟩
      · exact List.forall_mem_singleton.2 hmember
  | assignment operator target value span =>
    have htarget : S.FormedAs around usage.ofTarget (.assignmentTarget target) :=
      h.parts _ List.mem_cons_self
    rw [husage] at htarget
    have hvalue : S.Formed around (.expression value) :=
      h.parts _ (List.mem_cons_of_mem _ List.mem_cons_self)
    have hordinary : ∀ c ∈ [Node.assignmentTarget target, Node.expression value], c.isOrdinary :=
      h.lawful.shaped
    simp only [List.forall_mem_cons, List.not_mem_nil, false_implies, implies_true, and_true]
      at hordinary
    unfold Expression.toPattern
    cases operator with
    | assign =>
      refine (targetToPattern hrules use target htarget husage).bind fun p hp => ?_
      obtain ⟨hformed, hrest, hdefault, hbinds, hliesIn⟩ := hp
      refine ⟨?_, rfl, rfl, nofun, nofun, fun huse => .withDefault value span (hbinds huse)⟩
      refine Recasts.node h rfl rfl rfl rfl rfl rfl ?_ ?_
      · exact ⟨hrest, hdefault, by simpa using hordinary.2⟩
      · change S.Recasts around [.here usage.ofTarget _, _] [.here usage.ofTarget _, _]
        rw [husage]
        exact .cons hformed hliesIn (.cons hvalue (fun _ => fun h => h) .nil)
    | _ => exact fail _ hstart
  | array elements span =>
    have hchildren := h.children rfl
    simp only [Node.children, Expression.children, List.forall_mem_map] at hchildren
    unfold Expression.toPattern
    refine (elementsToPatterns hrules use elements fun e he => ?_).bind fun patterns hpatterns => ?_
    · exact hchildren e (List.mem_filterMap.2 ⟨some e, he, rfl⟩)
    · refine ⟨?_, rfl, rfl, nofun, fun _ => rfl, fun huse => .array (hpatterns.binds huse)⟩
      exact Recasts.node h rfl rfl rfl rfl rfl rfl hpatterns.rest_last hpatterns.recasts
  | object properties span =>
    have hchildren := h.children rfl
    simp only [Node.children, Expression.children, List.forall_mem_map] at hchildren
    unfold Expression.toPattern
    refine (propertiesToPatterns hrules use properties hchildren).bind fun read hread => ?_
    have hbinds (huse : use = .binding) : (Pattern.object read.1 read.2 span).Binds :=
      .object (hread.binds huse).1 (hread.binds huse).2
    refine ⟨?_, rfl, rfl, nofun, fun _ => rfl, hbinds⟩
    exact Recasts.node h rfl rfl rfl rfl rfl rfl hread.rest hread.recasts
  | _ => exact fail _ hstart
termination_by sizeOf e

/-- The target of a default value can be replaced by the pattern that it is read as. -/
theorem Checks.targetToPattern (hrules : S.Governs around rules) (use : PatternUse)
    (target : AssignmentTarget) {usage : Node.Usage}
    (h : S.FormedAs around usage (.assignmentTarget target)) (husage : usage.ofTarget = usage) :
    S.Checks (target.toPattern rules use) fun p =>
      S.FormedAs around usage (.pattern p) ∧ p.isRest = false ∧ p.isDefault = false ∧
        (use = .binding → p.Binds) ∧ (S.positioned → ∀ {low high},
          (Node.assignmentTarget target).LiesIn low high → (Node.pattern p).LiesIn low high) := by
  have hshaped := h.lawful.shaped
  have hextents : (Node.assignmentTarget target).extents =
      (Node.assignmentTarget target).children.flatMap Node.extents := Node.extents_of_no_span rfl
  cases target with
  | simple e =>
    unfold AssignmentTarget.toPattern
    have he : S.FormedAs around usage.ofTarget (.expression e) := h.parts _ List.mem_cons_self
    rw [husage] at he
    refine (toPattern hrules use e he husage).mono fun p hp => ?_
    refine ⟨hp.formed, hp.not_rest, hp.not_default hshaped, hp.binds, fun _ => ?_⟩
    rintro low high ⟨hle, hliesIn⟩
    refine hp.liesIn ⟨hle, fun span hspan => hliesIn span ?_⟩
    rw [hextents]
    simpa using hspan
  | pattern target =>
    have htarget : S.FormedAs around usage.ofTarget (.pattern target) := h.parts _ List.mem_cons_self
    rw [husage] at htarget
    have hstructured := Pattern.not_rest_or_default_of_isStructured hshaped
    have hliesIn : ∀ {low high}, (Node.assignmentTarget (.pattern target)).LiesIn low high →
        (Node.pattern target).LiesIn low high := by
      rintro low high ⟨hle, hliesIn⟩
      refine ⟨hle, fun span hspan => hliesIn span ?_⟩
      rw [hextents]
      simpa using hspan
    unfold AssignmentTarget.toPattern
    cases use with
    | binding =>
      refine (bindable target htarget).bind fun _ hbinds => ?_
      exact ⟨htarget, hstructured.1, hstructured.2, fun _ => hbinds, fun _ => hliesIn⟩
    | assignment => exact ⟨htarget, hstructured.1, hstructured.2, nofun, fun _ => hliesIn⟩
termination_by sizeOf target

theorem Checks.elementsToPatterns (hrules : S.Governs around rules) (use : PatternUse)
    (elements : List (Option Expression))
    (h : ∀ e, some e ∈ elements → S.Formed around (.expression e)) :
    S.Checks (EcmaScript.elementsToPatterns rules use elements)
      (S.ReadElements around use elements) := by
  cases elements with
  | nil => exact ⟨.nil, by rintro _ ⟨⟩, by rintro _ _ ⟨⟩⟩
  | cons element others =>
    have hothers := fun e he => h e (List.mem_cons_of_mem element he)
    cases element with
    | none =>
      unfold EcmaScript.elementsToPatterns
      exact (elementsToPatterns hrules use others hothers).bind fun _ hpatterns => hpatterns.hole
    | some e =>
      have he := h e List.mem_cons_self
      unfold EcmaScript.elementsToPatterns
      split
      · next heq => cases heq
      · next heq => cases heq
      · next argument span heq =>
        cases heq
        have hargument := he.children rfl _ List.mem_cons_self
        refine (toPattern hrules use argument hargument rfl).bind fun p hp => ?_
        have hrest := hp.rest he rfl rfl rfl rfl
        refine ⟨.cons hrest (fun _ => liesIn_of_span_eq rfl rfl) .nil, by rintro _ ⟨⟩, ?_⟩
        intro huse q hq
        cases List.mem_singleton.1 hq
        exact .rest span (hp.binds huse)
      · next e' others' _ heq =>
        cases heq
        refine (toPattern hrules use e he rfl).bind fun p hp => ?_
        exact (elementsToPatterns hrules use others hothers).bind fun _ hpatterns =>
          hpatterns.cons hp
termination_by sizeOf elements

theorem Checks.propertiesToPatterns (hrules : S.Governs around rules) (use : PatternUse)
    (properties : List ObjectProperty)
    (h : ∀ property ∈ properties, S.Formed around (.objectProperty property)) :
    S.Checks (EcmaScript.propertiesToPatterns rules use properties)
      (S.ReadProperties around use properties) := by
  unfold EcmaScript.propertiesToPatterns
  split
  · exact ⟨.nil, nofun, fun _ => ⟨nofun, nofun⟩⟩
  · next argument span =>
    have hspread := h _ List.mem_cons_self
    have hargument := hspread.children rfl _ List.mem_cons_self
    refine (toPattern hrules use argument hargument rfl).bind fun p hp => ?_
    have hrest := hp.rest hspread rfl rfl rfl rfl
    refine ⟨.cons hrest (fun _ => liesIn_of_span_eq rfl rfl) .nil, ?_, fun huse => ⟨nofun, ?_⟩⟩
    · rintro _ ⟨⟩
      rfl
    · rintro _ ⟨⟩
      exact .rest span (hp.binds huse)
  · next key value shorthand computed span others =>
    rw [List.forall_mem_cons] at h
    have hvalue := h.1.parts _ (List.mem_cons_of_mem _ List.mem_cons_self)
    have husage : (Node.usageOfValue .init false shorthand).ofTarget =
        Node.usageOfValue .init false shorthand := by
      cases shorthand <;> rfl
    refine (toPattern hrules use value hvalue husage).result.bind fun p ⟨heq, hp⟩ => ?_
    exact (propertiesToPatterns hrules use others h.2).bind fun read hread => hread.cons hp heq h.1
  · exact fail _ ((h _ List.mem_cons_self).start rfl)
  · exact fail _ ((h _ List.mem_cons_self).start rfl)
termination_by sizeOf properties

end

/-! ## Parameters and targets -/

/-- Parameters, from the first one on. -/
theorem isParameterList_cons {p : Pattern} {params : List Pattern} (hrest : p.isRest = false)
    (hbinds : p.Binds) (h : IsParameterList params) : IsParameterList (p :: params) where
  rest_last q hq := by
    cases params with
    | nil => cases hq
    | cons param params =>
      rw [List.dropLast_cons_cons] at hq
      rcases List.mem_cons.1 hq with rfl | hq
      · exact hrest
      · exact h.rest_last q hq
  binds := List.forall_mem_cons.2 ⟨hbinds, h.binds⟩

/-- Arguments of a call that are read as parameters can be replaced by them. -/
theorem Checks.argumentsToParams (hrules : S.Governs around rules) (arguments : List Expression)
    (h : ∀ e ∈ arguments, S.Formed around (.expression e)) :
    S.Checks (EcmaScript.argumentsToParams rules arguments) fun params =>
      S.Recasts around (plain (arguments.map .expression)) (plain (params.map .pattern)) ∧
        IsParameterList params := by
  induction arguments with
  | nil => exact ⟨.nil, nofun, nofun⟩
  | cons e others ih =>
    rw [List.forall_mem_cons] at h
    unfold EcmaScript.argumentsToParams
    split
    · next heq => cases heq
    · next argument span heq =>
      cases heq
      have hargument := h.1.children rfl _ List.mem_cons_self
      refine (toPattern hrules .binding argument hargument rfl).bind fun p hp => ?_
      have hrest := hp.rest h.1 rfl rfl rfl rfl
      refine ⟨.cons hrest (fun _ => liesIn_of_span_eq rfl rfl) .nil, nofun, ?_⟩
      exact List.forall_mem_singleton.2 (.rest span (hp.binds rfl))
    · next heq =>
      cases heq
      refine (toPattern hrules .binding e h.1 rfl).bind fun p hp => ?_
      refine (ih h.2).bind fun params hparams => ?_
      exact ⟨hp.recasts hparams.1, isParameterList_cons hp.not_rest (hp.binds rfl) hparams.2⟩

/-- Items in parentheses that are read as parameters can be replaced by them. -/
theorem Checks.itemsToParams (hrules : S.Governs around rules) (items : List Expression)
    (h : ∀ e ∈ items, S.Formed around (.expression e)) :
    S.Checks (items.mapM (·.toPattern rules .binding)) fun params =>
      S.Recasts around (plain (items.map .expression)) (plain (params.map .pattern)) ∧
        ∀ p ∈ params, p.isRest = false ∧ p.Binds := by
  induction items with
  | nil => exact ⟨.nil, nofun⟩
  | cons e others ih =>
    rw [List.forall_mem_cons] at h
    rw [List.mapM_cons]
    refine (toPattern hrules .binding e h.1 rfl).bind fun p hp => ?_
    refine (ih h.2).bind fun params hparams => ?_
    exact ⟨hp.recasts hparams.1,
      List.forall_mem_cons.2 ⟨⟨hp.not_rest, hp.binds rfl⟩, hparams.2⟩⟩

/-- A node without a span around one node that has one. -/
theorem Recasts.wrapped {usage : Node.Usage} {n c : Node} {span : Span}
    (hc : S.FormedAs around usage c) (hprogram : c.isProgram = false) (hcspan : c.span? = some span)
    (hspan : n.span? = none) (hparts : n.parts usage = [.here usage c])
    (hshorthand : n.isShorthand = false) (hallowed : n.isAllowedIn (Node.enclosures around))
    (hshaped : n.IsShaped) (hsettable : n.IsSettable := by exact ⟨trivial, trivial⟩)
    (hproper : S.Proper around usage n := by exact ⟨trivial, trivial, fun _ => trivial⟩) :
    S.Recasts around [.here usage c] [.here usage n] := by
  have hinOrder {low high : Nat} (h : c.LiesIn low high) : InOrder low n.children high := by
    rw [← Node.map_node_parts usage, hparts]
    exact InOrder.singleton.2 h
  refine .cons ?_ (fun _ => fun h => InOrder.liesIn_of_children hspan (hinOrder h)) .nil
  refine .spanless hspan hshorthand hallowed hshaped
    (fun hpositioned => ⟨span.start.offset, span.stop.offset, hinOrder ?_⟩) ?_ hsettable hproper
  · have hnonempty := hc.lawful.nonempty hpositioned hprogram span hcspan
    exact (Node.liesIn_iff_of_span hcspan).2 ⟨Nat.le_refl _, hnonempty, Nat.le_refl _⟩
  · rw [hparts]
    exact List.forall_mem_singleton.2 hc

def FitsOperator (operator : AssignmentOperator) (target : AssignmentTarget) : Prop :=
  ∀ p, target = .pattern p → operator = .assign

theorem FitsOperator.isSettable {operator : AssignmentOperator} {target : AssignmentTarget}
    (h : FitsOperator operator target) (value : Expression) (span : Span) :
    (Node.expression (.assignment operator target value span)).IsSettable := by
  cases target with
  | simple e => exact ⟨trivial, trivial⟩
  | pattern p => exact ⟨h p rfl, trivial⟩

/-- An expression that is assigned to can be replaced by the target that it is read as. -/
theorem Checks.toTarget (hrules : S.Governs around rules) (operator : AssignmentOperator) (e : Expression)
    (h : S.Formed around (.expression e)) :
    S.Checks (e.toTarget rules operator) fun target =>
      S.Recasts around (plain [.expression e]) (plain [.assignmentTarget target]) ∧
        FitsOperator operator target := by
  have hstart : S.Exact e.span.start := h.start rfl
  have hsimple : S.Checks (do rules.checkSimpleTarget e; return AssignmentTarget.simple e)
      fun target => S.Recasts around (plain [.expression e]) (plain [.assignmentTarget target]) ∧
        FitsOperator operator target := by
    refine (simpleTarget hrules e hstart).bind fun _ ⟨hassignable, _⟩ => ⟨?_, nofun⟩
    exact Recasts.wrapped h rfl rfl rfl rfl rfl rfl hassignable.reference ⟨hassignable, trivial⟩
  have hpattern (he : isStructured e) :
      S.Checks (if operator == .assign then do
          return AssignmentTarget.pattern (← e.toPattern rules .assignment)
        else .error (.located .invalidTarget e.start))
      fun target => S.Recasts around (plain [.expression e]) (plain [.assignmentTarget target]) ∧
        FitsOperator operator target := by
    split
    · next hoperator =>
      refine (toPattern hrules .assignment e h rfl).bind fun p hp =>
        ⟨?_, fun _ _ => eq_of_beq hoperator⟩
      have hwrapped : S.Recasts around (plain [.pattern p]) (plain [.assignmentTarget (.pattern p)]) :=
        Recasts.wrapped hp.formed rfl rfl rfl rfl rfl rfl (hp.structured he)
      exact (hp.recasts .nil).trans hwrapped
    · exact fail _ hstart
  cases e with
  | identifier name span => exact hsimple
  | member base property computed optional span => exact hsimple
  | array elements span => exact hpattern rfl
  | object properties span => exact hpattern rfl
  | _ => exact fail _ hstart

/-- An expression in the head of a loop can be replaced by the target that it is read as. -/
theorem Checks.toForTarget (hrules : S.Governs around rules) (e : Expression)
    (h : S.Formed around (.expression e)) :
    S.Checks (e.toForTarget rules) fun target =>
      S.Recasts around (plain [.expression e]) (plain [.forTarget target]) := by
  have hstart : S.Exact e.span.start := h.start rfl
  have hsimple : S.Checks (do rules.checkSimpleTarget e; return ForTarget.expression e)
      fun target => S.Recasts around (plain [.expression e]) (plain [.forTarget target]) := by
    refine (simpleTarget hrules e hstart).bind fun _ ⟨hassignable, _⟩ => ?_
    refine Recasts.wrapped h rfl rfl rfl rfl rfl rfl ?_ ⟨hassignable, trivial⟩
    change ∀ c ∈ [Node.expression e], c.isOrdinary
    simp [Expression.role_of_isReference hassignable.reference]
  have hpattern :
      S.Checks (do return ForTarget.pattern (← e.toPattern rules .assignment))
      fun target => S.Recasts around (plain [.expression e]) (plain [.forTarget target]) := by
    refine (toPattern hrules .assignment e h rfl).bind fun p hp => ?_
    have hshaped : (Node.forTarget (.pattern p)).IsShaped := by
      change ∀ c ∈ [Node.pattern p], c.isOrdinary
      simp [hp.not_rest]
    have hwrapped : S.Recasts around (plain [.pattern p]) (plain [.forTarget (.pattern p)]) :=
      Recasts.wrapped hp.formed rfl rfl rfl rfl rfl rfl hshaped
    exact (hp.recasts .nil).trans hwrapped
  cases e with
  | array elements span => exact hpattern
  | object properties span => exact hpattern
  | _ => exact hsimple

end Survey

end EcmaScript
