import EcmaScript.Proofs.Tree.Surroundings

/-!
The parts of a node, and what they are used as.

The step from a node to one of its parts may lead into code with rules of its own: into the code of
a function, an arrow function or a field, or into that of a class, which is strict. A part may also
be used in a way of its own. The name behind a dot is no name of a variable; a property that is a
name alone has the same name as its value; and the function of a method begins at its parameters.
Whatever else a node consists of is ordinary.
-/

namespace EcmaScript

namespace Node

/-- What the step from a node to one of its parts leads into. -/
inductive Step where
  | code (enclosure : Enclosure)
  /-- What stands between the name of a class and its end. -/
  | classCode
deriving DecidableEq

def enclosures (around : List Step) : List Enclosure :=
  around.filterMap fun
    | .code enclosure => some enclosure
    | .classCode => none

/-- What a part of a node is used as. -/
inductive Usage where
  | ordinary
  /-- The name behind a dot. -/
  | property
  /-- The value of a property that is a name alone, or the name in it if it has a default value. -/
  | shorthand
  /-- The function of a method or accessor in an object literal. -/
  | method
deriving DecidableEq

/-- A node below another one, with the step to it and what it is used as. -/
structure Part where
  step : Option Step
  usage : Usage
  node : Node

/-- A part to which the step leads into nothing. -/
abbrev Part.here (usage : Usage) (n : Node) : Part := ⟨none, usage, n⟩

def usageOfValue (kind : PropertyKind) (method shorthand : Bool) : Usage :=
  if shorthand then .shorthand else if method || kind != .init then .method else .ordinary

theorem usageOfValue_ne_property (kind : PropertyKind) (method shorthand : Bool) :
    usageOfValue kind method shorthand ≠ .property := by
  cases shorthand <;> cases method <;> cases kind <;> exact nofun

/-- What the target of an assignment or of a default value is used as: the name in front of a
default value may be that of the property, all other targets are ordinary. -/
def Usage.ofTarget : Usage → Usage
  | .shorthand => .shorthand
  | _ => .ordinary

def parts (usage : Usage) : Node → List Part
  | .expression (.member object property false _ _) =>
    [.here .ordinary (.expression object), .here .property (.expression property)]
  | .expression (.assignment _ target value _) =>
    [.here usage.ofTarget (.assignmentTarget target), .here .ordinary (.expression value)]
  | .assignmentTarget (.simple target) => [.here usage.ofTarget (.expression target)]
  | .assignmentTarget (.pattern target) => [.here usage.ofTarget (.pattern target)]
  | .objectProperty (.property key value kind method shorthand _ _) =>
    [.here .ordinary (.propertyKey key),
      .here (usageOfValue kind method shorthand) (.expression value)]
  | .patternProperty property =>
    [.here .ordinary (.propertyKey property.key),
      .here (usageOfValue .init false property.shorthand) (.pattern property.value)]
  | .pattern (.withDefault target default _) =>
    [.here usage.ofTarget (.pattern target), .here .ordinary (.expression default)]
  | .class_ c => (children (.class_ c)).map fun n => ⟨some .classCode, .ordinary, n⟩
  | n => n.children.map fun c => ⟨(n.enclosure? c).map .code, .ordinary, c⟩

/-- The parts of a node are its children. -/
@[simp] theorem map_node_parts (usage : Usage) (n : Node) :
    (parts usage n).map Part.node = n.children := by
  unfold parts
  split
  case h_8 | h_9 =>
    rw [List.map_map]
    exact List.map_id _
  all_goals rfl

/-- The step to a part leads into what surrounds it. -/
theorem enclosures_step (usage : Usage) (n : Node) :
    ∀ p ∈ parts usage n, enclosures p.step.toList = (n.enclosure? p.node).toList := by
  unfold parts
  split
  case h_8 c =>
    intro p hp
    obtain ⟨_, -, rfl⟩ := List.mem_map.1 hp
    rfl
  case h_9 =>
    intro p hp
    obtain ⟨c, -, rfl⟩ := List.mem_map.1 hp
    cases n.enclosure? c <;> rfl
  all_goals
    simp only [List.forall_mem_cons, List.not_mem_nil, false_implies, implies_true, and_true]
    first | exact ⟨rfl, rfl⟩ | exact rfl

inductive Used (usage : Usage) : Node → Part → Prop where
  | ordinary (n : Node) (step : Option Step) (c : Node) : Used usage n ⟨step, .ordinary, c⟩
  | property (object property : Expression) (optional : Bool) (span : Span) :
    Used usage (.expression (.member object property false optional span))
      (.here .property (.expression property))
  | value (key : PropertyKey) (value : Expression) (kind : PropertyKind)
      (method shorthand computed : Bool) (span : Span) :
    Used usage (.objectProperty (.property key value kind method shorthand computed span))
      (.here (usageOfValue kind method shorthand) (.expression value))
  | patternValue (property : PatternProperty) :
    Used usage (.patternProperty property)
      (.here (usageOfValue .init false property.shorthand) (.pattern property.value))
  | target (n c : Node) : Used usage n (.here usage.ofTarget c)

theorem used_of_mem_parts {usage : Usage} {n : Node} :
    ∀ p ∈ parts usage n, Used usage n p := by
  unfold parts
  split
  case h_8 c =>
    intro p hp
    obtain ⟨_, -, rfl⟩ := List.mem_map.1 hp
    exact .ordinary _ _ _
  case h_9 =>
    intro p hp
    obtain ⟨c, -, rfl⟩ := List.mem_map.1 hp
    exact .ordinary _ _ _
  all_goals
    simp only [List.forall_mem_cons, List.not_mem_nil, false_implies, implies_true, and_true]
  · exact ⟨.ordinary _ _ _, .property _ _ _ _⟩
  · exact ⟨.target _ _, .ordinary _ _ _⟩
  · exact .target _ _
  · exact .target _ _
  · exact ⟨.ordinary _ _ _, .value _ _ _ _ _ _ _⟩
  · exact ⟨.ordinary _ _ _, .patternValue _⟩
  · exact ⟨.target _ _, .ordinary _ _ _⟩

/-! ## Occurrences as parts -/

/-- The node stands in the tree below `root`, inside the nodes of `path`, behind the steps, and is
used in a way; all of this innermost first. -/
inductive OccursAs (root : Node) : List Node → List Step → Usage → Node → Prop where
  | here : OccursAs root [] [] .ordinary root
  | part {path : List Node} {steps : List Step} {usage : Usage} {n : Node} {p : Part}
      (h : OccursAs root path steps usage n) (hp : p ∈ n.parts usage) :
      OccursAs root (n :: path) (p.step.toList ++ steps) p.usage p.node

/-- Whatever occurs is used in some way. -/
theorem Occurs.as {root n : Node} {path : List Node} (h : Occurs root path n) :
    ∃ steps usage, OccursAs root path steps usage n := by
  induction h with
  | here => exact ⟨[], .ordinary, .here⟩
  | child hn hc ih =>
    obtain ⟨steps, usage, h⟩ := ih
    rw [← map_node_parts usage] at hc
    obtain ⟨p, hp, rfl⟩ := List.mem_map.1 hc
    exact ⟨_, _, h.part hp⟩

namespace OccursAs

variable {root n : Node} {path : List Node} {steps : List Step} {usage : Usage}

theorem enclosures_eq (h : OccursAs root path steps usage n) :
    enclosures steps = surroundings path n := by
  induction h with
  | here => rfl
  | part h hp ih =>
    rw [enclosures, List.filterMap_append, ← enclosures, ← enclosures, ih,
      enclosures_step _ _ _ hp]
    rfl

/-- The steps lead into the code of a class if a class is around. -/
theorem classCode_mem_iff (h : OccursAs root path steps usage n) :
    .classCode ∈ steps ↔ ∃ c, .class_ c ∈ path := by
  induction h with
  | here => simp
  | @part path steps usage n p h hp ih =>
    have hstep : .classCode ∈ p.step.toList ↔ ∃ c, n = .class_ c := by
      unfold parts at hp
      split at hp
      case h_8 c =>
        obtain ⟨_, -, rfl⟩ := List.mem_map.1 hp
        simp
      case h_9 hclass =>
        obtain ⟨c, -, rfl⟩ := List.mem_map.1 hp
        cases hencloses : n.enclosure? c <;> simpa using hclass
      all_goals
        simp only [List.mem_cons, List.not_mem_nil, or_false] at hp
        rcases hp with rfl | rfl <;> simp
    simp only [List.mem_append, hstep, ih, List.mem_cons]
    constructor
    · rintro (⟨c, rfl⟩ | ⟨c, hc⟩)
      · exact ⟨c, .inl rfl⟩
      · exact ⟨c, .inr hc⟩
    · rintro ⟨c, rfl | hc⟩
      · exact .inl ⟨c, rfl⟩
      · exact .inr ⟨c, hc⟩

/-- What is used as the name behind a dot is the property of a member access. -/
theorem property (h : OccursAs root path steps .property n) :
    ∃ object property optional span, n = .expression property ∧
      path.head? = some (.expression (.member object property false optional span)) := by
  generalize husage : Usage.property = usage at h
  cases h with
  | here => cases husage
  | @part path steps usage m p h hp =>
    cases used_of_mem_parts p hp with
    | ordinary => cases husage
    | property object property optional span => exact ⟨object, property, optional, span, rfl, rfl⟩
    | value => exact absurd husage.symm (usageOfValue_ne_property _ _ _)
    | patternValue => exact absurd husage.symm (usageOfValue_ne_property _ _ _)
    | target => cases usage <;> cases husage

/-- What is used as the function of a method is the value of a method or accessor. -/
theorem method (h : OccursAs root path steps .method n) :
    ∃ key value kind method shorthand computed span, n = .expression value ∧
      (method = true ∨ kind ≠ .init) ∧ path.head? =
        some (.objectProperty (.property key value kind method shorthand computed span)) := by
  generalize husage : Usage.method = usage at h
  cases h with
  | here => cases husage
  | @part path steps usage m p h hp =>
    cases used_of_mem_parts p hp with
    | ordinary => cases husage
    | property => cases husage
    | value key value kind method shorthand computed span =>
      refine ⟨key, value, kind, method, shorthand, computed, span, rfl, ?_, rfl⟩
      by_cases hkind : kind = .init
      · subst hkind
        cases shorthand <;> cases method <;> first | exact .inl rfl | cases husage
      · exact .inr hkind
    | patternValue property =>
      obtain ⟨key, value, shorthand⟩ := property
      cases shorthand <;> cases husage
    | target => cases usage <;> cases husage

end OccursAs

end Node

/-- What a region of the parser leads into in the tree, if it is anything there. -/
def Region.step? : Region → Option Node.Step
  | .classCode => some .classCode
  | region => region.enclosure?.map .code

theorem Region.enclosures_step? (region : Region) (around : List Node.Step) :
    Node.enclosures (region.step?.toList ++ around) =
      region.enclosure?.toList ++ Node.enclosures around := by
  cases region <;> rfl

end EcmaScript
