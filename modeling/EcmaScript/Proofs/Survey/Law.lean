import EcmaScript.Hooks
import EcmaScript.Proofs.Tree.Layout
import EcmaScript.Proofs.Tree.Parts
import EcmaScript.Proofs.Wording
import EcmaScript.Tree.Target

/-!
What a tree has to do with the source that it is read from.

A name is an identifier where it stands. Where it is the name of an operator, which it can be only
in a generator or in an async function, it was written with an escape, unless it is a property that
is a name alone. A variable that needs an initial value has one, and a property that is a name alone
has that name for its value, perhaps with a default. And what is modified by a word has that word in
front of it.
-/

namespace EcmaScript

/-- How a source is read. -/
structure Survey (σ : Type) where
  source : List Char
  goal : Goal
  /-- Whether positions are followed. -/
  positioned : Prop
  /-- What holds of the state of the hooks. -/
  fine : σ → Prop

/-- Whether the name is that of an operator in the code: `yield` directly in a generator, `await`
directly in an async function. -/
def Enclosure.isOperator (around : List Enclosure) (name : String) : Bool :=
  (name == "yield" && allowYield around) || (name == "await" && allowAwait around)

def MethodKind.word? : MethodKind → Option String
  | .get => some "get"
  | .set => some "set"
  | _ => none

def PropertyKind.word? : PropertyKind → Option String
  | .get => some "get"
  | .set => some "set"
  | .init => none

/-- The words in front of a key. -/
def modifierWords (isStatic isAsync isGenerator : Bool) (accessor : Option String) : List String :=
  (if isStatic then ["static"] else []) ++ (if isAsync then ["async"] else []) ++
    (if isGenerator then ["*"] else []) ++ accessor.toList

/-- The word `async` stands at the offset, and the next token on the same line. -/
structure BeginsAsync (source : List Char) (offset : Nat) : Prop where
  word : StandsAt source offset "async"
  onLine : OnLine source (offset + "async".toList.length)

/-- The variable has an initial value, or is neither a constant nor a pattern. -/
def Declarator.IsComplete (kind : VariableKind) (d : Declarator) : Prop :=
  d.init = none → kind ≠ .const ∧ d.id.isIdentifier

/-- The value is the name alone, or the name with a default value. -/
def Expression.Abbreviates (name : String) (span : Span) (value : Expression) : Prop :=
  value = .identifier name span ∨
    ∃ default own, value = .assignment .assign (.simple (.identifier name span)) default own

/-- The pattern is the name alone, or the name with a default value. -/
def Pattern.Abbreviates (name : String) (span : Span) (value : Pattern) : Prop :=
  value = .identifier name span ∨
    ∃ default own, value = .withDefault (.identifier name span) default own

/-- A property without a value of its own is a plain one, and its value is its key. -/
def ObjectProperty.IsAbbreviated : ObjectProperty → Prop
  | .property key value kind method true computed _ =>
    kind = .init ∧ method = false ∧ computed = false ∧
      ∃ name span, key = .identifier name span ∧ value.Abbreviates name span
  | _ => True

/-- A property without a pattern of its own binds its key. -/
def PatternProperty.IsAbbreviated : PatternProperty → Prop
  | ⟨key, value, true⟩ => ∃ name span, key = .identifier name span ∧ value.Abbreviates name span
  | _ => True

/-- An opening parenthesis stands behind the start of the span and in front of all nodes. -/
def OpensParenthesis (source : List Char) (span : Span) (nodes : List Node) : Prop :=
  ∃ offset, span.start.offset < offset ∧ StandsAt source offset "(" ∧
    InOrder (offset + 1) nodes span.stop.offset

namespace Survey

variable {σ : Type} (S : Survey σ)

/-! ## Names -/

def Strict (around : List Node.Step) : Prop := S.goal = .module ∨ .classCode ∈ around

/-- The word is an identifier in the code. -/
structure Fits (around : List Node.Step) (name : String) : Prop where
  usable : rejectWord? name false S.goal = none
  strict : S.Strict around → rejectWord? name true S.goal = none

structure Governs (around : List Node.Step) (rules : NameRules) : Prop where
  goal : rules.goal = S.goal
  strict : S.Strict around → rules.strict = true

def Assigns (around : List Node.Step) (name : String) : Prop :=
  S.Strict around → NameRules.isRestricted name = false

/-- The word at the offset is written with an escape if the name is that of an operator. -/
def Escapes (around : List Node.Step) (name : String) (offset : Nat) : Prop :=
  S.positioned → Enclosure.isOperator (Node.enclosures around) name →
    Scan.hasEscape (S.source.drop offset) = true

structure Named (around : List Node.Step) (usage : Node.Usage) (name : String) (span : Span) :
    Prop where
  fits : S.Fits around name
  escapes : usage ≠ .shorthand → S.Escapes around name span.start.offset

structure Bears (around : List Node.Step) (name : String) (span : Span) (nodes : List Node) :
    Prop where
  fits : S.Fits around name
  place : S.positioned → ∃ offset, span.start.offset ≤ offset ∧
    InOrder (offset + 1) nodes span.stop.offset ∧ S.Escapes around name offset

/-- The names that the node uses, binds and bears are identifiers, and it changes only what the code
may change. -/
def IsNamed (around : List Node.Step) (usage : Node.Usage) : Node → Prop
  | .expression (.identifier name span) => usage ≠ .property → S.Named around usage name span
  | .pattern (.identifier name span) => S.Named around usage name span ∧ S.Assigns around name
  | .expression (.update _ _ (.identifier name _) _) => S.Assigns around name
  | .expression (.unary .delete (.identifier _ _) _) => ¬S.Strict around
  | .expression (.function (some name) f) | .statement (.function name f) =>
    S.Bears around name f.span (Node.function f).children ∧ S.Assigns around name
  | .expression (.class_ (some name) c) | .statement (.class_ name c) =>
    S.Bears (.classCode :: around) name c.span (Node.class_ c).children ∧
      S.Assigns (.classCode :: around) name
  | .statement (.labeled label body span) => S.Bears around label span [.statement body]
  | .statement (.break_ (some label) span) | .statement (.continue_ (some label) span) =>
    S.Bears around label span []
  | _ => True

variable {S} {around : List Node.Step} {rules : NameRules} {name : String}

/-- What strict code does not refuse no code does. -/
theorem rejectWord?_sloppy {goal : Goal} {strict : Bool} (h : rejectWord? name strict goal = none) :
    rejectWord? name false goal = none := by
  unfold rejectWord? at h ⊢
  split at h
  · cases h
  split at h
  · cases h
  split at h
  · cases h
  · next hkeyword hawait hreserved =>
    rw [Bool.or_eq_true, not_or] at hreserved
    rw [if_neg hkeyword, if_neg hawait, if_neg (by simpa using hreserved.1)]

theorem Governs.fits (h : S.Governs around rules)
    (haccepts : rejectWord? name rules.strict rules.goal = none) : S.Fits around name := by
  rw [h.goal] at haccepts
  refine ⟨rejectWord?_sloppy haccepts, fun hstrict => ?_⟩
  rwa [h.strict hstrict] at haccepts

theorem Governs.assigns (h : S.Governs around rules)
    (haccepts : ¬(rules.strict && NameRules.isRestricted name) = true) : S.Assigns around name := by
  intro hstrict
  rw [h.strict hstrict, Bool.true_and] at haccepts
  exact Bool.eq_false_iff.2 haccepts

variable (S)

/-! ## Values and modifiers -/

/-- Of the variables of a statement, constants and patterns have an initial value, and properties
without a value have that of their key. -/
def IsInitialised : Node → Prop
  | .statement (.variables kind declarators _) => ∀ d ∈ declarators, d.IsComplete kind
  | .objectProperty property => property.IsAbbreviated
  | .patternProperty property => property.IsAbbreviated
  | _ => True

def IsModified (usage : Node.Usage) : Node → Prop
  | .expression (.function _ f) =>
    usage ≠ .method → f.isAsync → BeginsAsync S.source f.span.start.offset
  | .statement (.function _ f) => f.isAsync → BeginsAsync S.source f.span.start.offset
  | n@(.expression (.arrow _ _ true span)) =>
    BeginsAsync S.source span.start.offset ∨ OpensParenthesis S.source span n.children
  | .objectProperty (.property key value kind method shorthand _ span) =>
    Node.usageOfValue kind method shorthand = .method → ∀ name f, value = .function name f →
      Words S.source span.start.offset (modifierWords false f.isAsync f.isGenerator kind.word?)
        key.start.offset
  | .classElement (.method key kind f isStatic _ span) =>
    Words S.source span.start.offset (modifierWords isStatic f.isAsync f.isGenerator kind.word?)
      key.start.offset
  | .classElement (.field key _ isStatic _ span) =>
    Words S.source span.start.offset (modifierWords isStatic false false none) key.start.offset
  | _ => True

/-- What the node has to do with the source is as it must be. -/
structure Proper (around : List Node.Step) (usage : Node.Usage) (n : Node) : Prop where
  named : S.IsNamed around usage n
  initialised : IsInitialised n
  modified : S.positioned → S.IsModified usage n

end Survey

end EcmaScript
