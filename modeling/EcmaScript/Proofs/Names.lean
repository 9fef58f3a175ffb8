import EcmaScript.Proofs.WellFormed

/-!
The names in a tree.

No name is a word that the code reserves where it stands, however it is spelled. Code that is strict
throughout reserves more words; it binds no `eval` and no `arguments`, updates neither, and deletes
no variable. Where a word is an operator, a name can be that word only if it is written with an
escape or is a property that is a name alone.
-/

namespace EcmaScript

variable {σ : Type}

/-! ## Identifiers -/

/-- The words that no code uses as a name. -/
def reservedWords : List String :=
  ["break", "case", "catch", "class", "const", "continue", "debugger", "default", "delete", "do",
   "else", "export", "extends", "false", "finally", "for", "function", "if", "import", "in",
   "instanceof", "new", "null", "return", "super", "switch", "this", "throw", "true", "try",
   "typeof", "var", "void", "while", "with", "enum"]

structure IsIdentifier (goal : Goal) (strict : Prop) (name : String) : Prop where
  unreserved : name ∉ reservedWords
  notAwait : goal = .module → name ≠ "await"
  unreservedIfStrict : strict → name ∉ strictReservedWords

structure IsBindable (goal : Goal) (strict : Prop) (name : String) : Prop
    extends IsIdentifier goal strict name where
  unrestricted : strict → name ≠ "eval" ∧ name ≠ "arguments"

/-- All reserved words but one are keywords that are never names. -/
theorem mem_reservedWords {name : String} :
    name ∈ reservedWords ↔ isAlwaysKeyword name = true ∨ name = "enum" := by
  constructor
  · revert name
    decide +kernel
  · rintro (hkeyword | rfl)
    · obtain ⟨word, hfind, hword⟩ := (Option.any_eq_true _ _).1 hkeyword
      obtain rfl : word.spelling = name := by simpa using List.find?_some hfind
      cases word <;> first | decide | cases hword
    · decide

/-- A word that is not rejected is an identifier. -/
theorem isIdentifier_of_rejectWord? {goal : Goal} {strict : Bool} {name : String}
    (h : rejectWord? name strict goal = none) : IsIdentifier goal (strict = true) name := by
  unfold rejectWord? at h
  split at h
  · cases h
  split at h
  · cases h
  split at h
  · cases h
  · next hkeyword hawait hreserved =>
    rw [Bool.or_eq_true, not_or] at hreserved
    refine ⟨fun hmem => ?_, fun hgoal hname => ?_, fun hstrict hmem => ?_⟩
    · rcases mem_reservedWords.1 hmem with hname | hname
      · exact hkeyword hname
      · exact hreserved.1 (beq_iff_eq.2 hname)
    · exact hawait (by rw [hname, hgoal]; rfl)
    · exact hreserved.2 (by rw [hstrict]; exact List.contains_iff_mem.2 hmem)

theorem ne_of_isRestricted {name : String} (h : NameRules.isRestricted name = false) :
    name ≠ "eval" ∧ name ≠ "arguments" := by
  rw [NameRules.isRestricted, Bool.or_eq_false_iff, beq_eq_false_iff_ne, beq_eq_false_iff_ne] at h
  exact h

namespace Survey

variable {S : Survey σ} {around : List Node.Step} {name : String}

theorem Fits.isIdentifier (h : S.Fits around name) :
    IsIdentifier S.goal (S.Strict around) name := by
  have husable := isIdentifier_of_rejectWord? h.usable
  exact ⟨husable.unreserved, husable.notAwait,
    fun hstrict => (isIdentifier_of_rejectWord? (h.strict hstrict)).unreservedIfStrict rfl⟩

theorem Fits.isBindable (h : S.Fits around name) (hassigns : S.Assigns around name) :
    IsBindable S.goal (S.Strict around) name :=
  ⟨h.isIdentifier, fun hstrict => ne_of_isRestricted (hassigns hstrict)⟩

end Survey

/-! ## The names of a program -/

/-- The code inside the nodes is strict whatever its directives are: in a module or a class. -/
def IsStrictIn (goal : Goal) (path : List Node) : Prop := goal = .module ∨ ∃ c, .class_ c ∈ path

/-- The program uses only identifiers as names, and does to variables only what its code may do. -/
structure Program.NamesProperly (goal : Goal) (p : Program) : Prop where
  /-- A name that is an expression, unless it is the one behind a dot. -/
  references : ∀ path name span,
    Node.Occurs (.program p) path (.expression (.identifier name span)) →
      (∀ object optional outer, path.head? ≠
        some (.expression (.member object (.identifier name span) false optional outer))) →
          IsIdentifier goal (IsStrictIn goal path) name
  /-- The name in front of a dot or bracket. -/
  objects : ∀ path name span property computed optional outer, Node.Occurs (.program p) path
    (.expression (.member (.identifier name span) property computed optional outer)) →
      IsIdentifier goal (IsStrictIn goal path) name
  /-- A variable in a pattern. -/
  patterns : ∀ path name span, Node.Occurs (.program p) path (.pattern (.identifier name span)) →
    IsBindable goal (IsStrictIn goal path) name
  functions : ∀ path name f, Node.Occurs (.program p) path (.statement (.function name f)) ∨
    Node.Occurs (.program p) path (.expression (.function (some name) f)) →
      IsBindable goal (IsStrictIn goal path) name
  /-- The code of a class is strict from the name of the class on. -/
  classes : ∀ path name c, Node.Occurs (.program p) path (.statement (.class_ name c)) ∨
    Node.Occurs (.program p) path (.expression (.class_ (some name) c)) →
      IsBindable goal True name
  labels : ∀ path label body span,
    Node.Occurs (.program p) path (.statement (.labeled label body span)) →
      IsIdentifier goal (IsStrictIn goal path) label
  /-- The label that a jump leads to. -/
  jumps : ∀ path label span,
    Node.Occurs (.program p) path (.statement (.break_ (some label) span)) ∨
      Node.Occurs (.program p) path (.statement (.continue_ (some label) span)) →
        IsIdentifier goal (IsStrictIn goal path) label
  updates : ∀ path operator inFront name span outer, Node.Occurs (.program p) path
    (.expression (.update operator inFront (.identifier name span) outer)) →
      IsStrictIn goal path → name ≠ "eval" ∧ name ≠ "arguments"
  deletes : ∀ path name span outer, Node.Occurs (.program p) path
    (.expression (.unary .delete (.identifier name span) outer)) → ¬IsStrictIn goal path

/-- In every program that is returned, names are identifiers, and strict code binds no `eval` and no
`arguments`, updates neither, and deletes no variable. -/
theorem parse_namesProperly (source : String) (options : Options) (hooks : Hooks σ) (initial : σ)
    (p : Program) (h : parseWith source options hooks initial = .ok p) :
    p.NamesProperly options.goal := by
  have hreturns := Survey.returns_unpositioned source options hooks initial
  rw [h] at hreturns
  let S : Survey σ := .unpositioned options.goal
  have hstrict {path steps usage n} (hn : Node.OccursAs (.program p) path steps usage n) :
      S.Strict steps = IsStrictIn options.goal path := by
    rw [Survey.Strict, hn.classCode_mem_iff]
    rfl
  have hnamed (path : List Node) (n : Node) (hn : Node.Occurs (.program p) path n) :
      ∃ steps usage, S.Strict steps = IsStrictIn options.goal path ∧ S.IsNamed steps usage n := by
    obtain ⟨steps, usage, hn⟩ := hn.as
    exact ⟨steps, usage, hstrict hn, (hreturns.occurs hn).proper.named⟩
  have hreference {path steps usage name span}
      (hn : Node.OccursAs (.program p) path steps usage (.expression (.identifier name span)))
      (husage : usage ≠ .property) :
      IsIdentifier options.goal (IsStrictIn options.goal path) name := by
    rw [← hstrict hn]
    exact ((hreturns.occurs hn).proper.named husage).fits.isIdentifier
  refine ⟨?_, ?_, ?_, ?_, ?_, ?_, ?_, ?_, ?_⟩
  · intro path name span hn hproperty
    obtain ⟨steps, usage, hn⟩ := hn.as
    refine hreference hn ?_
    rintro rfl
    obtain ⟨object, property, optional, outer, hname, hpath⟩ := hn.property
    cases hname
    exact hproperty object optional outer hpath
  · intro path name span property computed optional outer hn
    obtain ⟨steps, usage, hn⟩ := hn.as
    have hpart : ⟨none, .ordinary, .expression (.identifier name span)⟩ ∈ Node.parts usage
        (.expression (.member (.identifier name span) property computed optional outer)) := by
      cases computed <;> exact List.mem_cons_self
    have hobject := hreference (hn.part hpart) nofun
    simpa [IsStrictIn] using hobject
  · intro path name span hn
    obtain ⟨steps, usage, hstrict, hnamed⟩ := hnamed path _ hn
    rw [← hstrict]
    exact hnamed.1.fits.isBindable hnamed.2
  · rintro path name f (hn | hn)
    all_goals
      obtain ⟨steps, usage, hstrict, hnamed⟩ := hnamed path _ hn
      rw [← hstrict]
      exact hnamed.1.fits.isBindable hnamed.2
  · rintro path name c (hn | hn)
    all_goals
      obtain ⟨steps, usage, -, hnamed⟩ := hnamed path _ hn
      have hbindable := hnamed.1.fits.isBindable hnamed.2
      have hclass : S.Strict (.classCode :: steps) := .inr List.mem_cons_self
      rwa [eq_true hclass] at hbindable
  · intro path label body span hn
    obtain ⟨steps, usage, hstrict, hnamed⟩ := hnamed path _ hn
    rw [← hstrict]
    exact hnamed.fits.isIdentifier
  · rintro path label span (hn | hn)
    all_goals
      obtain ⟨steps, usage, hstrict, hnamed⟩ := hnamed path _ hn
      rw [← hstrict]
      exact hnamed.fits.isIdentifier
  · intro path operator inFront name span outer hn hin
    obtain ⟨steps, usage, hstrict, hnamed⟩ := hnamed path _ hn
    exact ne_of_isRestricted (hnamed (hstrict ▸ hin))
  · intro path name span outer hn hin
    obtain ⟨steps, usage, hstrict, hnamed⟩ := hnamed path _ hn
    exact hnamed (hstrict ▸ hin)

/-- A label, a variable and a parameter; reserved and restricted words behind dots. -/
theorem parse_namesProperly_of_class :
    ∃ p, parse "a: for (let b = c.if;; ++b) (class D \x7b e(f) \x7b delete f.eval \x7d \x7d)" {} =
      .ok p ∧ p.NamesProperly .script := by
  obtain ⟨p, hparse⟩ := exists_ok_of_isOk
    (show (parse "a: for (let b = c.if;; ++b) (class D \x7b e(f) \x7b delete f.eval \x7d \x7d)"
      {}).isOk = true by decide +kernel)
  exact ⟨p, hparse, parse_namesProperly _ {} .privateNames {} p hparse⟩

/-! ## Names of operators -/

/-- The name of a function or a class, or a label, with the span in which it stands and the nodes
that stand behind it. -/
def Node.ownName? : Node → Option (String × Span × List Node)
  | .expression (.function (some name) f) | .statement (.function name f) =>
    some (name, f.span, (Node.function f).children)
  | .expression (.class_ (some name) c) | .statement (.class_ name c) =>
    some (name, c.span, (Node.class_ c).children)
  | .statement (.labeled label body span) => some (label, span, [.statement body])
  | .statement (.break_ (some label) span) | .statement (.continue_ (some label) span) =>
    some (label, span, [])
  | _ => none

def HoldsEscape (source : List Char) (span : Span) (nodes : List Node) : Prop :=
  ∃ offset, span.start.offset ≤ offset ∧ InOrder (offset + 1) nodes span.stop.offset ∧
    Scan.hasEscape (source.drop offset)

/-- Where the program uses the word of an operator as a name, it writes the name with an escape. A
property that is a name alone may have any name. -/
structure Program.EscapesOperators (source : List Char) (p : Program) : Prop where
  references : ∀ path steps usage name span,
    Node.OccursAs (.program p) path steps usage (.expression (.identifier name span)) →
      usage ≠ .property → usage ≠ .shorthand →
        Enclosure.isOperator (Node.surroundings path (.expression (.identifier name span))) name →
          Scan.hasEscape (source.drop span.start.offset)
  patterns : ∀ path steps usage name span,
    Node.OccursAs (.program p) path steps usage (.pattern (.identifier name span)) →
      usage ≠ .shorthand →
        Enclosure.isOperator (Node.surroundings path (.pattern (.identifier name span))) name →
          Scan.hasEscape (source.drop span.start.offset)
  /-- The names of functions and classes, and labels. -/
  names : ∀ path n name span nodes, Node.Occurs (.program p) path n →
    n.ownName? = some (name, span, nodes) →
      Enclosure.isOperator (Node.surroundings path n) name → HoldsEscape source span nodes

namespace Survey

variable {S : Survey σ} {around : List Node.Step} {name : String}

theorem Bears.holdsEscape (hpositioned : S.positioned) {span : Span} {nodes : List Node}
    (h : S.Bears around name span nodes)
    (hoperator : Enclosure.isOperator (Node.enclosures around) name) :
    HoldsEscape S.source span nodes := by
  obtain ⟨offset, hstart, horder, hescapes⟩ := h.place hpositioned
  exact ⟨offset, hstart, horder, hescapes hpositioned hoperator⟩

/-- The name of a node is written with an escape if it is the word of an operator. -/
theorem IsNamed.holdsEscape (hpositioned : S.positioned) {usage : Node.Usage} {n : Node}
    {span : Span} {nodes : List Node} (h : S.IsNamed around usage n)
    (hname : n.ownName? = some (name, span, nodes))
    (hoperator : Enclosure.isOperator (Node.enclosures around) name) :
    HoldsEscape S.source span nodes := by
  unfold Node.ownName? at hname
  split at hname
  all_goals cases hname
  case h_5 | h_6 | h_7 => exact Bears.holdsEscape hpositioned h hoperator
  all_goals exact Bears.holdsEscape hpositioned h.1 hoperator

/-- What is returned uses the words of operators only with an escape. -/
theorem Returns.escapesOperators (hpositioned : S.positioned) {p : Program}
    (h : S.Returns (.ok p)) : p.EscapesOperators S.source := by
  refine ⟨?_, ?_, ?_⟩
  · intro path steps usage name span hn hproperty hshorthand hoperator
    rw [← hn.enclosures_eq] at hoperator
    exact ((h.occurs hn).proper.named hproperty).escapes hshorthand hpositioned hoperator
  · intro path steps usage name span hn hshorthand hoperator
    rw [← hn.enclosures_eq] at hoperator
    exact (h.occurs hn).proper.named.1.escapes hshorthand hpositioned hoperator
  · intro path n name span nodes hn hname hoperator
    obtain ⟨steps, usage, hn⟩ := hn.as
    rw [← hn.enclosures_eq] at hoperator
    exact (h.occurs hn).proper.named.holdsEscape hpositioned hname hoperator

end Survey

/-- In every program that is returned, a name that is the word of an operator where it stands is
written with an escape or is a property that is a name alone. -/
theorem parse_escapesOperators (source : String) (options : Options) (p : Program)
    (h : parsePlain source options = .ok p ∨ parse source options = .ok p) :
    p.EscapesOperators source.toList := by
  rcases h with h | h
  · have hreturns := Survey.returns_parsePlain source options
    rw [h] at hreturns
    exact hreturns.escapesOperators trivial
  · have hreturns := Survey.returns_parse source options
    rw [h] at hreturns
    exact hreturns.escapesOperators trivial

/-- A label with an escape, and a property that is a name alone, in a generator. -/
theorem parse_escapesOperators_of_generator :
    ∃ p, parse "function* a() \x7b yi\\u0065ld: (\x7byield\x7d) \x7d" {} = .ok p ∧
      p.EscapesOperators "function* a() \x7b yi\\u0065ld: (\x7byield\x7d) \x7d".toList := by
  obtain ⟨p, hparse⟩ := exists_ok_of_isOk
    (show (parse "function* a() \x7b yi\\u0065ld: (\x7byield\x7d) \x7d" {}).isOk = true by
      decide +kernel)
  exact ⟨p, hparse, parse_escapesOperators _ _ p (.inr hparse)⟩

/-- Whether the node at a place is a variable named `yield` that a property of a generator names
alone. -/
def Node.isYieldProperty : List Node × Node → Bool
  | (path, n@(.expression (.identifier name _))) => name == "yield" &&
    (path.head?.any Node.isShorthand && Enclosure.allowYield (Node.surroundings path n))
  | _ => false

/-- A generator may refer to a variable named `yield` in a property that is a name alone. -/
theorem yield_is_name_in_generator :
    ∃ p path span, parse "function* g() \x7b (\x7byield\x7d) \x7d" {} = .ok p ∧
      Node.Occurs (.program p) path (.expression (.identifier "yield" span)) ∧
      path.head?.any Node.isShorthand ∧
      Enclosure.allowYield (Node.surroundings path (.expression (.identifier "yield" span))) := by
  have hfound : (parse "function* g() \x7b (\x7byield\x7d) \x7d" {}).toOption.any (fun p =>
      (Node.places 7 (.program p)).any Node.isYieldProperty) = true := by
    decide +kernel
  obtain ⟨p, path, n, hparse, hoccurs, htest⟩ := Node.exists_place hfound
  unfold Node.isYieldProperty at htest
  split at htest
  · next path name span hplace =>
    cases hplace
    rw [Bool.and_eq_true, Bool.and_eq_true, beq_iff_eq] at htest
    obtain ⟨rfl, hshorthand, hallowed⟩ := htest
    exact ⟨p, path, span, hparse, hoccurs, hshorthand, hallowed⟩
  · cases htest

end EcmaScript
