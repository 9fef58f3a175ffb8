import EcmaScript.Proofs.Tree.Account

/-!
The static rules about private names, as properties of trees.

A rule is about the places of a tree: a node and the nodes around it. `StaticRules` has one field
for each of them, and `NamesAllowed` is what the options add. That every use of a private name is
declared is the only rule about more than one place; its negation is that some name is free in the
program.
-/

namespace EcmaScript

/-! ## Declared names -/

/-- What the elements of a class declare under a private name, in the order of the source. -/
def kindsOf (elements : List ClassElement) (name : String) : List MemberKind :=
  elements.filterMap fun element =>
    match element.privateMember? with
    | some (key, kind) => if key.name = name then some kind else none
    | none => none

/-- Whether an element of the class, anywhere in its body, has the private name. -/
def ClassBody.Declares (body : ClassBody) (name : String) : Prop :=
  ∃ element ∈ body.elements, ∃ key kind,
    element.privateMember? = some (key, kind) ∧ key.name = name

/-- At most one element, or a getter and a setter. -/
def Compatible (kinds : List MemberKind) : Prop :=
  kinds.length ≤ 1 ∨ kinds = [.get, .set] ∨ kinds = [.set, .get]

@[simp] theorem kindsOf_nil (name : String) : kindsOf [] name = [] := rfl

@[simp] theorem kindsOf_append (elements others : List ClassElement) (name : String) :
    kindsOf (elements ++ others) name = kindsOf elements name ++ kindsOf others name :=
  List.filterMap_append

theorem kindsOf_singleton {element : ClassElement} {key : PrivateName} {kind : MemberKind}
    (h : element.privateMember? = some (key, kind)) (name : String) :
    kindsOf [element] name = if key.name = name then [kind] else [] := by
  simp only [kindsOf, List.filterMap_cons, List.filterMap_nil, h]
  by_cases hname : key.name = name
  · simp only [hname, if_true]
  · simp only [hname, if_false]

theorem kindsOf_singleton_none {element : ClassElement} (h : element.privateMember? = none)
    (name : String) : kindsOf [element] name = [] := by
  simp only [kindsOf, List.filterMap_cons, List.filterMap_nil, h]

theorem kindsOf_eq_nil_iff {body : ClassBody} {name : String} :
    kindsOf body.elements name = [] ↔ ¬body.Declares name := by
  rw [kindsOf, List.filterMap_eq_nil_iff]
  constructor
  · rintro h ⟨element, helement, key, kind, hmember, hname⟩
    have hnone := h element helement
    simp only [hmember, hname, if_true] at hnone
    cases hnone
  · intro h element helement
    cases hmember : element.privateMember? with
    | none => rfl
    | some member =>
      have hname : member.1.name ≠ name := fun hname =>
        h ⟨element, helement, member.1, member.2, hmember, hname⟩
      simp only [hname, if_false]

/-- The first of compatible elements are compatible. -/
theorem Compatible.of_append {kinds others : List MemberKind} (h : Compatible (kinds ++ others)) :
    Compatible kinds := by
  match kinds with
  | [] | [_] => exact .inl (by simp)
  | first :: second :: rest =>
    rcases h with h | h | h
    · simp at h
    all_goals
      simp only [List.cons_append, List.cons.injEq, List.append_eq_nil_iff] at h
      obtain ⟨rfl, rfl, rfl, -⟩ := h
      simp [Compatible]

/-! ## Places -/

/-- Whether the innermost class method around a place has a private name. -/
def inPrivateMethod : List Node → Bool
  | [] => false
  | .methodValue key _ :: _ => key.isPrivate
  | _ :: path => inPrivateMethod path

namespace Node

/-- The property holds of every place below `root`, which stands inside the nodes of `path`. -/
def Everywhere (P : List Node → Node → Prop) (root : Node) (path : List Node) : Prop :=
  ∀ below n, Occurs root below n → P (below ++ path) n

theorem everywhere_iff {P : List Node → Node → Prop} {root : Node} {path : List Node} :
    Everywhere P root path ↔
      P path root ∧ ∀ c ∈ root.children, Everywhere P c (root :: path) := by
  constructor
  · intro h
    refine ⟨h [] root .here, fun c hc below n hn => ?_⟩
    have hplace := h (below ++ [root]) n (occurs_iff.mpr (.inr ⟨c, hc, below, hn, rfl⟩))
    rwa [List.append_assoc, List.singleton_append] at hplace
  · rintro ⟨hroot, hchildren⟩ below n hn
    rcases occurs_iff.mp hn with ⟨rfl, rfl⟩ | ⟨c, hc, below, hbelow, rfl⟩
    · exact hroot
    · rw [List.append_assoc, List.singleton_append]
      exact hchildren c hc below n hbelow

/-- The private name is used below the node, and no class between the node and the use declares
it. -/
def Free (root : Node) (name : String) : Prop :=
  ∃ path e key, Occurs root path (.expression e) ∧ e.privateProperty? = some key ∧
    key.name = name ∧ ∀ body, .classBody body ∈ path → ¬body.Declares name

/-- Names that are free in a node are used by it or free in a child, and a class has none of its
own. -/
theorem free_iff {root : Node} {name : String} :
    Free root name ↔
      (∃ e key, root = .expression e ∧ e.privateProperty? = some key ∧ key.name = name) ∨
        (∃ c ∈ root.children, Free c name) ∧
          ∀ body, root = .classBody body → ¬body.Declares name := by
  constructor
  · rintro ⟨path, e, key, hn, hkey, hname, hpath⟩
    rcases occurs_iff.mp hn with ⟨rfl, rfl⟩ | ⟨c, hc, below, hbelow, rfl⟩
    · exact .inl ⟨e, key, rfl, hkey, hname⟩
    · refine .inr ⟨⟨c, hc, below, e, key, hbelow, hkey, hname, fun body hbody => ?_⟩, ?_⟩
      · exact hpath body (List.mem_append_left _ hbody)
      · rintro body rfl
        exact hpath body (by simp)
  · rintro (⟨e, key, rfl, hkey, hname⟩ | ⟨⟨c, hc, below, e, key, hn, hkey, hname, hpath⟩, hroot⟩)
    · exact ⟨[], e, key, .here, hkey, hname, by simp⟩
    · refine ⟨below ++ [root], e, key, occurs_iff.mpr (.inr ⟨c, hc, below, hn, rfl⟩), hkey, hname,
        fun body hbody => ?_⟩
      rcases List.mem_append.mp hbody with hbody | hbody
      · exact hpath body hbody
      · exact hroot body (List.mem_singleton.mp hbody).symm

end Node

/-! ## The rules -/

/-- The options allow the private name: the edition has private names, and the policy allows the
word. -/
def Allowed (options : Options) (name : PrivateName) : Prop :=
  options.supportsPrivateNames = true ∧
    (options.allowReserved = .never → rejectWord? name.name true options.goal = none)

/-- The private name of the element, if it has one, is allowed and not `constructor`. -/
def ClassElement.NameLawful (options : Options) (element : ClassElement) : Prop :=
  ∀ name kind, element.privateMember? = some (name, kind) →
    Allowed options name ∧ name.name ≠ "constructor"

/-- What the rules ask of one place, uses of undeclared names apart. -/
def Lawful (options : Options) (path : List Node) : Node → Prop
  | .expression e =>
    e.isPrivateDelete = false ∧ (e.isSuperCall = true → inPrivateMethod path = false) ∧
      ∀ name, e.privateProperty? = some name → Allowed options name
  | .classElement element => element.NameLawful options
  | .classBody body => ∀ name, Compatible (kindsOf body.elements name)
  | _ => True

/-- The rules about private names that a program obeys whatever the options are. -/
structure StaticRules (p : Program) : Prop where
  /-- A member access by a private name lies in the body of a class that declares the name. -/
  declared : ∀ path e name, Node.Occurs (.program p) path (.expression e) →
    e.privateProperty? = some name → ∃ body, .classBody body ∈ path ∧ body.Declares name.name
  /-- The elements of a class with one private name are one element, or a getter and a setter. -/
  compatible : ∀ path body name, Node.Occurs (.program p) path (.classBody body) →
    Compatible (kindsOf body.elements name)
  /-- No private name is `constructor`. -/
  notConstructor : ∀ path element name kind,
    Node.Occurs (.program p) path (.classElement element) →
    element.privateMember? = some (name, kind) → name.name ≠ "constructor"
  /-- No private member is deleted. -/
  notDeleted : ∀ path e, Node.Occurs (.program p) path (.expression e) →
    e.isPrivateDelete = false
  /-- `super` is not called where the innermost class method has a private name. -/
  notSuper : ∀ path e, Node.Occurs (.program p) path (.expression e) → e.isSuperCall = true →
    inPrivateMethod path = false

/-- The options allow all private names of a program. -/
structure NamesAllowed (options : Options) (p : Program) : Prop where
  /-- Names of members that are accessed. -/
  used : ∀ path e name, Node.Occurs (.program p) path (.expression e) →
    e.privateProperty? = some name → Allowed options name
  /-- Names of elements. -/
  declared : ∀ path element name kind,
    Node.Occurs (.program p) path (.classElement element) →
    element.privateMember? = some (name, kind) → Allowed options name

/-- The rules, place by place. -/
theorem everywhere_lawful_iff {options : Options} {p : Program} :
    Node.Everywhere (Lawful options) (.program p) [] ∧ (∀ name, ¬Node.Free (.program p) name) ↔
      StaticRules p ∧ NamesAllowed options p := by
  constructor
  · rintro ⟨h, hfree⟩
    have hplace {path : List Node} {n : Node} (hn : Node.Occurs (.program p) path n) :
        Lawful options path n := by
      have := h path n hn
      rwa [List.append_nil] at this
    have hallowed : NamesAllowed options p :=
      { used := fun path e name hn => (hplace hn).2.2 name
        declared := fun path element name kind hn hmember => (hplace hn name kind hmember).1 }
    refine ⟨?_, hallowed⟩
    exact
      { declared := fun path e key hn hkey => by
          by_contra hnone
          exact hfree key.name ⟨path, e, key, hn, hkey, rfl, fun body hbody hdeclares =>
            hnone ⟨body, hbody, hdeclares⟩⟩
        compatible := fun path body name hn => hplace hn name
        notConstructor := fun path element name kind hn hmember => (hplace hn name kind hmember).2
        notDeleted := fun path e hn => (hplace hn).1
        notSuper := fun path e hn => (hplace hn).2.1 }
  · rintro ⟨h, hallowed⟩
    refine ⟨fun below n hn => ?_, ?_⟩
    · rw [List.append_nil]
      cases n with
      | expression e =>
        exact ⟨h.notDeleted below e hn, h.notSuper below e hn,
          fun name => hallowed.used below e name hn⟩
      | classElement element =>
        exact fun name kind hmember => ⟨hallowed.declared below element name kind hn hmember,
          h.notConstructor below element name kind hn hmember⟩
      | classBody body => exact fun name => h.compatible below body name hn
      | _ => trivial
    · rintro name ⟨path, e, key, hn, hkey, rfl, hpath⟩
      obtain ⟨body, hbody, hdeclares⟩ := h.declared path e key hn hkey
      exact hpath body hbody hdeclares

end EcmaScript
