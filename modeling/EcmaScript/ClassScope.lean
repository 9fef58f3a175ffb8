import EcmaScript.Diagnostic

/-!
Scopes of private names.

Every open class body has a scope with the private names it declares and the names that were used
before any enclosing class declared them. A use is settled when its class or an enclosing one
declares the name, before or after the use: what is left when a scope closes moves outward, and
what is left when the outermost one closes is undeclared.

Both tables keep their entries in the order in which they were made; each holds a name at most
once.
-/

namespace EcmaScript

/-- What a private class element is. -/
inductive MemberKind where
  | method
  | get
  | set
  | field
deriving DecidableEq

/-- Name of the kind in reports. -/
def MemberKind.name : MemberKind → String
  | .method => "Method"
  | .get => "Get"
  | .set => "Set"
  | .field => "Field"

/-- How a private name is bound in its class. -/
inductive Binding where
  | method
  | field
  | get
  | set
  /-- A getter and a setter. -/
  | getSet
deriving DecidableEq

namespace Binding

/-- Name of the binding in reports. -/
def name : Binding → String
  | .method => "Method"
  | .field => "Field"
  | .get => "Get"
  | .set => "Set"
  | .getSet => "GetSet"

/-- The binding that a first declaration makes. -/
def ofMember : MemberKind → Binding
  | .method => .method
  | .field => .field
  | .get => .get
  | .set => .set

/-- The binding after one more declaration: only a getter and a setter go together. -/
def declareAgain? : Binding → MemberKind → Option Binding
  | .get, .set => some .getSet
  | .set, .get => some .getSet
  | _, _ => none

end Binding

/-- Private names of one class body. -/
structure ClassScope where
  /-- Index, from the outermost, of the enclosing scope. -/
  parent : Option Nat
  /-- Declared names. -/
  bound : List (String × Binding)
  /-- Names used and not yet declared, each with its first use. -/
  pending : List (String × Position)
deriving DecidableEq

namespace ClassScope

def put {α : Type} (entries : List (String × α)) (name : String) (value : α) :
    List (String × α) :=
  match entries with
  | [] => [(name, value)]
  | entry :: others =>
    if entry.1 == name then (name, value) :: others else entry :: put others name value

def putNew {α : Type} (entries : List (String × α)) (name : String) (value : α) :
    List (String × α) :=
  if (entries.lookup name).isSome then entries else entries ++ [(name, value)]

def remove {α : Type} (entries : List (String × α)) (name : String) : List (String × α) :=
  entries.filter (·.1 != name)

def declared? (scope : ClassScope) (name : String) (kind : MemberKind) : Option Binding :=
  match scope.bound.lookup name with
  | some binding => binding.declareAgain? kind
  | none => some (.ofMember kind)

def bind (scope : ClassScope) (name : String) (binding : Binding) : ClassScope :=
  { scope with bound := put scope.bound name binding, pending := remove scope.pending name }

def await (scope : ClassScope) (name : String) (position : Position) : ClassScope :=
  { scope with pending := putNew scope.pending name position }

/-- The scope with the pending names of an inner one added. -/
def inherit (scope inner : ClassScope) : ClassScope :=
  inner.pending.foldl (fun scope (name, position) => scope.await name position) scope

/-- The earliest of the positions, the first of equal ones. -/
def earliest? : List Position → Option Position
  | [] => none
  | p :: others =>
    match earliest? others with
    | none => some p
    | some q => if q.offset < p.offset then some q else some p

end ClassScope

/-- Scopes of the open class bodies, innermost first. -/
structure ClassScopes where
  scopes : List ClassScope := []
deriving DecidableEq

namespace ClassScopes

/-- Number of open class bodies. -/
def depth (s : ClassScopes) : Nat := s.scopes.length

/-- Whether no class body is open. -/
def isEmpty (s : ClassScopes) : Bool := s.scopes.isEmpty

/-- The scope with the given index, counted from the outermost. -/
def scope? (s : ClassScopes) (index : Nat) : Option ClassScope :=
  s.scopes.reverse[index]?

/-- Index of the innermost scope. -/
def innermost? (s : ClassScopes) : Option Nat :=
  if s.depth = 0 then none else some (s.depth - 1)

/-- Closes all scopes and forgets what is pending in them. -/
def clear (_ : ClassScopes) : ClassScopes := {}

def push (s : ClassScopes) : ClassScopes :=
  ⟨⟨s.innermost?, [], []⟩ :: s.scopes⟩

/-- Closes the innermost scope. What is pending there moves to the enclosing scope; without one
the earliest of it is undeclared. Without an open scope nothing happens. -/
def pop : EStateM Diagnostic ClassScopes Unit := fun s =>
  match s.scopes with
  | [] => .ok () s
  | inner :: outer :: others => .ok () ⟨outer.inherit inner :: others⟩
  | [inner] =>
    match ClassScope.earliest? (inner.pending.map (·.2)) with
    | some position => .error (.located (.privateName .undeclared) position) ⟨[]⟩
    | none => .ok () ⟨[]⟩

/-- Declares a name in the innermost scope; outer scopes do not matter. Without an open scope
nothing happens. -/
def declare (name : String) (kind : MemberKind) : EStateM PrivateNameViolation ClassScopes Unit :=
  fun s =>
    match s.scopes with
    | [] => .ok () s
    | scope :: outer =>
      match scope.declared? name kind with
      | some binding => .ok () ⟨scope.bind name binding :: outer⟩
      | none => .error .duplicate s

/-- The binding of `name` in the scope with the given index or, following the links outward, the
first that has one; `steps` bounds the number of scopes visited. -/
def lookupFrom (s : ClassScopes) (name : String) : (steps : Nat) → Option Nat → Option Binding
  | _, none => none
  | 0, some _ => none
  | steps + 1, some index => do
    let scope ← s.scope? index
    match scope.bound.lookup name with
    | some binding => some binding
    | none => s.lookupFrom name steps scope.parent

/-- How `name` is bound, from the innermost scope outward. -/
def lookup (s : ClassScopes) (name : String) : Option Binding :=
  s.lookupFrom name s.depth s.innermost?

/-- Records a use of `name`, which is pending in the innermost scope if no scope binds it. Says
whether a class is open. -/
def reference (name : String) (position : Position) (s : ClassScopes) : Bool × ClassScopes :=
  if (s.lookup name).isSome then (true, s)
  else
    match s.scopes with
    | [] => (false, s)
    | scope :: outer => (true, ⟨scope.await name position :: outer⟩)

/-- Names pending in the innermost scope, in the order of their code points. -/
def pendingNames (s : ClassScopes) : List String :=
  match s.scopes with
  | [] => []
  | scope :: _ => (scope.pending.map (·.1)).mergeSort (fun a b => decide (a ≤ b))

end ClassScopes

end EcmaScript
