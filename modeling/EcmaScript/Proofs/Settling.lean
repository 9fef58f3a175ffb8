import EcmaScript.Proofs.ClassScope.Tables
import EcmaScript.Proofs.Replay
import EcmaScript.Proofs.Tree.Rules

/-!
What replaying the account of a part of a tree does.

A part that is no class element leaves the bound names as they are; its free names, as far as no
open class binds them yet, become pending in the innermost class. It is refused exactly if it breaks
a rule about one of its places, or has a free name outside of all classes. `Settles` says this of an
account, and the accounts of parts are put together from those of smaller ones.
-/

namespace EcmaScript

open ClassScope (names)
open ClassScopes (Linked)

variable {options : Options} {flag : Bool}

theorem allowed_iff {name : PrivateName} :
    Allowed options name ↔
      options.supportsPrivateNames = true ∧ PrivateNames.reservedError? name options = none := by
  unfold Allowed PrivateNames.reservedError?
  by_cases hpolicy : options.allowReserved = .never
  · simp [hpolicy]
  · simp [hpolicy]

namespace Call

variable {name : PrivateName} {kind : MemberKind} {start : Position} {top : ClassScope}
  {outer : List ClassScope} {saved : List Bool}

theorem replay_reference (hallowed : Allowed options name) :
    (reference name).replay options (⟨⟨top :: outer⟩, flag⟩, saved) =
      some (⟨(ClassScopes.reference name.name name.span.start ⟨top :: outer⟩).2, flag⟩, saved) := by
  obtain ⟨hsupports, hreserved⟩ := allowed_iff.mp hallowed
  have hopen : (ClassScopes.reference name.name name.span.start ⟨top :: outer⟩).1 = true := by
    unfold ClassScopes.reference
    split <;> rfl
  simp only [replay, PrivateNames.referenceName_eq, hsupports, hreserved, hopen,
    ClassScopes.isEmpty, List.isEmpty_cons, Bool.true_eq_false, Bool.false_eq_true, or_self,
    if_false]

/-- Outside of all classes, and where the options do not allow the name. -/
theorem replay_reference_eq_none {s : PrivateNames × List Bool}
    (h : ¬(Allowed options name ∧ s.1.scopes.isEmpty = false)) :
    (reference name).replay options s = none := by
  simp only [replay, PrivateNames.referenceName_eq]
  by_cases hclosed : options.supportsPrivateNames = false ∨ s.1.scopes.isEmpty = true
  · simp only [hclosed, if_true]
  · rw [if_neg hclosed]
    rw [not_or, Bool.not_eq_false, Bool.not_eq_true] at hclosed
    cases hreserved : PrivateNames.reservedError? name options with
    | none => exact absurd ⟨allowed_iff.mpr ⟨hclosed.1, hreserved⟩, hclosed.2⟩ h
    | some d => rfl

theorem replay_declare (hallowed : Allowed options name) (hname : name.name ≠ "constructor") :
    (declare name kind start).replay options (⟨⟨top :: outer⟩, flag⟩, saved) =
      (top.declared? name.name kind).map fun binding =>
        (⟨⟨top.bind name.name binding :: outer⟩, flag⟩, saved) := by
  obtain ⟨hsupports, hreserved⟩ := allowed_iff.mp hallowed
  simp only [replay, PrivateNames.declareMember_eq, hsupports, hreserved, hname,
    ClassScopes.declare, Bool.true_eq_false, if_false]
  cases top.declared? name.name kind <;> rfl

theorem replay_declare_eq_none {s : PrivateNames × List Bool}
    (h : ¬(Allowed options name ∧ name.name ≠ "constructor")) :
    (declare name kind start).replay options s = none := by
  simp only [replay, PrivateNames.declareMember_eq]
  cases hsupports : options.supportsPrivateNames with
  | false => rfl
  | true =>
    cases hreserved : PrivateNames.reservedError? name options with
    | some d => rfl
    | none =>
      have hname : name.name = "constructor" := by
        by_contra hname
        exact h ⟨allowed_iff.mpr ⟨hsupports, hreserved⟩, hname⟩
      simp only [hname, if_true, Bool.true_eq_false, if_false]

end Call

def Unbound (scopes : List ClassScope) (name : String) : Prop :=
  ∀ scope ∈ scopes, name ∉ names scope.bound

/-- Names that are free in what has been read, and bound by no open class, have become pending in
the innermost class. -/
inductive Grown (free : String → Prop) : List ClassScope → List ClassScope → Prop where
  | outside : Grown free [] []
  | inside {top top' : ClassScope} {outer : List ClassScope} (parent : top'.parent = top.parent)
      (bound : top'.bound = top.bound)
      (pending : ∀ name, name ∈ names top'.pending ↔
        name ∈ names top.pending ∨ free name ∧ Unbound (top :: outer) name) :
      Grown free (top :: outer) (top' :: outer)

namespace Grown

variable {free free' : String → Prop} {scopes scopes' scopes'' : List ClassScope}

theorem refl (hfree : ∀ name, ¬free name) : (scopes : List ClassScope) → Grown free scopes scopes
  | [] => .outside
  | _ :: _ => .inside rfl rfl (by simp [hfree])

theorem linked (h : Grown free scopes scopes') (hlinked : Linked scopes) : Linked scopes' := by
  cases h with
  | outside => exact hlinked
  | inside parent bound pending => exact ⟨parent.trans hlinked.1, hlinked.2⟩

theorem eq_nil_iff (h : Grown free scopes scopes') : scopes' = [] ↔ scopes = [] := by
  cases h <;> simp

theorem trans (h : Grown free scopes scopes') (h' : Grown free' scopes' scopes'') :
    Grown (fun name => free name ∨ free' name) scopes scopes'' := by
  cases h with
  | outside =>
    cases h'
    exact .outside
  | @inside top top' outer parent bound pending =>
    cases h' with
    | @inside _ top'' _ parent' bound' pending' =>
      refine .inside (parent'.trans parent) (bound'.trans bound) fun name => ?_
      have hsame : Unbound (top' :: outer) name ↔ Unbound (top :: outer) name := by
        simp [Unbound, bound]
      rw [pending', pending, hsame]
      tauto

end Grown

/-! ## Steps that a condition decides -/

/-- The step goes through exactly under the condition, and then the result is as expected. -/
def Decides {β : Type} (condition : Prop) (step : Option β) (P : β → Prop) : Prop :=
  (condition ∧ ∃ b, step = some b ∧ P b) ∨ (¬condition ∧ step = none)

namespace Decides

variable {β γ : Type} {condition condition' : Prop} {step : Option β} {P Q : β → Prop}

theorem congr (h : Decides condition step P) (hcondition : condition' ↔ condition)
    (hPQ : ∀ b, P b → Q b) : Decides condition' step Q := by
  rcases h with ⟨hyes, b, hb, hP⟩ | ⟨hno, hnone⟩
  · exact .inl ⟨hcondition.mpr hyes, b, hb, hPQ b hP⟩
  · exact .inr ⟨mt hcondition.mp hno, hnone⟩

theorem of_iff (hcondition : condition' ↔ condition) (h : Decides condition step P) :
    Decides condition' step P :=
  h.congr hcondition fun _ h => h

theorem bind {next : β → Option γ} {R : γ → Prop} (h : Decides condition step P)
    (hnext : ∀ b, P b → Decides condition' (next b) R) :
    Decides (condition ∧ condition') (step.bind next) R := by
  rcases h with ⟨hyes, b, rfl, hP⟩ | ⟨hno, rfl⟩
  · exact .of_iff (and_iff_right hyes) (hnext b hP)
  · exact .inr ⟨fun h => hno h.1, rfl⟩

theorem accepted {b : β} (hyes : condition) (hP : P b) : Decides condition (some b) P :=
  .inl ⟨hyes, b, rfl, hP⟩

theorem refused (hno : ¬condition) : Decides condition none P := .inr ⟨hno, rfl⟩

theorem isSome_iff (h : Decides condition step P) : step.isSome = true ↔ condition := by
  rcases h with ⟨hyes, b, rfl, -⟩ | ⟨hno, rfl⟩
  · simp [hyes]
  · simp [hno]

end Decides

/-- Replaying the account, outside or inside of classes: it goes through exactly if what is read is
lawful and, outside of all classes, has no free names; then its free names are pending. -/
def Settles (options : Options) (flag : Bool) (account : Account) (lawful : Prop)
    (free : String → Prop) : Prop :=
  ∀ scopes saved, Linked scopes →
    Decides (lawful ∧ (scopes = [] → ∀ name, ¬free name))
      (account.replay options (⟨⟨scopes⟩, flag⟩, saved))
      fun s => ∃ scopes', s = (⟨⟨scopes'⟩, flag⟩, saved) ∧ Grown free scopes scopes'

namespace Settles

variable {a b : Account} {lawful lawful' : Prop} {free free' : String → Prop}

theorem congr (h : Settles options flag a lawful free) (hlawful : lawful' ↔ lawful)
    (hfree : ∀ name, free' name ↔ free name) : Settles options flag a lawful' free' := by
  have hsame : free' = free := funext fun name => propext (hfree name)
  rw [hsame, show lawful' = lawful from propext hlawful]
  exact h

theorem zero : Settles options flag 0 True (fun _ => False) := by
  intro scopes saved _
  rw [Account.replay_zero]
  exact .accepted ⟨trivial, by simp⟩ ⟨scopes, rfl, .refl (by simp) scopes⟩

theorem add (ha : Settles options flag a lawful free) (hb : Settles options flag b lawful' free') :
    Settles options flag (a + b) (lawful ∧ lawful') (fun name => free name ∨ free' name) := by
  intro scopes saved hlinked
  rw [Account.replay_add]
  have hcondition : (lawful ∧ lawful') ∧ (scopes = [] → ∀ name, ¬(free name ∨ free' name)) ↔
      (lawful ∧ (scopes = [] → ∀ name, ¬free name)) ∧
        lawful' ∧ (scopes = [] → ∀ name, ¬free' name) := by
    simp only [not_or, forall_and]
    tauto
  refine .of_iff hcondition ((ha scopes saved hlinked).bind fun s hs => ?_)
  obtain ⟨scopes', rfl, hgrown⟩ := hs
  refine (hb scopes' saved (hgrown.linked hlinked)).congr (by rw [hgrown.eq_nil_iff]) fun s hs => ?_
  obtain ⟨scopes'', rfl, hgrown'⟩ := hs
  exact ⟨scopes'', rfl, hgrown.trans hgrown'⟩

/-- The parts of a list, one after the other. -/
theorem sum {ι : Type} {l : List ι} {account : ι → Account} {lawful : ι → Prop}
    {free : ι → String → Prop}
    (h : ∀ c ∈ l, Settles options flag (account c) (lawful c) (free c)) :
    Settles options flag (l.map account).sum (∀ c ∈ l, lawful c)
      (fun name => ∃ c ∈ l, free c name) := by
  induction l with
  | nil => exact zero.congr (by simp) (by simp)
  | cons c l ih =>
    have hc := h c List.mem_cons_self
    have hl := ih fun d hd => h d (List.mem_cons_of_mem _ hd)
    rw [List.map_cons, List.sum_cons]
    exact (hc.add hl).congr (by simp) (by simp)

/-! ## Calls -/

theorem deletion : Settles options flag .deletion False (fun _ => False) := by
  intro scopes saved _
  rw [Account.replay_deletion]
  exact .refused fun h => h.1

theorem superCall : Settles options flag (.ofCall .superCall) (flag = false) (fun _ => False) := by
  intro scopes saved _
  rw [Account.replay_ofCall]
  cases flag with
  | false => exact .accepted ⟨rfl, by simp⟩ ⟨scopes, rfl, .refl (by simp) scopes⟩
  | true => exact .refused (by simp)

/-- The function of a method, in which the flag is the one of its key. -/
theorem method {key : PropertyKey} (h : Settles options key.isPrivate a lawful free) :
    Settles options flag (.ofCall (.enterMethod key) + a + .ofCall .exitMethod) lawful free := by
  intro scopes saved hlinked
  rw [Account.replay_add, Account.replay_add, Account.replay_ofCall]
  simp only [Call.replay, Option.bind_some]
  have hbody := h scopes (flag :: saved) hlinked
  refine .of_iff (and_iff_left trivial).symm (hbody.bind fun s hs => ?_)
  obtain ⟨scopes', rfl, hgrown⟩ := hs
  rw [Account.replay_ofCall]
  exact .accepted trivial ⟨scopes', rfl, hgrown⟩

theorem reference (name : PrivateName) :
    Settles options flag (.ofCall (.reference name)) (Allowed options name)
      (fun other => other = name.name) := by
  intro scopes saved hlinked
  rw [Account.replay_ofCall]
  by_cases hallowed : Allowed options name
  · cases scopes with
    | nil =>
      rw [Call.replay_reference_eq_none fun h => Bool.noConfusion h.2]
      exact .refused fun h => h.2 rfl name.name rfl
    | cons top outer =>
      rw [Call.replay_reference hallowed, ClassScopes.reference]
      have hlookup := @ClassScopes.isSome_lookup_iff ⟨top :: outer⟩ hlinked name.name
      by_cases hbound : (ClassScopes.lookup ⟨top :: outer⟩ name.name).isSome
      · rw [if_pos hbound]
        refine .accepted ⟨hallowed, by simp⟩ ⟨top :: outer, rfl, .inside rfl rfl fun other => ?_⟩
        obtain ⟨scope, hscope, hmem⟩ := hlookup.mp hbound
        constructor
        · exact .inl
        · rintro (h | ⟨rfl, hunbound⟩)
          · exact h
          · exact absurd hmem (hunbound scope hscope)
      · rw [if_neg hbound]
        refine .accepted ⟨hallowed, by simp⟩ ⟨_, rfl, .inside rfl rfl fun other => ?_⟩
        have hunbound : Unbound (top :: outer) name.name := fun scope hscope hmem =>
          hbound (hlookup.mpr ⟨scope, hscope, hmem⟩)
        rw [ClassScope.await, ClassScope.mem_names_putNew]
        constructor
        · rintro (h | rfl)
          · exact .inl h
          · exact .inr ⟨rfl, hunbound⟩
        · rintro (h | ⟨rfl, -⟩)
          · exact .inl h
          · exact .inr rfl
  · rw [Call.replay_reference_eq_none fun h => hallowed h.1]
    exact .refused fun h => hallowed h.1

end Settles

/-! ## Class bodies -/

/-- How a name is bound by what is declared under it. -/
def bindingOf : List MemberKind → Option Binding
  | [] => none
  | [kind] => some (.ofMember kind)
  | _ => some .getSet

theorem bindingOf_eq_none_iff {kinds : List MemberKind} : bindingOf kinds = none ↔ kinds = [] := by
  match kinds with
  | [] => simp [bindingOf]
  | [_] => simp [bindingOf]
  | _ :: _ :: _ => simp [bindingOf]

/-- One more declaration is accepted exactly if it is compatible with those in front of it. -/
theorem declared?_cases {scope : ClassScope} {name : String} {kinds : List MemberKind}
    (h : scope.bound.lookup name = bindingOf kinds) (kind : MemberKind) :
    (Compatible (kinds ++ [kind]) ∧
      ∃ binding, scope.declared? name kind = some binding ∧
        bindingOf (kinds ++ [kind]) = some binding) ∨
    (¬Compatible (kinds ++ [kind]) ∧ scope.declared? name kind = none) := by
  unfold ClassScope.declared?
  rw [h]
  match kinds with
  | [] => exact .inl ⟨.inl (by simp), _, rfl, rfl⟩
  | [first] =>
    cases first <;> cases kind <;>
      simp [Compatible, bindingOf, Binding.declareAgain?, Binding.ofMember]
  | first :: second :: others => exact .inr ⟨by simp [Compatible], by cases kind <;> rfl⟩

/-- The scope of a class whose elements have been read up to some place: names are bound by the
elements behind us, and of the free names those are pending that no class binds yet. -/
structure Read (outer : List ClassScope) (elements : List ClassElement) (free : String → Prop)
    (top : ClassScope) : Prop where
  parent : top.parent = ClassScopes.innermost? ⟨outer⟩
  bound : ∀ name, top.bound.lookup name = bindingOf (kindsOf elements name)
  pending : ∀ name, name ∈ names top.pending ↔
    free name ∧ kindsOf elements name = [] ∧ Unbound outer name
  compatible : ∀ name, Compatible (kindsOf elements name)

namespace Read

variable {outer : List ClassScope} {elements : List ClassElement} {free free' : String → Prop}
  {top : ClassScope} {saved : List Bool}

theorem initial (outer : List ClassScope) :
    Read outer [] (fun _ => False) ⟨ClassScopes.innermost? ⟨outer⟩, [], []⟩ :=
  ⟨rfl, fun _ => rfl, by simp, fun _ => .inl (by simp)⟩

theorem congr (h : Read outer elements free top) (hfree : ∀ name, free' name ↔ free name) :
    Read outer elements free' top := by
  rwa [show free' = free from funext fun name => propext (hfree name)]

theorem mem_bound_iff (h : Read outer elements free top) {name : String} :
    name ∈ names top.bound ↔ kindsOf elements name ≠ [] := by
  rw [← ClassScope.isSome_lookup_iff, h.bound, Option.isSome_iff_ne_none, Ne, bindingOf_eq_none_iff]

/-- Parts of an element. -/
theorem grown (h : Read outer elements free top) {scopes : List ClassScope}
    (hgrown : Grown free' (top :: outer) scopes) :
    ∃ top', scopes = top' :: outer ∧
      Read outer elements (fun name => free name ∨ free' name) top' := by
  cases hgrown with
  | @inside _ top' _ parent bound pending =>
    refine ⟨top', rfl, parent.trans h.parent, fun name => by rw [bound, h.bound], fun name => ?_,
      h.compatible⟩
    have hunbound : Unbound (top :: outer) name ↔
        kindsOf elements name = [] ∧ Unbound outer name := by
      simp [Unbound, h.mem_bound_iff]
    rw [pending, h.pending, hunbound]
    tauto

/-- An element without a private name. -/
theorem unnamed (h : Read outer elements free top) {element : ClassElement}
    (hmember : element.privateMember? = none) : Read outer (elements ++ [element]) free top := by
  have hkinds (name : String) : kindsOf (elements ++ [element]) name = kindsOf elements name := by
    rw [kindsOf_append, kindsOf_singleton_none hmember, List.append_nil]
  refine ⟨h.parent, fun name => ?_, fun name => ?_, fun name => ?_⟩
  · rw [hkinds, h.bound]
  · rw [hkinds, h.pending]
  · rw [hkinds]
    exact h.compatible name

/-- An element whose private name may be bound: the name is no longer pending. -/
theorem named (h : Read outer elements free top) {element : ClassElement} {key : PrivateName}
    {kind : MemberKind} {binding : Binding} (hmember : element.privateMember? = some (key, kind))
    (hcompatible : Compatible (kindsOf elements key.name ++ [kind]))
    (hbinding : bindingOf (kindsOf elements key.name ++ [kind]) = some binding) :
    Read outer (elements ++ [element]) free (top.bind key.name binding) := by
  have hkinds (name : String) : kindsOf (elements ++ [element]) name =
      kindsOf elements name ++ if key.name = name then [kind] else [] := by
    rw [kindsOf_append, kindsOf_singleton hmember]
  refine ⟨h.parent, fun name => ?_, fun name => ?_, fun name => ?_⟩
  · rw [ClassScope.bind, ClassScope.lookup_put, h.bound, hkinds]
    by_cases hsame : name = key.name
    · rw [if_pos hsame, hsame, if_pos rfl, hbinding]
    · rw [if_neg hsame, if_neg (Ne.symm hsame), List.append_nil]
  · rw [ClassScope.bind, ClassScope.mem_names_remove, h.pending, hkinds]
    by_cases hsame : name = key.name
    · simp [hsame]
    · simp [hsame, Ne.symm hsame]
  · rw [hkinds]
    by_cases hsame : key.name = name
    · rw [if_pos hsame, ← hsame]
      exact hcompatible
    · rw [if_neg hsame, List.append_nil]
      exact h.compatible name

/-- The declaration that an element begins with. -/
theorem declaration (h : Read outer elements free top) (element : ClassElement) :
    Decides
      (element.NameLawful options ∧ ∀ name, Compatible (kindsOf (elements ++ [element]) name))
      (element.declaration.replay options (⟨⟨top :: outer⟩, flag⟩, saved))
      fun s => ∃ top', s = (⟨⟨top' :: outer⟩, flag⟩, saved) ∧
        Read outer (elements ++ [element]) free top' := by
  unfold ClassElement.declaration ClassElement.NameLawful
  cases hmember : element.privateMember? with
  | none =>
    have hread := h.unnamed hmember
    exact .accepted ⟨by simp, hread.compatible⟩ ⟨top, rfl, hread⟩
  | some member =>
    obtain ⟨key, kind⟩ := member
    simp only [Account.replay_ofCall]
    by_cases hlawful : Allowed options key ∧ key.name ≠ "constructor"
    · rw [Call.replay_declare hlawful.1 hlawful.2]
      rcases declared?_cases (h.bound key.name) kind with
        ⟨hcompatible, binding, hdeclared, hbinding⟩ | ⟨hnot, hdeclared⟩
      · have hread := h.named hmember hcompatible hbinding
        rw [hdeclared, Option.map_some]
        refine .accepted ⟨?_, hread.compatible⟩ ⟨top.bind key.name binding, rfl, hread⟩
        rintro name kind' ⟨rfl, rfl⟩
        exact hlawful
      · rw [hdeclared, Option.map_none]
        refine .refused fun hrules => hnot ?_
        have hkey := hrules.2 key.name
        rwa [kindsOf_append, kindsOf_singleton hmember, if_pos rfl] at hkey
    · rw [Call.replay_declare_eq_none hlawful]
      exact .refused fun hrules => hlawful (hrules.1 key kind rfl)

/-- An element: its declaration, and its parts. -/
theorem classElement {lawful : Node → Prop} (h : Read outer elements free top)
    (hlinked : Linked outer) (element : ClassElement)
    (hparts : ∀ c ∈ element.children, Settles options flag c.account (lawful c) c.Free) :
    Decides
      ((element.NameLawful options ∧ ∀ name, Compatible (kindsOf (elements ++ [element]) name)) ∧
        ∀ c ∈ element.children, lawful c)
      ((Node.classElement element).account.replay options (⟨⟨top :: outer⟩, flag⟩, saved))
      fun s => ∃ top', s = (⟨⟨top' :: outer⟩, flag⟩, saved) ∧
        Read outer (elements ++ [element])
          (fun name => free name ∨ (Node.classElement element).Free name) top' := by
  have haccount : (Node.classElement element).account =
      element.declaration + (element.children.map Node.account).sum := by
    rw [Node.account_eq]
    exact add_zero _
  rw [haccount, Account.replay_add]
  refine (h.declaration element).bind fun s hs => ?_
  obtain ⟨top', rfl, hread⟩ := hs
  have hsum := Settles.sum hparts (top' :: outer) saved ⟨hread.parent, hlinked⟩
  refine hsum.congr (by simp) fun s hs => ?_
  obtain ⟨scopes, rfl, hgrown⟩ := hs
  obtain ⟨top'', rfl, hread'⟩ := hread.grown hgrown
  refine ⟨top'', rfl, hread'.congr fun name => ?_⟩
  rw [Node.free_iff]
  simp

/-- The elements of a class, one after the other. -/
theorem classElements {lawful : ClassElement → Node → Prop} (rest : List ClassElement)
    (h : Read outer elements free top) (hlinked : Linked outer)
    (hparts : ∀ element ∈ rest, ∀ c ∈ element.children,
      Settles options flag c.account (lawful element c) c.Free) :
    Decides
      ((∀ name, Compatible (kindsOf (elements ++ rest) name)) ∧
        ∀ element ∈ rest,
          element.NameLawful options ∧ ∀ c ∈ element.children, lawful element c)
      ((rest.map fun element => (Node.classElement element).account).sum.replay options
        (⟨⟨top :: outer⟩, flag⟩, saved))
      fun s => ∃ top', s = (⟨⟨top' :: outer⟩, flag⟩, saved) ∧
        Read outer (elements ++ rest)
          (fun name => free name ∨ ∃ element ∈ rest, (Node.classElement element).Free name)
          top' := by
  induction rest generalizing elements free top with
  | nil =>
    refine .accepted ⟨by simpa using h.compatible, by simp⟩ ⟨top, rfl, ?_⟩
    simpa using h
  | cons element rest ih =>
    rw [List.map_cons, List.sum_cons, Account.replay_add, List.append_cons, List.forall_mem_cons]
    obtain ⟨helement, hrest⟩ := List.forall_mem_cons.mp hparts
    have hcondition : ((∀ name, Compatible (kindsOf (elements ++ [element] ++ rest) name)) ∧
        (element.NameLawful options ∧ ∀ c ∈ element.children, lawful element c) ∧
        ∀ other ∈ rest, other.NameLawful options ∧ ∀ c ∈ other.children, lawful other c) ↔
        ((element.NameLawful options ∧
          ∀ name, Compatible (kindsOf (elements ++ [element]) name)) ∧
          ∀ c ∈ element.children, lawful element c) ∧
        (∀ name, Compatible (kindsOf (elements ++ [element] ++ rest) name)) ∧
          ∀ other ∈ rest, other.NameLawful options ∧ ∀ c ∈ other.children, lawful other c := by
      have hshorter : (∀ name, Compatible (kindsOf (elements ++ [element] ++ rest) name)) →
          ∀ name, Compatible (kindsOf (elements ++ [element]) name) := by
        intro h name
        have hname := h name
        rw [kindsOf_append] at hname
        exact hname.of_append
      tauto
    refine .of_iff hcondition ((h.classElement hlinked element helement).bind fun s hs => ?_)
    obtain ⟨top', rfl, hread⟩ := hs
    refine (ih hread hrest).congr Iff.rfl fun s hs => ?_
    obtain ⟨top'', rfl, hread'⟩ := hs
    refine ⟨top'', rfl, hread'.congr fun name => ?_⟩
    simp [or_assoc]

end Read

/-- The end of a class. In the outermost one nothing may be pending, because no class is left that
could declare it; an inner one hands on what is pending to the class around it. -/
theorem Decides.exitClass {scopes : List ClassScope} {top : ClassScope} {saved : List Bool}
    {free : String → Prop}
    (hpending : ∀ name, name ∈ names top.pending ↔ free name ∧ Unbound scopes name) :
    Decides (scopes = [] → ∀ name, ¬free name)
      ((Account.ofCall .exitClass).replay options (⟨⟨top :: scopes⟩, flag⟩, saved))
      fun s => ∃ scopes', s = (⟨⟨scopes'⟩, flag⟩, saved) ∧ Grown free scopes scopes' := by
  rw [Account.replay_ofCall]
  simp only [Call.replay, PrivateNames.exitClass, ClassScopes.pop]
  cases scopes with
  | nil =>
    cases hearliest : ClassScope.earliest? (top.pending.map (·.2)) with
    | none =>
      have hempty : top.pending = [] := by
        simpa using ClassScope.earliest?_eq_none_iff.mp hearliest
      simp only [hearliest]
      refine .accepted (fun _ name hname => ?_) ⟨[], rfl, .outside⟩
      have hmem := (hpending name).mpr ⟨hname, by simp [Unbound]⟩
      simp [hempty] at hmem
    | some position =>
      obtain ⟨entry, hentry, -⟩ := List.mem_map.mp (ClassScope.earliest?_spec hearliest).1
      have hmem : entry.1 ∈ names top.pending := List.mem_map_of_mem hentry
      simp only [hearliest]
      exact .refused fun hnone => hnone trivial entry.1 ((hpending entry.1).mp hmem).1
  | cons outer others =>
    refine .accepted (by simp) ⟨outer.inherit top :: others, rfl, .inside ?_ ?_ fun name => ?_⟩
    · exact ClassScope.inherit_parent outer top
    · exact ClassScope.inherit_bound outer top
    · rw [ClassScope.mem_names_inherit, hpending]

/-- A class: its free names are those of its elements that it does not declare. -/
theorem Settles.classBody {lawful : ClassElement → Node → Prop} {body : ClassBody}
    (hparts : ∀ element ∈ body.elements, ∀ c ∈ element.children,
      Settles options flag c.account (lawful element c) c.Free) :
    Settles options flag (Node.classBody body).account
      ((∀ name, Compatible (kindsOf body.elements name)) ∧
        ∀ element ∈ body.elements,
          element.NameLawful options ∧ ∀ c ∈ element.children, lawful element c)
      (Node.classBody body).Free := by
  intro scopes saved hlinked
  have haccount : (Node.classBody body).account = .ofCall .enterClass +
      (body.elements.map fun element => (Node.classElement element).account).sum +
        .ofCall .exitClass := by
    rw [Node.account_eq]
    simp [Function.comp_def]
  have hfree (name : String) : (Node.classBody body).Free name ↔
      (∃ element ∈ body.elements, (Node.classElement element).Free name) ∧
        kindsOf body.elements name = [] := by
    rw [Node.free_iff, kindsOf_eq_nil_iff]
    simp
  rw [haccount, Account.replay_add, Account.replay_add, Account.replay_ofCall]
  simp only [Call.replay, Option.bind_some]
  have helements :=
    @Read.classElements options flag _ _ _ _ saved _ body.elements (.initial scopes) hlinked hparts
  refine helements.bind fun s hs => ?_
  obtain ⟨top, rfl, hread⟩ := hs
  have hpending (name : String) : name ∈ names top.pending ↔
      (Node.classBody body).Free name ∧ Unbound scopes name := by
    rw [hread.pending, hfree]
    simp [and_assoc]
  exact Decides.exitClass hpending

/-! ## Nodes -/

theorem Settles.opening (e : Expression) :
    Settles options flag (Node.expression e).opening (e.isSuperCall = true → flag = false)
      (fun _ => False) := by
  rw [Node.opening]
  by_cases hsuper : e.isSuperCall = true
  · rw [if_pos hsuper]
    exact Settles.superCall.congr (forall_prop_of_true hsuper) fun _ => Iff.rfl
  · rw [if_neg hsuper]
    exact Settles.zero.congr (iff_true_intro fun h => absurd h hsuper) fun _ => Iff.rfl

theorem Settles.closing (e : Expression) :
    Settles options flag (Node.expression e).closing
      (e.isPrivateDelete = false ∧ ∀ name, e.privateProperty? = some name → Allowed options name)
      (fun other => ∃ name, e.privateProperty? = some name ∧ name.name = other) := by
  rw [Node.closing, Expression.ownAccount]
  cases hproperty : e.privateProperty? with
  | some name =>
    have hdelete : e.isPrivateDelete = false := by
      cases e with
      | unary operator argument span => cases hproperty
      | _ => rfl
    rw [hdelete]
    exact (Settles.reference name).congr (by simp) (by simp [eq_comm])
  | none =>
    by_cases hdelete : e.isPrivateDelete = true
    · simp only [hdelete, if_true]
      exact Settles.deletion.congr (by simp) (by simp)
    · simp only [hdelete]
      exact Settles.zero.congr (by simp) (by simp)

namespace Node

/-- Only classes have elements. -/
theorem ne_classElement {n c : Node} (hc : c ∈ n.children)
    (hn : ∀ body, n ≠ .classBody body) (element : ClassElement) : c ≠ .classElement element := by
  rintro rfl
  cases n with
  | classBody body => exact hn body rfl
  | expression e => cases e <;> simp at hc
  | statement s => cases s <;> simp at hc
  | pattern p => cases p <;> simp at hc
  | classElement element' => cases element' <;> simp at hc
  | forInit part | forTarget part | assignmentTarget part | objectProperty part
  | propertyKey part | arrowBody part => cases part <;> simp at hc
  | _ => simp at hc

/-- The parts of a node at a place where the flag is that of the place. -/
def Settled (options : Options) (n : Node) (path : List Node) : Prop :=
  Settles options (inPrivateMethod path) n.account (n.Everywhere (Lawful options) path) n.Free

theorem settled_expression {e : Expression} {path : List Node}
    (hparts : ∀ c ∈ (Node.expression e).children, c.Settled options (.expression e :: path)) :
    (Node.expression e).Settled options path := by
  have hall := ((Settles.opening e).add (Settles.sum hparts)).add (Settles.closing e)
  rw [Settled, account_eq]
  refine hall.congr ?_ fun name => ?_
  · rw [everywhere_iff, Lawful]
    tauto
  · rw [free_iff]
    simp only [Node.expression.injEq, exists_and_left, exists_eq_left', reduceCtorEq, false_implies,
      implies_true, and_true, false_or]
    exact or_comm

theorem settled_methodValue {key : PropertyKey} {f : Function} {path : List Node}
    (hparts : ∀ c ∈ (Node.methodValue key f).children,
      c.Settled options (.methodValue key f :: path)) :
    (Node.methodValue key f).Settled options path := by
  have hall := @Settles.method options (inPrivateMethod path) _ _ _ key (Settles.sum hparts)
  rw [Settled, account_eq]
  refine hall.congr ?_ fun name => ?_
  · rw [everywhere_iff]
    exact and_iff_right trivial
  · rw [free_iff]
    simp

theorem settled_classBody {body : ClassBody} {path : List Node}
    (hparts : ∀ element ∈ body.elements, ∀ c ∈ element.children,
      c.Settled options (.classElement element :: .classBody body :: path)) :
    (Node.classBody body).Settled options path := by
  refine (Settles.classBody hparts).congr ?_ fun name => Iff.rfl
  have helement (element : ClassElement) :
      (Node.classElement element).Everywhere (Lawful options) (.classBody body :: path) ↔
        element.NameLawful options ∧ ∀ c ∈ element.children,
          c.Everywhere (Lawful options) (.classElement element :: .classBody body :: path) :=
    everywhere_iff
  rw [everywhere_iff, Lawful, children, List.forall_mem_map]
  simp only [helement]

/-- Nodes that say nothing themselves. -/
theorem settled_of_silent {n : Node} {path : List Node} (hopening : n.opening = 0)
    (hclosing : n.closing = 0) (hflag : inPrivateMethod (n :: path) = inPrivateMethod path)
    (hlawful : Lawful options path n) (hexpression : ∀ e, n ≠ .expression e)
    (hbody : ∀ body, n ≠ .classBody body)
    (hparts : ∀ c ∈ n.children, c.Settled options (n :: path)) : n.Settled options path := by
  have hall := Settles.sum hparts
  rw [hflag] at hall
  rw [Settled, account_eq, hopening, hclosing, zero_add, add_zero]
  refine hall.congr ?_ fun name => ?_
  · rw [everywhere_iff]
    exact and_iff_right hlawful
  · rw [free_iff]
    simp only [hexpression, hbody, false_and, exists_false, false_or, false_implies, implies_true,
      and_true]

/-- Every part of a tree, elements of classes apart. They do not leave the bound names as they
are, and are settled with their class. -/
theorem settled (n : Node) (hn : ∀ element, n ≠ .classElement element) (path : List Node) :
    n.Settled options path := by
  have hchildren (hbody : ∀ body, n ≠ .classBody body) :
      ∀ c ∈ n.children, c.Settled options (n :: path) := fun c hc =>
    settled c (ne_classElement hc hbody) (n :: path)
  have hbelow : ∀ b ∈ n.children, (∀ body, b ≠ .classBody body) →
      ∀ c ∈ b.children, c.Settled options (b :: n :: path) := fun b hb hbody c hc =>
    settled c (ne_classElement hc hbody) (b :: n :: path)
  cases n with
  | expression e => exact settled_expression (hchildren (by simp))
  | methodValue key f => exact settled_methodValue (hchildren (by simp))
  | classElement element => exact absurd rfl (hn element)
  | classBody body =>
    exact settled_classBody fun element helement =>
      hbelow (.classElement element) (List.mem_map_of_mem helement) (by simp)
  | _ => exact settled_of_silent rfl rfl rfl trivial (by simp) (by simp) (hchildren (by simp))
termination_by sizeOf n
decreasing_by
  · exact sizeOf_lt_of_mem_children hc
  · exact Nat.lt_trans (sizeOf_lt_of_mem_children hc) (sizeOf_lt_of_mem_children hb)

end Node

end EcmaScript
