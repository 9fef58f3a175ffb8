import EcmaScript.Hooks.PrivateNames

/-!
The private-name hooks in closed form.

Each hook is a sequence of checks; here it is one expression in the state it is called in. A hook
that fails leaves the state as it was, `exitClass` apart, which closes its scope in any case.
-/

namespace EcmaScript

namespace PrivateNames

/-- The error about a private name that is spelled like a reserved word, if the options ask for
one. -/
def reservedError? (name : PrivateName) (options : Options) : Option Diagnostic :=
  if options.allowReserved = .never then
    (rejectWord? name.name true options.goal).map fun rejection =>
      .located (.word rejection) name.span.start
  else none

theorem checkUnreserved_eq (name : PrivateName) (options : Options) (s : PrivateNames) :
    checkUnreserved name options s =
      match reservedError? name options with
      | some d => .error d s
      | none => .ok () s := by
  unfold checkUnreserved reservedError?
  by_cases hpolicy : options.allowReserved = .never
  · simp only [hpolicy, beq_self_eq_true, if_true]
    cases rejectWord? name.name true options.goal <;> rfl
  · simp only [hpolicy, beq_eq_false_iff_ne.mpr hpolicy, Bool.false_eq_true, if_false]
    rfl

theorem declareMember_eq (name : PrivateName) (kind : MemberKind) (start : Position)
    (options : Options) (s : PrivateNames) :
    declareMember name kind start options s =
      if options.supportsPrivateNames = false then .ok false s
      else
        match reservedError? name options with
        | some d => .error d s
        | none =>
          if name.name = "constructor" then
            .error (.located (.privateName .namedConstructor) start) s
          else
            match ClassScopes.declare name.name kind s.scopes with
            | .ok _ scopes => .ok true { s with scopes }
            | .error violation scopes =>
              .error (.located (.privateName violation) start) { s with scopes } := by
  unfold declareMember
  cases options.supportsPrivateNames with
  | false => rfl
  | true =>
    simp only [Bool.not_true, Bool.false_eq_true, if_false, Bool.true_eq_false, Bind.bind,
      EStateM.bind, checkUnreserved_eq]
    cases reservedError? name options with
    | some d => rfl
    | none =>
      by_cases hname : name.name = "constructor"
      · simp only [hname, beq_self_eq_true, if_true]
        rfl
      · simp only [hname, beq_eq_false_iff_ne.mpr hname, Bool.false_eq_true, if_false,
          declareIn, EStateM.bind]
        cases ClassScopes.declare name.name kind s.scopes <;> rfl

theorem referenceName_eq (name : PrivateName) (options : Options) (s : PrivateNames) :
    referenceName name options s =
      if options.supportsPrivateNames = false ∨ s.scopes.isEmpty then .ok false s
      else
        match reservedError? name options with
        | some d => .error d s
        | none =>
          .ok (s.scopes.reference name.name name.span.start).1
            { s with scopes := (s.scopes.reference name.name name.span.start).2 } := by
  unfold referenceName
  have hget : (get : Hook PrivateNames PrivateNames) s = .ok s s := rfl
  simp only [Bind.bind, EStateM.bind, hget]
  cases options.supportsPrivateNames with
  | false => rfl
  | true =>
    cases s.scopes.isEmpty with
    | true => rfl
    | false =>
      simp only [Bool.not_true, Bool.or_self, Bool.false_eq_true, if_false, EStateM.bind,
        checkUnreserved_eq, Bool.true_eq_false, or_self]
      cases reservedError? name options <;> rfl

end PrivateNames

namespace Expression

@[simp] def isPrivateDelete : Expression → Bool
  | .unary .delete argument _ => argument.isPrivateMember
  | _ => false

def isSuper : Expression → Bool
  | .super _ => true
  | _ => false

end Expression

namespace PrivateNames

theorem afterUnary_eq (e : Expression) (s : PrivateNames) :
    afterUnary e s =
      if e.isPrivateDelete then .error (.located (.privateName .deleted) e.span.start) s
      else .ok () s := by
  unfold afterUnary
  split
  · next argument span =>
    simp only [Expression.isPrivateDelete, Expression.span]
    by_cases hprivate : argument.isPrivateMember = true
    · simp only [hprivate, if_true]
      rfl
    · simp only [hprivate, Bool.false_eq_true, if_false]
      rfl
  · next hother =>
    have hdelete : e.isPrivateDelete = false := by
      unfold Expression.isPrivateDelete
      split
      · exact absurd rfl (hother _ _)
      · rfl
    rw [hdelete]
    rfl

theorem afterAtom_eq (atom : Expression) (next : Token) (s : PrivateNames) :
    afterAtom atom next s =
      if atom.isSuper && s.inPrivateMethod && next == .punctuator .lParen then
        .error (.located (.privateName .directSuper) atom.span.start) s
      else .ok () s := by
  unfold afterAtom
  cases atom with
  | super span =>
    have hget : (get : Hook PrivateNames PrivateNames) s = .ok s s := rfl
    simp only [Bind.bind, EStateM.bind, hget, Expression.isSuper, Expression.span, Bool.true_and]
    split <;> rfl
  | _ => rfl

end PrivateNames

end EcmaScript
