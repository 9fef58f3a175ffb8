import EcmaScript.Proofs.ClassScope.Tables
import EcmaScript.Proofs.Imitation
import EcmaScript.Proofs.PrivateNames

/-!
Private names without positions.

Of the places where private names are used only the reports of errors depend. States of the
private-name hooks that are the same up to positions answer every call that succeeds alike, and
stay the same up to positions.
-/

namespace EcmaScript

instance : Bare ClassScope := ⟨fun scope => { scope with pending := bare scope.pending }⟩

instance : Bare ClassScopes := ⟨fun s => ⟨bare s.scopes⟩⟩

instance : Bare PrivateNames := ⟨fun s => { s with scopes := bare s.scopes }⟩

/-! ## Tables -/

namespace ClassScope

/-- What awaits a declaration is told by the names. -/
theorem twins_iff {pending pending' : List (String × Position)} :
    Twins pending pending' ↔ names pending = names pending' := by
  have hbare (entries : List (String × Position)) :
      bare entries = (names entries).map fun name => (name, Position.start) := by
    rw [names, List.map_map]
    rfl
  have hnames (entries : List (String × Position)) : names (bare entries) = names entries := by
    rw [hbare, names, List.map_map]
    exact List.map_id _
  constructor
  · intro h
    rw [← hnames, h.bare_eq, hnames]
  · intro h
    exact ⟨by rw [hbare, h, hbare]⟩

variable {scope scope' inner inner' : ClassScope}

theorem twins_of_eq (hparent : scope.parent = scope'.parent) (hbound : scope.bound = scope'.bound)
    (hpending : names scope.pending = names scope'.pending) : Twins scope scope' := by
  obtain ⟨parent, bound, pending⟩ := scope
  obtain ⟨parent', bound', pending'⟩ := scope'
  obtain rfl : parent = parent' := hparent
  obtain rfl : bound = bound' := hbound
  exact ⟨congrArg (ClassScope.mk parent bound) (twins_iff.2 hpending).bare_eq⟩

theorem parent_eq (h : Twins scope scope') : scope.parent = scope'.parent := by
  have hparent := congrArg ClassScope.parent h.bare_eq
  exact hparent

theorem bound_eq (h : Twins scope scope') : scope.bound = scope'.bound := by
  have hbound := congrArg ClassScope.bound h.bare_eq
  exact hbound

theorem names_eq (h : Twins scope scope') : names scope.pending = names scope'.pending :=
  twins_iff.1 ⟨congrArg ClassScope.pending h.bare_eq⟩

theorem names_putNew {α : Type} (entries : List (String × α)) (name : String) (value : α) :
    names (putNew entries name value) =
      if name ∈ names entries then names entries else names entries ++ [name] := by
  unfold putNew
  by_cases h : name ∈ names entries
  · rw [if_pos (isSome_lookup_iff.2 h), if_pos h]
  · rw [if_neg (mt isSome_lookup_iff.1 h), if_neg h]
    simp [names]

theorem names_remove {α : Type} (entries : List (String × α)) (name : String) :
    names (remove entries name) = (names entries).filter (· != name) := by
  rw [names, remove, names, List.filter_map]
  rfl

theorem twins_await (h : Twins scope scope') (name : String) (position position' : Position) :
    Twins (scope.await name position) (scope'.await name position') := by
  refine twins_of_eq ?_ ?_ ?_
  · exact (parent_eq h : scope.parent = scope'.parent)
  · exact (bound_eq h : scope.bound = scope'.bound)
  · simp only [await, names_putNew, names_eq h]

theorem twins_bind (h : Twins scope scope') (name : String) (binding : Binding) :
    Twins (scope.bind name binding) (scope'.bind name binding) := by
  refine twins_of_eq ?_ ?_ ?_
  · exact (parent_eq h : scope.parent = scope'.parent)
  · simp only [bind, bound_eq h]
  · simp only [bind, names_remove, names_eq h]

theorem twins_inherit (h : Twins scope scope') (hinner : Twins inner inner') :
    Twins (scope.inherit inner) (scope'.inherit inner') := by
  have hnames := names_eq hinner
  unfold inherit
  generalize inner.pending = pending at hnames
  generalize inner'.pending = pending' at hnames
  induction pending generalizing pending' scope scope' with
  | nil =>
    cases pending' with
    | nil => exact h
    | cons => cases hnames
  | cons entry pending ih =>
    cases pending' with
    | nil => cases hnames
    | cons entry' pending' =>
      obtain ⟨hname, hnames⟩ := List.cons.inj hnames
      rw [List.foldl_cons, List.foldl_cons]
      refine ih ?_ _ hnames
      have hentry : entry.1 = entry'.1 := hname
      obtain ⟨name, position⟩ := entry
      obtain ⟨name', position'⟩ := entry'
      obtain rfl : name = name' := hentry
      exact twins_await h name position position'

end ClassScope

namespace ClassScopes

variable {s s' : ClassScopes}

theorem scopes_twins (h : Twins s s') : Twins s.scopes s'.scopes :=
  ⟨congrArg ClassScopes.scopes h.bare_eq⟩

/-- Twin scopes are none, or twins around twins. -/
theorem twins_cases (h : Twins s s') : (s = ⟨[]⟩ ∧ s' = ⟨[]⟩) ∨
    ∃ scope scope' outer outer', s = ⟨scope :: outer⟩ ∧ s' = ⟨scope' :: outer'⟩ ∧
      Twins scope scope' ∧ Twins (ClassScopes.mk outer) ⟨outer'⟩ := by
  obtain ⟨_ | ⟨scope, outer⟩⟩ := s <;> obtain ⟨_ | ⟨scope', outer'⟩⟩ := s'
  · exact .inl ⟨rfl, rfl⟩
  · cases h.bare_eq
  · cases h.bare_eq
  · obtain ⟨hscope, houter⟩ := List.cons.inj (scopes_twins h).bare_eq
    exact .inr ⟨_, _, _, _, rfl, rfl, ⟨hscope⟩, ⟨congrArg ClassScopes.mk houter⟩⟩

theorem twins_cons {scope scope' : ClassScope} {outer outer' : List ClassScope}
    (hscope : Twins scope scope') (houter : Twins (ClassScopes.mk outer) ⟨outer'⟩) :
    Twins (ClassScopes.mk (scope :: outer)) ⟨scope' :: outer'⟩ :=
  ⟨congrArg ClassScopes.mk (congrArg₂ List.cons hscope.bare_eq (scopes_twins houter).bare_eq)⟩

theorem depth_eq (h : Twins s s') : s.depth = s'.depth := by
  have hlength := congrArg List.length (scopes_twins h).bare_eq
  simp only [bare, List.length_map] at hlength
  exact hlength

theorem lookup_bare (s : ClassScopes) (name : String) : (bare s).lookup name = s.lookup name := by
  have hdepth : (bare s).depth = s.depth := List.length_map _
  have hfrom (steps : Nat) (index : Option Nat) :
      (bare s).lookupFrom name steps index = s.lookupFrom name steps index := by
    induction steps generalizing index with
    | zero => cases index <;> rfl
    | succ steps ih =>
      cases index with
      | none => rfl
      | some index =>
        have hscope : (bare s).scope? index = (s.scope? index).map bare := by
          simp only [scope?]
          rw [show (bare s).scopes = s.scopes.map bare from rfl, ← List.map_reverse,
            List.getElem?_map]
        rw [lookupFrom, lookupFrom, hscope]
        cases s.scope? index with
        | none => rfl
        | some scope =>
          have hbound : (bare scope).bound = scope.bound := rfl
          simp only [Option.map_some, Option.bind_eq_bind, Option.bind_some]
          rw [hbound]
          cases scope.bound.lookup name with
          | some binding => rfl
          | none => exact ih scope.parent
  unfold lookup innermost?
  rw [hdepth, hfrom]

theorem lookup_twins (h : Twins s s') (name : String) : s.lookup name = s'.lookup name := by
  rw [← lookup_bare, h.bare_eq, lookup_bare]

theorem twins_push (h : Twins s s') : Twins s.push s'.push := by
  refine twins_cons ?_ h
  have hinnermost : s.innermost? = s'.innermost? := by
    simp only [innermost?, depth_eq h]
  exact ClassScope.twins_of_eq hinnermost rfl rfl

theorem twins_pop (h : Twins s s') {t : ClassScopes} (hpop : pop s = .ok () t) :
    ∃ t', pop s' = .ok () t' ∧ Twins t t' := by
  obtain ⟨rfl, rfl⟩ | ⟨inner, inner', rest, rest', rfl, rfl, hinner, hrest⟩ := twins_cases h
  · cases hpop
    exact ⟨_, rfl, .refl _⟩
  obtain ⟨hnone, hnone'⟩ | ⟨outer, outer', others, others', hcons, hcons', houter, hothers⟩ :=
    twins_cases hrest
  · cases hnone
    cases hnone'
    have hnames := ClassScope.names_eq hinner
    unfold pop at hpop ⊢
    dsimp only at hpop ⊢
    cases hearliest : ClassScope.earliest? (inner.pending.map (·.2)) with
    | some position =>
      rw [hearliest] at hpop
      cases hpop
    | none =>
      rw [hearliest] at hpop
      cases hpop
      rw [ClassScope.earliest?_eq_none_iff, List.map_eq_nil_iff] at hearliest
      rw [hearliest, ClassScope.names_nil, ClassScope.names, eq_comm, List.map_eq_nil_iff] at hnames
      rw [hnames]
      exact ⟨_, rfl, .refl _⟩
  · cases hcons
    cases hcons'
    cases hpop
    exact ⟨_, rfl, twins_cons (ClassScope.twins_inherit houter hinner) hothers⟩

theorem twins_declare (h : Twins s s') {name : String} {kind : MemberKind} {t : ClassScopes}
    (hdeclare : declare name kind s = .ok () t) :
    ∃ t', declare name kind s' = .ok () t' ∧ Twins t t' := by
  obtain ⟨rfl, rfl⟩ | ⟨scope, scope', outer, outer', rfl, rfl, hscope, houter⟩ := twins_cases h
  · cases hdeclare
    exact ⟨_, rfl, .refl _⟩
  have hdeclared : scope'.declared? name kind = scope.declared? name kind := by
    simp only [ClassScope.declared?, ClassScope.bound_eq hscope]
  unfold declare at hdeclare ⊢
  dsimp only at hdeclare ⊢
  rw [hdeclared]
  cases hbinding : scope.declared? name kind with
  | none =>
    rw [hbinding] at hdeclare
    cases hdeclare
  | some binding =>
    rw [hbinding] at hdeclare
    cases hdeclare
    exact ⟨_, rfl, twins_cons (ClassScope.twins_bind hscope name binding) houter⟩

theorem twins_reference (h : Twins s s') (name : String) (position position' : Position) :
    (s.reference name position).1 = (s'.reference name position').1 ∧
      Twins (s.reference name position).2 (s'.reference name position').2 := by
  unfold reference
  rw [lookup_twins h]
  by_cases hbound : (s'.lookup name).isSome = true
  · rw [if_pos hbound, if_pos hbound]
    exact ⟨rfl, h⟩
  rw [if_neg hbound, if_neg hbound]
  obtain ⟨rfl, rfl⟩ | ⟨scope, scope', outer, outer', rfl, rfl, hscope, houter⟩ := twins_cases h
  · exact ⟨rfl, .refl _⟩
  · exact ⟨rfl, twins_cons (ClassScope.twins_await hscope name position position') houter⟩

end ClassScopes

/-! ## Hooks -/

theorem Expression.isPrivateDelete_eq {e e' : Expression} (h : Twins e e') :
    e.isPrivateDelete = e'.isPrivateDelete := by
  have hbare (e : Expression) : e.bare.isPrivateDelete = e.isPrivateDelete := by
    cases e with
    | unary operator argument span =>
      cases operator <;> first
        | rfl
        | cases argument <;> first
          | rfl
          | (rename_i property _ _ _; cases property <;> rfl)
    | _ => rfl
  rw [← hbare e, ← hbare e']
  exact congrArg isPrivateDelete h.bare_eq

theorem Expression.isSuper_eq {e e' : Expression} (h : Twins e e') : e.isSuper = e'.isSuper := by
  have hbare (e : Expression) : e.bare.isSuper = e.isSuper := by cases e <;> rfl
  rw [← hbare e, ← hbare e']
  exact congrArg isSuper h.bare_eq

theorem PropertyKey.isPrivate_eq {key key' : PropertyKey} (h : Twins key key') :
    key.isPrivate = key'.isPrivate := by
  have hbare (key : PropertyKey) : key.bare.isPrivate = key.isPrivate := by cases key <;> rfl
  rw [← hbare key, ← hbare key']
  exact congrArg isPrivate h.bare_eq

namespace PrivateNames

variable {s s' : PrivateNames}

theorem twins_iff : Twins s s' ↔
    s.inPrivateMethod = s'.inPrivateMethod ∧ Twins s.scopes s'.scopes := by
  obtain ⟨scopes, inPrivateMethod⟩ := s
  obtain ⟨scopes', inPrivateMethod'⟩ := s'
  constructor
  · intro h
    obtain ⟨hscopes, hinside⟩ := PrivateNames.mk.inj h.bare_eq
    exact ⟨hinside, ⟨hscopes⟩⟩
  · rintro ⟨rfl, hscopes⟩
    exact ⟨congrArg (PrivateNames.mk · inPrivateMethod) hscopes.bare_eq⟩

theorem name_eq {name name' : PrivateName} (h : Twins name name') : name.name = name'.name := by
  have hname := congrArg PrivateName.name h.bare_eq
  exact hname

theorem reservedError?_eq_none {name name' : PrivateName} (h : name.name = name'.name)
    {options : Options} (hnone : reservedError? name options = none) :
    reservedError? name' options = none := by
  unfold reservedError? at hnone ⊢
  rw [← h]
  split at hnone
  · next hpolicy =>
    rw [if_pos hpolicy, Option.map_eq_none_iff] at *
    exact hnone
  · next hpolicy => rw [if_neg hpolicy]

/-- The hooks for private names ignore positions. -/
theorem ignorePositions : Hooks.privateNames.IgnorePositions Twins where
  enterClass h := by
    obtain ⟨hinside, hscopes⟩ := twins_iff.1 h
    exact twins_iff.2 ⟨hinside, ClassScopes.twins_push hscopes⟩
  exitClass s s' t a h hrun := by
    obtain ⟨hinside, hscopes⟩ := twins_iff.1 h
    change exitClass s = _ at hrun
    change ∃ t', exitClass s' = _ ∧ _
    unfold exitClass at hrun ⊢
    cases hpop : ClassScopes.pop s.scopes with
    | error d scopes =>
      rw [hpop] at hrun
      cases hrun
    | ok _ scopes =>
      rw [hpop] at hrun
      cases hrun
      obtain ⟨scopes', hpop', htwins⟩ := ClassScopes.twins_pop hscopes hpop
      rw [hpop']
      exact ⟨_, rfl, twins_iff.2 ⟨hinside, htwins⟩⟩
  declareMember {name name'} hname kind start start' options s s' t a h hrun := by
    obtain ⟨hinside, hscopes⟩ := twins_iff.1 h
    change declareMember name kind start options s = _ at hrun
    change ∃ t', declareMember name' kind start' options s' = _ ∧ _
    rw [declareMember_eq] at hrun ⊢
    split at hrun
    · next hedition =>
      cases hrun
      exact ⟨s', if_pos hedition, h⟩
    next hedition =>
    rw [if_neg hedition]
    cases hreserved : reservedError? name options with
    | some d =>
      rw [hreserved] at hrun
      cases hrun
    | none =>
      rw [hreserved] at hrun
      rw [reservedError?_eq_none (name_eq hname) hreserved, ← name_eq hname]
      dsimp only at hrun ⊢
      split at hrun
      · cases hrun
      next hconstructor =>
      rw [if_neg hconstructor]
      cases hdeclare : ClassScopes.declare name.name kind s.scopes with
      | error violation scopes =>
        rw [hdeclare] at hrun
        cases hrun
      | ok _ scopes =>
        rw [hdeclare] at hrun
        cases hrun
        obtain ⟨scopes', hdeclare', htwins⟩ := ClassScopes.twins_declare hscopes hdeclare
        rw [hdeclare']
        exact ⟨_, rfl, twins_iff.2 ⟨hinside, htwins⟩⟩
  enterMethod := by
    intro key key' s s' hkey h
    obtain ⟨hinside, hscopes⟩ := twins_iff.1 h
    exact ⟨hinside, twins_iff.2 ⟨PropertyKey.isPrivate_eq hkey, hscopes⟩⟩
  exitMethod saved {s s'} h := twins_iff.2 ⟨rfl, (twins_iff.1 h).2⟩
  referenceName {name name'} hname options s s' t a h hrun := by
    obtain ⟨hinside, hscopes⟩ := twins_iff.1 h
    change referenceName name options s = _ at hrun
    change ∃ t', referenceName name' options s' = _ ∧ _
    have hempty : s.scopes.isEmpty = s'.scopes.isEmpty := by
      obtain ⟨hs, hs'⟩ | ⟨_, _, _, _, hs, hs', -⟩ := ClassScopes.twins_cases hscopes
      · rw [hs, hs']
      · rw [hs, hs']
        rfl
    rw [referenceName_eq] at hrun ⊢
    rw [← hempty]
    split at hrun
    · next hdeclined =>
      cases hrun
      exact ⟨s', if_pos hdeclined, h⟩
    next hdeclined =>
    rw [if_neg hdeclined]
    cases hreserved : reservedError? name options with
    | some d =>
      rw [hreserved] at hrun
      cases hrun
    | none =>
      rw [hreserved] at hrun
      rw [reservedError?_eq_none (name_eq hname) hreserved]
      cases hrun
      obtain ⟨hopen, htwins⟩ :=
        ClassScopes.twins_reference hscopes name.name name.span.start name'.span.start
      rw [← name_eq hname, hopen]
      exact ⟨_, rfl, twins_iff.2 ⟨hinside, htwins⟩⟩
  afterUnary {e e'} he s s' t a h hrun := by
    change afterUnary e s = _ at hrun
    change ∃ t', afterUnary e' s' = _ ∧ _
    rw [afterUnary_eq] at hrun ⊢
    rw [← Expression.isPrivateDelete_eq he]
    split at hrun
    · cases hrun
    next hdelete =>
    cases hrun
    exact ⟨s', if_neg hdelete, h⟩
  afterAtom {atom atom'} hatom next s s' t a h hrun := by
    change afterAtom atom next s = _ at hrun
    change ∃ t', afterAtom atom' next s' = _ ∧ _
    rw [afterAtom_eq] at hrun ⊢
    rw [← Expression.isSuper_eq hatom, ← (twins_iff.1 h).1]
    split at hrun
    · cases hrun
    next hsuper =>
    cases hrun
    exact ⟨s', if_neg hsuper, h⟩

end PrivateNames

end EcmaScript
