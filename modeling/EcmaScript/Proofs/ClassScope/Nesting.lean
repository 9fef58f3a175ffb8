import EcmaScript.Proofs.ClassScope.Reachable

/-!
What a class leaves behind in the classes around it.

A class that is opened and closed inside of others, with any classes nested in it, changes no scope
but the innermost one of those that were open before, and there it adds to what is pending alone. It
adds every name that it uses without a declaration of its own, unless one of the scopes around it
binds the name or the name was pending already.

The proof goes by the nesting. A history inside of another one is that history with its classes
numbered on (`ScopeHistory.inside`), so what is known of the scopes of all histories says what the
innermost open scope has to settle behind the class.
-/

namespace EcmaScript

namespace ScopeOp

/-- Operations in the body of a class: declarations, uses, and whole classes. -/
inductive IsBody : List ScopeOp → Prop where
  | nil : IsBody []
  | declare (name : String) (kind : MemberKind) {ops : List ScopeOp} (h : IsBody ops) :
    IsBody (.declare name kind :: ops)
  | reference (name : String) (position : Position) {ops : List ScopeOp} (h : IsBody ops) :
    IsBody (.reference name position :: ops)
  | nested {inner ops : List ScopeOp} (hinner : IsBody inner) (h : IsBody ops) :
    IsBody (.push :: inner ++ .pop :: ops)

/-- The operations open a class and close it at their end, with nothing but its body in between. -/
def IsClass (ops : List ScopeOp) : Prop := ∃ body, IsBody body ∧ ops = .push :: body ++ [.pop]

end ScopeOp

/-- The scopes have the same link and the same entries, in any order. -/
def ClassScope.SameEntries (scope scope' : ClassScope) : Prop :=
  scope'.parent = scope.parent ∧ scope'.bound.Perm scope.bound ∧ scope'.pending.Perm scope.pending

theorem ClassScope.SameEntries.trans {scope scope' scope'' : ClassScope}
    (h : scope.SameEntries scope') (h' : scope'.SameEntries scope'') : scope.SameEntries scope'' :=
  ⟨h'.1.trans h.1, h'.2.1.trans h.2.1, h'.2.2.trans h.2.2⟩

/-- The operations may lead from the first scopes to the second ones, where the order of every table
may change at any time. -/
inductive ScopePath : List ScopeOp → ClassScopes → ClassScopes → Prop where
  | nil {s t : ClassScopes} (hshuffled : s.Shuffled t) : ScopePath [] s t
  | cons {op : ScopeOp} {ops : List ScopeOp} {s s' t : ClassScopes} (hshuffled : s.Shuffled s')
      (hrest : ScopePath ops (op.run s').2 t) : ScopePath (op :: ops) s t

namespace ScopePath

variable {s t : ClassScopes} {ops more : List ScopeOp}

/-- The operations in the order of the tables as they are. -/
theorem runAll (ops : List ScopeOp) (s : ClassScopes) :
    ScopePath ops s (ScopeOp.runAll ops s).2 := by
  induction ops generalizing s with
  | nil => exact .nil (.refl s)
  | cons op ops ih => exact .cons (.refl s) (ih (op.run s).2)

theorem of_append (h : ScopePath (ops ++ more) s t) :
    ∃ u, ScopePath ops s u ∧ ScopePath more u t := by
  induction ops generalizing s with
  | nil => exact ⟨s, .nil (.refl s), h⟩
  | cons op ops ih =>
    obtain _ | ⟨hshuffled, hrest⟩ := h
    obtain ⟨u, hops, hmore⟩ := ih hrest
    exact ⟨u, .cons hshuffled hops, hmore⟩

/-- Where the scopes are those of a history, they stay so. -/
theorem tracks {h : ScopeHistory} (hpath : ScopePath ops s t) (hs : h.Sound) (ht : h.Tracks s) :
    (ops.foldl ScopeHistory.step h).Tracks t := by
  induction hpath generalizing h with
  | nil hshuffled => exact ht.shuffled hshuffled
  | @cons op ops s s' t hshuffled _ ih =>
    exact ih (hs.step op) ((ht.shuffled hshuffled).step hs op)

/-! ## Scopes around a class -/

/-- The operations leave the scopes around the innermost one alone, and its link. -/
def SparesAround (ops : List ScopeOp) : Prop :=
  ∀ {s t : ClassScopes} {scope : ClassScope} {around : List ClassScope}, ScopePath ops s t →
    s.scopes = scope :: around → ∃ scope' around', t.scopes = scope' :: around' ∧
      scope'.parent = scope.parent ∧ List.Forall₂ ClassScope.SameEntries around around'

theorem forall₂_trans {first second third : List ClassScope}
    (h : List.Forall₂ ClassScope.SameEntries first second)
    (h' : List.Forall₂ ClassScope.SameEntries second third) :
    List.Forall₂ ClassScope.SameEntries first third := by
  induction h generalizing third with
  | nil => exact h'
  | cons hscope _ ih =>
    obtain _ | ⟨hscope', hrest⟩ := h'
    exact .cons (hscope.trans hscope') (ih hrest)

/-- What a change of the order leaves of the scopes. -/
theorem exists_of_shuffled {scope : ClassScope} {around : List ClassScope} (h : s.Shuffled t)
    (hscopes : s.scopes = scope :: around) : ∃ scope' around', t.scopes = scope' :: around' ∧
      scope.SameEntries scope' ∧ List.Forall₂ ClassScope.SameEntries around around' := by
  change List.Forall₂ ClassScope.SameEntries s.scopes t.scopes at h
  rw [hscopes] at h
  obtain ⟨scope', around', hscope, haround, hsame⟩ := List.forall₂_cons_left_iff.mp h
  exact ⟨scope', around', hsame, hscope, haround⟩

/-- A class whose body spares the scopes around it changes the innermost one of them in what is
pending alone. -/
theorem of_class {body : List ScopeOp} (hbody : SparesAround body)
    (hpath : ScopePath (.push :: body ++ [.pop]) s t) {scope : ClassScope}
    {around : List ClassScope} (hscopes : s.scopes = scope :: around) :
    ∃ scope' around', t.scopes = scope' :: around' ∧ scope'.parent = scope.parent ∧
      scope'.bound.Perm scope.bound ∧ List.Forall₂ ClassScope.SameEntries around around' := by
  obtain _ | @⟨_, _, _, opened, _, hshuffled, hpath⟩ := hpath
  obtain ⟨first, around₁, hopened, hfirst, haround₁⟩ := exists_of_shuffled hshuffled hscopes
  obtain ⟨closing, hinside, hpath⟩ := of_append hpath
  have hpush : (ScopeOp.push.run opened).2.scopes =
      ⟨opened.innermost?, [], []⟩ :: first :: around₁ := by
    rw [← hopened]
    rfl
  obtain ⟨inner, outer, hclosing, -, houter⟩ := hbody hinside hpush
  obtain _ | @⟨_, _, _, closing', _, hshuffled', hpath⟩ := hpath
  obtain ⟨inner', outer', hclosing', -, houter'⟩ := exists_of_shuffled hshuffled' hclosing
  obtain ⟨second, around₂, hsecond, haround₂, rfl⟩ :=
    List.forall₂_cons_left_iff.mp (forall₂_trans houter houter')
  have hpop : (ScopeOp.pop.run closing').2.scopes = second.inherit inner' :: around₂ := by
    obtain ⟨scopes⟩ := closing'
    change scopes = _ at hclosing'
    rw [hclosing']
    rfl
  obtain hshuffled'' | _ := hpath
  obtain ⟨scope', around', ht, hscope', haround'⟩ := exists_of_shuffled hshuffled'' hpop
  have hsame := hfirst.trans hsecond
  refine ⟨scope', around', ht, ?_, ?_, forall₂_trans (forall₂_trans haround₁ haround₂) haround'⟩
  · rw [hscope'.1, ClassScope.inherit_parent, hsame.1]
  · have hbound := hscope'.2.1
    rw [ClassScope.inherit_bound] at hbound
    exact hbound.trans hsame.2.1

/-- What one step in the body of a class does to the scopes around it. -/
theorem sparesAround_cons {op : ScopeOp} (hops : SparesAround ops)
    (hop : ∀ (scope : ClassScope) (around : List ClassScope), ∃ scope',
      (op.run ⟨scope :: around⟩).2.scopes = scope' :: around ∧ scope'.parent = scope.parent) :
    SparesAround (op :: ops) := by
  intro s t scope around hpath hscopes
  obtain _ | @⟨_, _, _, ⟨scopes⟩, _, hshuffled, hrest⟩ := hpath
  obtain ⟨scope₁, around₁, hscopes₁, hscope₁, haround₁⟩ := exists_of_shuffled hshuffled hscopes
  change scopes = _ at hscopes₁
  subst hscopes₁
  obtain ⟨scope₂, hscopes₂, hparent⟩ := hop scope₁ around₁
  obtain ⟨scope', around', ht, hparent', haround'⟩ := hops hrest hscopes₂
  exact ⟨scope', around', ht, by rw [hparent', hparent, hscope₁.1], forall₂_trans haround₁ haround'⟩

/-- By induction on the nesting: a body changes no scope but that of its own class. -/
theorem sparesAround_of_isBody {body : List ScopeOp} (hbody : ScopeOp.IsBody body) :
    SparesAround body := by
  induction hbody with
  | nil =>
    intro s t scope around hpath hscopes
    obtain hshuffled | _ := hpath
    obtain ⟨scope', around', ht, hscope, haround⟩ := exists_of_shuffled hshuffled hscopes
    exact ⟨scope', around', ht, hscope.1, haround⟩
  | declare name kind _ ih =>
    refine sparesAround_cons ih fun scope around => ?_
    simp only [ScopeOp.run, ClassScopes.declare]
    cases scope.declared? name kind with
    | some binding => exact ⟨scope.bind name binding, rfl, rfl⟩
    | none => exact ⟨scope, rfl, rfl⟩
  | reference name position _ ih =>
    refine sparesAround_cons ih fun scope around => ?_
    simp only [ScopeOp.run, ClassScopes.reference]
    split
    · exact ⟨scope, rfl, rfl⟩
    · exact ⟨scope.await name position, rfl, rfl⟩
  | @nested inner ops _ _ ihinner ih =>
    intro s t scope around hpath hscopes
    have hpath' : ScopePath ((.push :: inner ++ [.pop]) ++ ops) s t := by simpa using hpath
    obtain ⟨u, hclass, hrest⟩ := of_append hpath'
    obtain ⟨scope₁, around₁, hscopes₁, hparent₁, -, haround₁⟩ := of_class ihinner hclass hscopes
    obtain ⟨scope', around', ht, hparent', haround'⟩ := ih hrest hscopes₁
    exact ⟨scope', around', ht, hparent'.trans hparent₁, forall₂_trans haround₁ haround'⟩

end ScopePath

namespace ScopeHistory

variable {h g : ScopeHistory}

def inside (h g : ScopeHistory) : ScopeHistory where
  next := h.next + g.next
  opened := g.opened.map (h.next + ·) ++ h.opened
  uses := h.uses ++ g.uses.map fun u =>
    { u with classes := u.classes.map (h.next + ·) ++ h.opened }
  declared := g.declared.map (fun d => (h.next + d.1, d.2)) ++ h.declared

theorem inside_empty (h : ScopeHistory) : h.inside {} = h := by
  simp [inside]

theorem step_inside_push : (h.inside g).step .push = h.inside (g.step .push) := by
  simp [inside, step, Nat.add_assoc]

/-- A step inside of a class of `g` is a step of `g`. -/
theorem step_inside (op : ScopeOp) (hg : g.opened ≠ []) :
    (h.inside g).step op = h.inside (g.step op) := by
  obtain ⟨c, rest, hopened⟩ := List.exists_cons_of_ne_nil hg
  cases op with
  | push => exact step_inside_push
  | pop => simp [inside, step, hopened]
  | declare name kind => simp [inside, step, hopened]
  | reference name position => simp [inside, step, hopened]

/-- A body leaves its classes open, and is the same inside of another history. -/
theorem foldl_inside {body : List ScopeOp} (hbody : ScopeOp.IsBody body) (hg : g.opened ≠ []) :
    body.foldl step (h.inside g) = h.inside (body.foldl step g) ∧
      (body.foldl step g).opened = g.opened := by
  induction hbody generalizing g with
  | nil => exact ⟨rfl, rfl⟩
  | declare name kind _ ih =>
    have hopened : (g.step (.declare name kind)).opened = g.opened := by
      simp only [step]
      split <;> rfl
    rw [List.foldl_cons, List.foldl_cons, step_inside _ hg, ← hopened]
    exact ih (by rwa [hopened])
  | reference name position _ ih =>
    have hopened : (g.step (.reference name position)).opened = g.opened := by
      simp only [step]
      split <;> rfl
    rw [List.foldl_cons, List.foldl_cons, step_inside _ hg, ← hopened]
    exact ih (by rwa [hopened])
  | @nested inner ops _ _ ihinner ih =>
    have hopened : (g.step .push).opened = g.next :: g.opened := rfl
    obtain ⟨hinner, hinneropened⟩ := @ihinner (g.step .push) (by simp [hopened])
    rw [hopened] at hinneropened
    have hclosed : ((inner.foldl step (g.step .push)).step .pop).opened = g.opened := by
      change (inner.foldl step (g.step .push)).opened.tail = _
      rw [hinneropened, List.tail_cons]
    obtain ⟨hops, hopsopened⟩ := @ih ((inner.foldl step (g.step .push)).step .pop) (by rwa [hclosed])
    simp only [List.cons_append, List.foldl_cons, List.foldl_append]
    rw [step_inside_push, hinner, step_inside _ (by simp [hinneropened]), hops, hopsopened, hclosed]
    exact ⟨rfl, rfl⟩

/-- A whole class behind `h` and inside of the classes open there. -/
theorem foldl_step_of_isClass {ops : List ScopeOp} (hops : ScopeOp.IsClass ops)
    (h : ScopeHistory) : ops.foldl step h = h.inside (ofOps ops) ∧ (ofOps ops).opened = [] := by
  obtain ⟨body, hbody, rfl⟩ := hops
  obtain ⟨hinside, hopened⟩ :=
    @foldl_inside h (step {} .push) body hbody (List.cons_ne_nil 0 [])
  have hopened' : (body.foldl step (step {} .push)).opened = [0] := hopened
  have hof : ofOps (.push :: body ++ [.pop]) = (body.foldl step (step {} .push)).step .pop := by
    simp [ofOps]
  constructor
  · rw [hof, ← step_inside .pop (by simp [hopened']), ← hinside, ← step_inside_push, inside_empty]
    simp
  · rw [hof]
    change (body.foldl step (step {} .push)).opened.tail = []
    rw [hopened', List.tail_cons]

/-- The first use of the name that no class of the history declares around it. -/
def firstUndeclared (h : ScopeHistory) (name : String) : Option NameUse :=
  h.uses.find? fun u => decide (u.name = name ∧ h.Undeclared u)

section

variable {c : Nat} {rest : List Nat} {name : String}

/-- The earlier uses are awaited as before. -/
theorem Sound.awaits_inside (hs : h.Sound) (hclosed : g.opened = []) {u : NameUse}
    (hu : u ∈ h.uses) : (h.inside g).Awaits c name u ↔ h.Awaits c name u := by
  have hopened : (h.inside g).opened = h.opened := by simp [inside, hclosed]
  have hundeclared : (h.inside g).Undeclared u ↔ h.Undeclared u := by
    refine forall₂_congr fun d hd => not_congr ?_
    have hlt := hs.classes_lt u hu d hd
    have hnew (e : Nat) : h.next + e ≠ d := by omega
    simp [inside, hnew]
  simp only [Awaits, Home, hundeclared, hopened]

/-- A use inside of the innermost open class is awaited there exactly if no class declares it. -/
theorem Sound.awaits_inside_shifted (hs : h.Sound) (hopened : h.opened = c :: rest)
    (hclosed : g.opened = []) (u : NameUse) :
    (h.inside g).Awaits c name { u with classes := u.classes.map (h.next + ·) ++ h.opened } ↔
      (∀ d ∈ h.opened, (d, name) ∉ h.declared) ∧ u.name = name ∧ g.Undeclared u := by
  have hopened' : (h.inside g).opened = h.opened := by simp [inside, hclosed]
  have hsorted := hs.opened_sorted
  rw [hopened] at hsorted
  have hhome : (h.inside g).Home
      { u with classes := u.classes.map (h.next + ·) ++ h.opened } c := by
    refine ⟨by simp [hopened], by simp [hopened', hopened], fun d _ hd => ?_⟩
    rw [hopened', hopened] at hd
    rcases List.mem_cons.mp hd with rfl | hd
    · exact Nat.le_refl _
    · exact Nat.le_of_lt ((List.pairwise_cons.mp hsorted).1 d hd)
  have hinner (d : Nat) : (h.next + d, u.name) ∈ (h.inside g).declared ↔ (d, u.name) ∈ g.declared := by
    have hold : (h.next + d, u.name) ∉ h.declared := fun hmem => by
      have hlt := hs.declared_lt _ _ hmem
      omega
    simp [inside, hold]
  have houter (d : Nat) (hd : d ∈ h.opened) :
      (d, u.name) ∈ (h.inside g).declared ↔ (d, u.name) ∈ h.declared := by
    have hlt := hs.opened_lt d hd
    have hnew (e : Nat) : h.next + e ≠ d := by omega
    simp [inside, hnew]
  have hundeclared : (h.inside g).Undeclared
      { u with classes := u.classes.map (h.next + ·) ++ h.opened } ↔
        g.Undeclared u ∧ ∀ d ∈ h.opened, (d, u.name) ∉ h.declared := by
    simp only [Undeclared, List.forall_mem_append, List.forall_mem_map, hinner]
    exact and_congr_right fun _ => forall₂_congr fun d hd => not_congr (houter d hd)
  simp only [Awaits, hundeclared]
  constructor
  · rintro ⟨rfl, ⟨hg, hh⟩, -⟩
    exact ⟨hh, rfl, hg⟩
  · rintro ⟨hh, rfl, hg⟩
    exact ⟨rfl, ⟨hg, hh⟩, hhome⟩

/-- Behind a class the innermost open one awaits what it did before, and else the first use inside
that neither a class inside nor one around declares. -/
theorem Sound.firstIn_inside (hs : h.Sound) (hopened : h.opened = c :: rest)
    (hclosed : g.opened = []) (position : Position) :
    (∃ u, (h.inside g).firstIn c name = some u ∧ u.position = position) ↔
      (∃ u, h.firstIn c name = some u ∧ u.position = position) ∨
        h.firstIn c name = none ∧ (∀ d ∈ h.opened, (d, name) ∉ h.declared) ∧
          ∃ u, g.firstUndeclared name = some u ∧ u.position = position := by
  have hearlier : h.uses.find? (fun u => decide ((h.inside g).Awaits c name u)) =
      h.firstIn c name :=
    find?_congr fun u hu => decide_eq_decide.mpr (hs.awaits_inside hclosed hu)
  have huses : (h.inside g).firstIn c name = (h.firstIn c name).or
      ((g.uses.find? fun u => decide ((∀ d ∈ h.opened, (d, name) ∉ h.declared) ∧
        u.name = name ∧ g.Undeclared u)).map fun u =>
          { u with classes := u.classes.map (h.next + ·) ++ h.opened }) := by
    rw [firstIn, show (h.inside g).uses = h.uses ++ g.uses.map _ from rfl, List.find?_append,
      hearlier, List.find?_map]
    congr 2
    exact find?_congr fun u _ =>
      decide_eq_decide.mpr (hs.awaits_inside_shifted hopened hclosed u)
  rw [huses]
  cases h.firstIn c name with
  | some u => simp
  | none =>
    by_cases hfree : ∀ d ∈ h.opened, (d, name) ∉ h.declared
    · have hused : (g.uses.find? fun u => decide ((∀ d ∈ h.opened, (d, name) ∉ h.declared) ∧
          u.name = name ∧ g.Undeclared u)) = g.firstUndeclared name :=
        find?_congr fun u _ => decide_eq_decide.mpr (and_iff_right hfree)
      rw [hused, and_iff_right hfree]
      simp
    · have hnone : (g.uses.find? fun u => decide ((∀ d ∈ h.opened, (d, name) ∉ h.declared) ∧
          u.name = name ∧ g.Undeclared u)) = none :=
        List.find?_eq_none.mpr fun u _ => by simp [hfree]
      rw [hnone]
      simp [hfree]

end

end ScopeHistory

namespace ClassScopes

open ClassScope

/-- The scopes at any time are those of a history. -/
theorem Reachable.exists_history {s : ClassScopes} (h : s.Reachable) :
    ∃ history : ScopeHistory, history.Sound ∧ history.Tracks s := by
  induction h with
  | start => exact ⟨{}, .initial, .initial⟩
  | step op _ ih =>
    obtain ⟨history, hs, ht⟩ := ih
    exact ⟨history.step op, hs.step op, ht.step hs op⟩
  | clear => exact ⟨{}, .initial, .initial⟩
  | shuffled _ hshuffled ih =>
    obtain ⟨history, hs, ht⟩ := ih
    exact ⟨history, hs, ht.shuffled hshuffled⟩

theorem Reachable.path {s t : ClassScopes} {ops : List ScopeOp} (h : s.Reachable)
    (hpath : ScopePath ops s t) : t.Reachable := by
  induction hpath with
  | nil hshuffled => exact h.shuffled hshuffled
  | cons hshuffled _ ih => exact ih ((h.shuffled hshuffled).step _)

/-- A class that is opened and closed inside of others leaves all their scopes as they are, but for
what is pending in the innermost of them. There every entry stays, and a name is added exactly if
it was not pending, no open scope binds it, and it is used inside with no declaration in the classes
of the inside around the use; its position is that of the first such use. The order in which the
tables are visited makes no difference. -/
theorem class_adds_pending {s : ClassScopes} {top : ClassScope} {outer : List ClassScope}
    {ops : List ScopeOp} (h : s.Reachable) (hscopes : s.scopes = top :: outer)
    (hops : ScopeOp.IsClass ops) :
    (∀ t, ScopePath ops s t → t.depth = s.depth ∧ ∃ top' outer', t.scopes = top' :: outer' ∧
      List.Forall₂ SameEntries outer outer' ∧ top'.parent = top.parent ∧
        top'.bound.Perm top.bound ∧ (names top'.pending).Nodup ∧
          ∀ name position, (name, position) ∈ top'.pending ↔
            (name, position) ∈ top.pending ∨
              name ∉ names top.pending ∧ (∀ scope ∈ s.scopes, name ∉ names scope.bound) ∧
                ∃ u, (ScopeHistory.ofOps ops).firstUndeclared name = some u ∧
                  u.position = position) ∧
    ScopePath ops s (ScopeOp.runAll ops s).2 := by
  refine ⟨fun t hpath => ?_, .runAll ops s⟩
  obtain ⟨top', outer', ht, hparent, hbound, houter⟩ : ∃ top' outer', t.scopes = top' :: outer' ∧
      top'.parent = top.parent ∧ top'.bound.Perm top.bound ∧
        List.Forall₂ SameEntries outer outer' := by
    obtain ⟨body, hbody, rfl⟩ := hops
    exact ScopePath.of_class (ScopePath.sparesAround_of_isBody hbody) hpath hscopes
  have hdepth : t.depth = s.depth := by
    simp only [depth, ht, hscopes, List.length_cons, houter.length_eq]
  have hdistinct := ((h.path hpath).coherent.distinct top' (by simp [ht])).pending
  refine ⟨hdepth, top', outer', ht, houter, hparent, hbound, hdistinct, fun name position => ?_⟩
  obtain ⟨history, hsound, htracks⟩ := h.exists_history
  have hbehind := hpath.tracks hsound htracks
  obtain ⟨hinside, hclosed⟩ := ScopeHistory.foldl_step_of_isClass hops history
  rw [hinside] at hbehind
  have hopened := htracks.scopes
  rw [hscopes] at hopened
  obtain ⟨c, rest, htop, -, hc⟩ := List.forall₂_cons_right_iff.mp hopened
  have hopened' := hbehind.scopes
  rw [ht, show (history.inside (ScopeHistory.ofOps ops)).opened = history.opened by
    simp [ScopeHistory.inside, hclosed], hc] at hopened'
  obtain ⟨htop', -⟩ := List.forall₂_cons.mp hopened'
  have hunbound : (∀ scope ∈ s.scopes, name ∉ names scope.bound) ↔
      ∀ d ∈ history.opened, (d, name) ∉ history.declared := by
    have hlookup := @ScopeHistory.Tracks.lookup_iff history s htracks name
    rw [isSome_lookup_iff htracks.linked] at hlookup
    simpa using not_congr hlookup
  rw [htop'.pending, hsound.firstIn_inside hc hclosed, htop.pending, htop.not_mem_pending_iff,
    hunbound]

/-- In a class that declares `a` and awaits `b`, a class that uses `a`, `b` and `c`, and with a class
inside that uses `c` and, without a declaration of its own, `d`, which the class around it declares
at its end: only `c` is added, at its first use. -/
theorem class_adds_pending_of_shadowed :
    let s : ClassScopes := ⟨[⟨none, [("a", .field)], [("b", ⟨1, 4, 4⟩)]⟩]⟩
    let ops : List ScopeOp := [.push, .reference "a" ⟨1, 6, 6⟩, .reference "b" ⟨1, 8, 8⟩, .push,
      .reference "c" ⟨1, 10, 10⟩, .reference "d" ⟨1, 12, 12⟩, .pop, .reference "c" ⟨1, 14, 14⟩,
      .declare "d" .method, .pop]
    s.Reachable ∧ ScopeOp.IsClass ops ∧
      ∀ t, ScopePath ops s t → ∃ top', t.scopes = [top'] ∧ (names top'.pending).Nodup ∧
        ∀ name position, (name, position) ∈ top'.pending ↔
          (name, position) = ("b", ⟨1, 4, 4⟩) ∨ (name, position) = ("c", ⟨1, 10, 10⟩) := by
  intro s ops
  have hstate : (ScopeOp.runAll [.push, .declare "a" .field, .reference "b" ⟨1, 4, 4⟩] {}).2 = s := by
    decide +kernel
  have hreachable : s.Reachable := hstate ▸ Reachable.start.runAll _
  have hops : ScopeOp.IsClass ops := by
    refine ⟨[.reference "a" ⟨1, 6, 6⟩, .reference "b" ⟨1, 8, 8⟩, .push,
      .reference "c" ⟨1, 10, 10⟩, .reference "d" ⟨1, 12, 12⟩, .pop, .reference "c" ⟨1, 14, 14⟩,
      .declare "d" .method], ?_, rfl⟩
    refine .reference _ _ (.reference _ _ ?_)
    exact @ScopeOp.IsBody.nested [.reference "c" ⟨1, 10, 10⟩, .reference "d" ⟨1, 12, 12⟩] _
      (.reference _ _ (.reference _ _ .nil)) (.reference _ _ (.declare _ _ .nil))
  refine ⟨hreachable, hops, fun t hpath => ?_⟩
  obtain ⟨-, top', outer', ht, houter, -, -, hdistinct, hpending⟩ :=
    (class_adds_pending hreachable rfl hops).1 t hpath
  rw [List.forall₂_nil_left_iff] at houter
  refine ⟨top', by rw [ht, houter], hdistinct, fun name position => ?_⟩
  rw [hpending]
  have hfirst : (ScopeHistory.ofOps ops).firstUndeclared "c" = some ⟨"c", ⟨1, 10, 10⟩, [1, 0]⟩ := rfl
  have hother : name ≠ "a" → name ≠ "b" → name ≠ "c" →
      (ScopeHistory.ofOps ops).firstUndeclared name = none := by
    intro ha hb hc
    have hknown : ∀ u ∈ (ScopeHistory.ofOps ops).uses, u.name = "a" ∨ u.name = "b" ∨ u.name = "c" ∨
        ¬ (ScopeHistory.ofOps ops).Undeclared u := by decide +kernel
    refine List.find?_eq_none.mpr fun u hu => ?_
    have hu := hknown u hu
    grind
  by_cases hc : name = "c"
  · subst hc
    simp [hfirst, s, eq_comm]
  · by_cases ha : name = "a" <;> by_cases hb : name = "b" <;> simp_all [s]

end ClassScopes

end EcmaScript
