import EcmaScript.Proofs.ClassScope.Resolution
import Mathlib.Data.List.Nodup

/-!
What holds of class scopes at any time.

Whatever has been done to the scopes, whether it succeeded or not, every scope is linked to the one
around it, each table holds a name at most once, and no name is pending in a scope that is bound in
it or in a scope around it. So the search for a name, which follows the links, stays among the open
scopes, visits each of them at most once, and ends at the innermost scope that binds the name.
-/

namespace EcmaScript

namespace ClassScope

variable {α : Type}

/-! ## Tables -/

theorem nodup_names_put {entries : List (String × α)} (h : (names entries).Nodup) (name : String)
    (value : α) : (names (put entries name value)).Nodup := by
  induction entries with
  | nil => simp [put]
  | cons entry entries ih =>
    obtain ⟨hfirst, hrest⟩ := List.nodup_cons.mp h
    rw [put]
    split
    · next hentry =>
      rw [beq_iff_eq] at hentry
      rw [names_cons, ← hentry]
      exact List.nodup_cons.mpr ⟨hfirst, hrest⟩
    · next hentry =>
      refine List.nodup_cons.mpr ⟨fun hmem => ?_, ih hrest⟩
      rcases mem_names_put.mp hmem with heq | hmem
      · exact hentry (beq_iff_eq.mpr heq)
      · exact hfirst hmem

theorem nodup_names_putNew {entries : List (String × α)} (h : (names entries).Nodup) (name : String)
    (value : α) : (names (putNew entries name value)).Nodup := by
  rw [putNew]
  split
  · exact h
  · next hnew =>
    have hname : name ∉ names entries := mt isSome_lookup_iff.mpr hnew
    rw [names, List.map_append, List.map_singleton]
    exact h.append (List.nodup_singleton name) (List.disjoint_singleton.mpr hname)

theorem nodup_names_remove {entries : List (String × α)} (h : (names entries).Nodup)
    (name : String) : (names (remove entries name)).Nodup :=
  h.sublist (List.filter_sublist.map _)

theorem nodup_pending_inherit {scope : ClassScope} (h : (names scope.pending).Nodup)
    (inner : ClassScope) : (names (scope.inherit inner).pending).Nodup := by
  obtain ⟨parent, bound, pending⟩ := inner
  induction pending generalizing scope with
  | nil => exact h
  | cons entry entries ih =>
    rw [inherit_cons]
    exact ih (nodup_names_putNew h _ _)

/-- No name is pending in the inner scope that the other one binds. -/
def UnsettledBy (inner scope : ClassScope) : Prop :=
  ∀ name ∈ names inner.pending, name ∉ names scope.bound

/-- Each table holds a name at most once. -/
structure Distinct (scope : ClassScope) : Prop where
  bound : (names scope.bound).Nodup
  pending : (names scope.pending).Nodup

end ClassScope

namespace ClassScopes

open ClassScope

variable {s t : ClassScopes}

/-! ## Reachable scopes -/

/-- The scopes may come about by operations from no scope on, where the order of every table may
change at any time. -/
inductive Reachable : ClassScopes → Prop where
  | start : Reachable {}
  | step {s : ClassScopes} (op : ScopeOp) (h : Reachable s) : Reachable (op.run s).2
  | clear {s : ClassScopes} (h : Reachable s) : Reachable s.clear
  | shuffled {s t : ClassScopes} (h : Reachable s) (hshuffled : s.Shuffled t) : Reachable t

/-- The scopes behind operations in a row. -/
theorem Reachable.runAll (h : s.Reachable) (ops : List ScopeOp) :
    (ScopeOp.runAll ops s).2.Reachable := by
  induction ops generalizing s with
  | nil => exact h
  | cons op ops ih => exact ih (h.step op)

/-- What every operation keeps: the links, and that what is pending in a scope is bound neither
there nor around it. -/
structure Coherent (s : ClassScopes) : Prop where
  linked : Linked s.scopes
  distinct : ∀ scope ∈ s.scopes, scope.Distinct
  unsettled : ∀ scope ∈ s.scopes, scope.UnsettledBy scope
  unsettledOutside : s.scopes.Pairwise UnsettledBy

namespace Coherent

theorem empty : Coherent {} := ⟨trivial, nofun, nofun, .nil⟩

theorem push (h : s.Coherent) : s.push.Coherent where
  linked := ⟨rfl, h.linked⟩
  distinct := List.forall_mem_cons.mpr ⟨⟨List.nodup_nil, List.nodup_nil⟩, h.distinct⟩
  unsettled := List.forall_mem_cons.mpr ⟨nofun, h.unsettled⟩
  unsettledOutside := List.pairwise_cons.mpr ⟨nofun, h.unsettledOutside⟩

/-- A scope in place of the innermost one, with the same link. -/
theorem replace {scope : ClassScope} {outer : List ClassScope} (h : Coherent ⟨scope :: outer⟩)
    {scope' : ClassScope} (hparent : scope'.parent = scope.parent) (hdistinct : scope'.Distinct)
    (hunsettled : ∀ around ∈ scope' :: outer, scope'.UnsettledBy around) :
    Coherent ⟨scope' :: outer⟩ := by
  obtain ⟨hown, houtside⟩ := List.forall_mem_cons.mp hunsettled
  exact {
    linked := ⟨hparent.trans h.linked.1, h.linked.2⟩
    distinct := List.forall_mem_cons.mpr ⟨hdistinct, (List.forall_mem_cons.mp h.distinct).2⟩
    unsettled := List.forall_mem_cons.mpr ⟨hown, (List.forall_mem_cons.mp h.unsettled).2⟩
    unsettledOutside :=
      List.pairwise_cons.mpr ⟨houtside, (List.pairwise_cons.mp h.unsettledOutside).2⟩ }

/-- The scopes around the innermost one. -/
theorem tail {scope : ClassScope} {outer : List ClassScope} (h : Coherent ⟨scope :: outer⟩) :
    Coherent ⟨outer⟩ where
  linked := h.linked.2
  distinct := (List.forall_mem_cons.mp h.distinct).2
  unsettled := (List.forall_mem_cons.mp h.unsettled).2
  unsettledOutside := (List.pairwise_cons.mp h.unsettledOutside).2

/-- What is pending in the innermost scope is bound in no scope. -/
theorem unsettled_cons {scope : ClassScope} {outer : List ClassScope}
    (h : Coherent ⟨scope :: outer⟩) : ∀ around ∈ scope :: outer, scope.UnsettledBy around :=
  List.forall_mem_cons.mpr
    ⟨h.unsettled scope List.mem_cons_self, (List.pairwise_cons.mp h.unsettledOutside).1⟩

/-- What moves outward is bound neither in the enclosing scope nor around it. -/
theorem pop (h : s.Coherent) : (ScopeOp.pop.run s).2.Coherent := by
  obtain ⟨scopes⟩ := s
  rcases scopes with _ | ⟨inner, _ | ⟨outer, others⟩⟩
  · exact h
  · have hstate : (ScopeOp.pop.run ⟨[inner]⟩).2 = ⟨[]⟩ := by
      simp only [ScopeOp.run, ClassScopes.pop]
      cases earliest? (inner.pending.map (·.2)) <;> rfl
    rw [hstate]
    exact .empty
  · have houter := h.tail
    obtain ⟨hbound, hpending⟩ := houter.distinct outer List.mem_cons_self
    refine houter.replace (inherit_parent outer inner) ⟨?_, nodup_pending_inherit hpending inner⟩ ?_
    · rwa [inherit_bound]
    · have hbinds : ∀ around ∈ outer.inherit inner :: others, ∃ scope ∈ outer :: others,
          scope.bound = around.bound := by
        rintro around (_ | ⟨_, haround⟩)
        · exact ⟨outer, List.mem_cons_self, (inherit_bound outer inner).symm⟩
        · exact ⟨around, List.mem_cons_of_mem _ haround, rfl⟩
      intro around haround name hname
      obtain ⟨scope, hscope, hsame⟩ := hbinds around haround
      rw [← hsame]
      rcases mem_names_inherit.mp hname with hname | hname
      · exact houter.unsettled_cons scope hscope name hname
      · exact h.unsettled_cons scope (List.mem_cons_of_mem _ hscope) name hname

/-- A declaration settles what is pending of its name in its scope. -/
theorem declare (h : s.Coherent) (name : String) (kind : MemberKind) :
    ((ScopeOp.declare name kind).run s).2.Coherent := by
  obtain ⟨scopes⟩ := s
  rcases scopes with _ | ⟨scope, outer⟩
  · exact h
  simp only [ScopeOp.run, ClassScopes.declare]
  cases scope.declared? name kind with
  | none => exact h
  | some binding =>
    obtain ⟨hbound, hpending⟩ := h.distinct scope List.mem_cons_self
    refine h.replace rfl ⟨nodup_names_put hbound _ _, nodup_names_remove hpending _⟩ ?_
    intro around haround other hother
    obtain ⟨hother, hne⟩ := mem_names_remove.mp hother
    rcases List.mem_cons.mp haround with rfl | haround
    · exact fun hmem => (mem_names_put.mp hmem).elim hne
        (h.unsettled scope List.mem_cons_self other hother)
    · exact h.unsettled_cons around (List.mem_cons_of_mem _ haround) other hother

/-- A use is pending only if no scope binds its name. -/
theorem reference (h : s.Coherent) (name : String) (position : Position) :
    ((ScopeOp.reference name position).run s).2.Coherent := by
  have hlookup := @isSome_lookup_iff s h.linked name
  obtain ⟨scopes⟩ := s
  simp only [ScopeOp.run, ClassScopes.reference]
  split
  · exact h
  next hunbound =>
  rcases scopes with _ | ⟨scope, outer⟩
  · exact h
  obtain ⟨hbound, hpending⟩ := h.distinct scope List.mem_cons_self
  refine h.replace rfl ⟨hbound, nodup_names_putNew hpending _ _⟩ ?_
  have hnew : ∀ around ∈ scope.await name position :: outer, name ∉ names around.bound := by
    intro around haround hmem
    rw [hlookup] at hunbound
    rcases List.mem_cons.mp haround with rfl | haround
    · exact hunbound ⟨scope, List.mem_cons_self, hmem⟩
    · exact hunbound ⟨around, List.mem_cons_of_mem _ haround, hmem⟩
  intro around haround other hother
  rcases mem_names_putNew.mp hother with hother | rfl
  · rcases List.mem_cons.mp haround with rfl | haround
    · exact h.unsettled scope List.mem_cons_self other hother
    · exact h.unsettled_cons around (List.mem_cons_of_mem _ haround) other hother
  · exact hnew around haround

/-- What one operation preserves. -/
theorem step (h : s.Coherent) (op : ScopeOp) : (op.run s).2.Coherent := by
  cases op with
  | push => exact h.push
  | pop => exact h.pop
  | declare name kind => exact h.declare name kind
  | reference name position => exact h.reference name position

theorem exists_mem_of_forall₂ {α β : Type} {R : α → β → Prop} {l : List α} {l' : List β}
    (h : List.Forall₂ R l l') {b : β} (hb : b ∈ l') : ∃ a ∈ l, R a b := by
  induction h with
  | nil => cases hb
  | cons hab _ ih =>
    rcases List.mem_cons.mp hb with rfl | hb
    · exact ⟨_, List.mem_cons_self, hab⟩
    · obtain ⟨a, ha, hab⟩ := ih hb
      exact ⟨a, List.mem_cons_of_mem _ ha, hab⟩

/-- The order of the tables does not matter. -/
theorem shuffled (h : s.Coherent) (hshuffled : s.Shuffled t) : t.Coherent := by
  have hnames {α : Type} {entries entries' : List (String × α)} (hperm : entries'.Perm entries)
      (name : String) : name ∈ names entries' ↔ name ∈ names entries := (hperm.map _).mem_iff
  obtain ⟨scopes⟩ := s
  obtain ⟨scopes'⟩ := t
  have hlinked := h.linked.shuffled hshuffled
  change List.Forall₂ _ scopes scopes' at hshuffled
  induction hshuffled with
  | nil => exact h
  | @cons scope scope' outer outer' hscope houter ih =>
    obtain ⟨-, hbound, hpending⟩ := hscope
    have hcoherent := ih h.tail hlinked.2
    obtain ⟨hdistinct, -⟩ := List.forall_mem_cons.mp h.distinct
    -- A scope around this one binds what its counterpart binds.
    have hbinds : ∀ around' ∈ scope' :: outer', ∃ around ∈ scope :: outer,
        ∀ name, name ∈ names around'.bound → name ∈ names around.bound := by
      rintro around' (_ | ⟨_, haround'⟩)
      · exact ⟨scope, List.mem_cons_self, fun name => (hnames hbound name).mp⟩
      · obtain ⟨around, haround, -, hsame, -⟩ := exists_mem_of_forall₂ houter haround'
        exact ⟨around, List.mem_cons_of_mem _ haround, fun name => (hnames hsame name).mp⟩
    have hunsettled : ∀ around' ∈ scope' :: outer', scope'.UnsettledBy around' := by
      intro around' haround' name hname hmem
      obtain ⟨around, haround, hsame⟩ := hbinds around' haround'
      exact h.unsettled_cons around haround name ((hnames hpending name).mp hname)
        (hsame name hmem)
    obtain ⟨hown, houtside⟩ := List.forall_mem_cons.mp hunsettled
    exact {
      linked := hlinked
      distinct := List.forall_mem_cons.mpr ⟨⟨(hbound.map _).nodup_iff.mpr hdistinct.bound,
        (hpending.map _).nodup_iff.mpr hdistinct.pending⟩, hcoherent.distinct⟩
      unsettled := List.forall_mem_cons.mpr ⟨hown, hcoherent.unsettled⟩
      unsettledOutside := List.pairwise_cons.mpr ⟨houtside, hcoherent.unsettledOutside⟩ }

end Coherent

/-- What any operations preserve. -/
theorem Reachable.coherent (h : s.Reachable) : s.Coherent := by
  induction h with
  | start => exact .empty
  | step op _ ih => exact ih.step op
  | clear => exact .empty
  | shuffled _ hshuffled ih => exact ih.shuffled hshuffled

/-! ## The search for a name -/

/-- The search for a name from a scope on, scope by scope along the links: the indices of the scopes
that it visits, each of which is open, and what it returns. -/
inductive Search (s : ClassScopes) (name : String) :
    Option Nat → List Nat → Option Binding → Prop where
  | outside : Search s name none [] none
  | found {index : Nat} {scope : ClassScope} {binding : Binding}
      (hscope : s.scope? index = some scope)
      (hbound : scope.bound.lookup name = some binding) :
      Search s name (some index) [index] (some binding)
  | outward {index : Nat} {scope : ClassScope} {visited : List Nat} {result : Option Binding}
      (hscope : s.scope? index = some scope) (hbound : scope.bound.lookup name = none)
      (hrest : Search s name scope.parent visited result) :
      Search s name (some index) (index :: visited) result

/-- From a scope on, the search ends after at most as many scopes as there are around it. -/
theorem exists_search (name : String) {inner outer : List ClassScope} (hlinked : Linked outer) :
    ∃ visited, Search ⟨inner ++ outer⟩ name (innermost? ⟨outer⟩) visited
        (outer.findSome? fun scope => scope.bound.lookup name) ∧
      visited.length ≤ outer.length := by
  induction outer generalizing inner with
  | nil => exact ⟨[], .outside, Nat.le_refl 0⟩
  | cons scope outer ih =>
    obtain ⟨hparent, hlinked⟩ := hlinked
    have hscope : scope? ⟨inner ++ scope :: outer⟩ outer.length = some scope := by
      simp [scope?]
    rw [innermost?_cons, List.findSome?_cons]
    cases hbound : scope.bound.lookup name with
    | some binding => exact ⟨[outer.length], .found hscope hbound, by simp⟩
    | none =>
      obtain ⟨visited, hsearch, hlength⟩ := @ih (inner ++ [scope]) hlinked
      rw [List.append_assoc, List.singleton_append, ← hparent] at hsearch
      exact ⟨outer.length :: visited, .outward hscope hbound hsearch, by simpa using hlength⟩

/-- The innermost scope that binds the name binds it so. -/
def BindsInnermost (s : ClassScopes) (name : String) (binding : Binding) : Prop :=
  ∃ inner scope outer, s.scopes = inner ++ scope :: outer ∧ (name, binding) ∈ scope.bound ∧
    ∀ within ∈ inner, name ∉ names within.bound

theorem Coherent.lookup_eq_some_iff (h : s.Coherent) {name : String} {binding : Binding} :
    s.lookup name = some binding ↔ s.BindsInnermost name binding := by
  have hnone (scope : ClassScope) : scope.bound.lookup name = none ↔ name ∉ names scope.bound := by
    rw [← ClassScope.isSome_lookup_iff, Bool.not_eq_true, Option.isSome_eq_false_iff,
      Option.isNone_iff_eq_none]
  have hsome (scope : ClassScope) (hscope : scope ∈ s.scopes) :
      scope.bound.lookup name = some binding ↔ (name, binding) ∈ scope.bound := by
    refine ClassScope.lookup_eq_some_iff fun other value value' hvalue hvalue' => ?_
    exact congrArg Prod.snd
      (List.inj_on_of_nodup_map (h.distinct scope hscope).bound hvalue hvalue' rfl)
  rw [lookup_eq h.linked, List.findSome?_eq_some_iff]
  constructor
  · rintro ⟨inner, scope, outer, hscopes, hbound, hinner⟩
    refine ⟨inner, scope, outer, hscopes, (hsome scope (by simp [hscopes])).mp hbound, ?_⟩
    exact fun within hwithin => (hnone within).mp (hinner within hwithin)
  · rintro ⟨inner, scope, outer, hscopes, hbound, hinner⟩
    refine ⟨inner, scope, outer, hscopes, (hsome scope (by simp [hscopes])).mpr hbound, ?_⟩
    exact fun within hwithin => (hnone within).mpr (hinner within hwithin)

/-! ## Reachable scopes -/

/-- Every scope is linked to the one around it, the outermost to none, and what is pending in a
scope is bound neither there nor in a scope around it. -/
structure WellFormed (s : ClassScopes) : Prop where
  parent_eq : ∀ index scope, s.scope? index = some scope →
    scope.parent = if index = 0 then none else some (index - 1)
  settled : ∀ index scope, s.scope? index = some scope → ∀ name ∈ names scope.pending,
    ∀ around outer, around ≤ index → s.scope? around = some outer → name ∉ names outer.bound

theorem scope?_cons {scope found : ClassScope} {outer : List ClassScope} {index : Nat}
    (h : scope? ⟨scope :: outer⟩ index = some found) :
    index = outer.length ∧ found = scope ∨
      index < outer.length ∧ scope? ⟨outer⟩ index = some found := by
  unfold scope? at h ⊢
  rw [List.reverse_cons, List.getElem?_append, List.length_reverse] at h
  split at h
  · next hlt => exact .inr ⟨hlt, h⟩
  · next hge =>
    obtain ⟨hone, hfound⟩ := List.getElem?_eq_some_iff.mp h
    rw [List.length_singleton] at hone
    rw [List.getElem_singleton] at hfound
    exact .inl ⟨by omega, hfound.symm⟩

theorem mem_of_scope? {s : ClassScopes} {index : Nat} {scope : ClassScope}
    (h : s.scope? index = some scope) : scope ∈ s.scopes :=
  List.mem_reverse.mp (List.mem_of_getElem? h)

theorem Coherent.wellFormed (h : s.Coherent) : s.WellFormed := by
  obtain ⟨scopes⟩ := s
  induction scopes with
  | nil => exact ⟨nofun, nofun⟩
  | cons innermost outer ih =>
    obtain ⟨hparent, hsettled⟩ := ih h.tail
    constructor
    · intro index scope hscope
      rcases scope?_cons hscope with ⟨rfl, rfl⟩ | ⟨-, hscope⟩
      · exact h.linked.1
      · exact hparent index scope hscope
    · intro index scope hscope name hname around outside hle houtside
      rcases scope?_cons hscope with ⟨rfl, rfl⟩ | ⟨hlt, hscope⟩
      · exact h.unsettled_cons outside (mem_of_scope? houtside) name hname
      · rcases scope?_cons houtside with ⟨rfl, -⟩ | ⟨-, houtside⟩
        · omega
        · exact hsettled index scope hscope name hname around outside hle houtside

/-- At any time the scopes are well formed. The search for a name stays among the open scopes, visits
at most as many scopes as are open, and returns how the innermost scope that binds the name binds
it. A declaration that fails changes nothing. -/
theorem wellFormed_of_reachable (h : s.Reachable) :
    s.WellFormed ∧
      (∀ name, (∃ visited, s.Search name s.innermost? visited (s.lookup name) ∧
          visited.length ≤ s.depth) ∧
        ∀ binding, s.lookup name = some binding ↔ s.BindsInnermost name binding) ∧
      ∀ name kind violation t, declare name kind s = .error violation t → t = s := by
  have hcoherent := h.coherent
  refine ⟨hcoherent.wellFormed, fun name => ⟨?_, fun binding => hcoherent.lookup_eq_some_iff⟩, ?_⟩
  · obtain ⟨visited, hsearch, hlength⟩ := @exists_search name [] s.scopes hcoherent.linked
    rw [← lookup_eq hcoherent.linked] at hsearch
    exact ⟨visited, hsearch, hlength⟩
  · intro name kind violation t hfails
    unfold declare at hfails
    split at hfails
    · cases hfails
    · split at hfails <;> cases hfails
      rfl

/-- A class that declares `a`, and one inside that uses `b` and declares `a` as well: there another
declaration of `a` fails. -/
theorem wellFormed_of_reachable_shadowed :
    let s : ClassScopes := ⟨[⟨some 0, [("a", .field)], [("b", ⟨1, 9, 9⟩)]⟩,
      ⟨none, [("a", .get)], []⟩]⟩
    s.Reachable ∧ s.WellFormed ∧ s.lookup "a" = some .field ∧ s.BindsInnermost "a" .field ∧
      declare "a" .method s = .error .duplicate s := by
  intro s
  have hstate : (ScopeOp.runAll [.push, .declare "a" .get, .push, .reference "b" ⟨1, 9, 9⟩,
      .declare "a" .field, .declare "a" .set] {}).2 = s := by decide +kernel
  have hreachable : s.Reachable := hstate ▸ Reachable.start.runAll _
  obtain ⟨hwellFormed, hlookup, -⟩ := wellFormed_of_reachable hreachable
  have hfound : s.lookup "a" = some .field := by decide +kernel
  exact ⟨hreachable, hwellFormed, hfound, ((hlookup "a").2 .field).mp hfound, by rfl⟩

end ClassScopes

end EcmaScript
