import EcmaScript.ClassScope

/-!
What the tables of class scopes hold.

A table is used as a finite map, so every operation is described by which entries, or which names,
its result holds, whatever their order. A lookup through the links of well-linked scopes finds a
name exactly if one of the scopes binds it.
-/

namespace EcmaScript

namespace ClassScope

variable {α : Type}

/-- The names that a table has entries for. -/
def names (entries : List (String × α)) : List String := entries.map (·.1)

@[simp] theorem names_nil : names ([] : List (String × α)) = [] := rfl

@[simp] theorem names_cons (entry : String × α) (entries : List (String × α)) :
    names (entry :: entries) = entry.1 :: names entries := rfl

theorem mem_names_iff {entries : List (String × α)} {name : String} :
    name ∈ names entries ↔ ∃ value, (name, value) ∈ entries := by
  simp [names]

theorem isSome_lookup_iff {entries : List (String × α)} {name : String} :
    (entries.lookup name).isSome = true ↔ name ∈ names entries := by
  induction entries with
  | nil => simp
  | cons entry entries ih =>
    rw [List.lookup_cons, names_cons, List.mem_cons]
    by_cases h : name = entry.1
    · simp [h]
    · simp only [beq_eq_false_iff_ne.mpr h, h, false_or, ih]

@[simp] theorem mem_names_put {entries : List (String × α)} {name other : String} {value : α} :
    other ∈ names (put entries name value) ↔ other = name ∨ other ∈ names entries := by
  induction entries with
  | nil => simp [put]
  | cons entry entries ih =>
    rw [put]
    split
    · next h =>
      rw [beq_iff_eq] at h
      simp [h]
    · simp only [names_cons, List.mem_cons, ih]
      exact or_left_comm

theorem lookup_put {entries : List (String × α)} {name other : String} {value : α} :
    (put entries name value).lookup other =
      if other = name then some value else entries.lookup other := by
  induction entries with
  | nil =>
    rw [put, List.lookup_cons, List.lookup_nil]
    by_cases h : other = name
    · simp [h]
    · simp [h, beq_eq_false_iff_ne.mpr h]
  | cons entry entries ih =>
    rw [put]
    split
    · next hentry =>
      rw [beq_iff_eq] at hentry
      rw [List.lookup_cons, List.lookup_cons, hentry]
      by_cases h : other = name
      · simp [h]
      · simp [h, beq_eq_false_iff_ne.mpr h]
    · next hentry =>
      rw [List.lookup_cons, List.lookup_cons, ih]
      by_cases h : other = entry.1
      · have hne : entry.1 ≠ name := by simpa using hentry
        simp [h, hne]
      · simp [beq_eq_false_iff_ne.mpr h]

@[simp] theorem mem_putNew {entries : List (String × α)} {name : String} {value : α}
    {entry : String × α} :
    entry ∈ putNew entries name value ↔
      entry ∈ entries ∨ name ∉ names entries ∧ entry = (name, value) := by
  rw [putNew]
  split
  · next h => simp [isSome_lookup_iff.mp h]
  · next h => simp [mt isSome_lookup_iff.mpr h]

@[simp] theorem mem_names_putNew {entries : List (String × α)} {name other : String} {value : α} :
    other ∈ names (putNew entries name value) ↔ other ∈ names entries ∨ other = name := by
  rw [putNew]
  split
  · next h =>
    have hmem := isSome_lookup_iff.mp h
    constructor
    · exact .inl
    · rintro (h | rfl)
      · exact h
      · exact hmem
  · simp [names]

@[simp] theorem mem_remove {entries : List (String × α)} {name : String} {entry : String × α} :
    entry ∈ remove entries name ↔ entry ∈ entries ∧ entry.1 ≠ name := by
  simp [remove]

@[simp] theorem mem_names_remove {entries : List (String × α)} {name other : String} :
    other ∈ names (remove entries name) ↔ other ∈ names entries ∧ other ≠ name := by
  simp [mem_names_iff]

/-! ## Inheriting -/

theorem inherit_cons (scope : ClassScope) (parent : Option Nat) (bound : List (String × Binding))
    (entry : String × Position) (entries : List (String × Position)) :
    scope.inherit ⟨parent, bound, entry :: entries⟩ =
      (scope.await entry.1 entry.2).inherit ⟨parent, bound, entries⟩ := rfl

@[simp] theorem inherit_parent (scope inner : ClassScope) :
    (scope.inherit inner).parent = scope.parent := by
  obtain ⟨parent, bound, pending⟩ := inner
  induction pending generalizing scope with
  | nil => rfl
  | cons entry entries ih => rw [inherit_cons, ih]; rfl

@[simp] theorem inherit_bound (scope inner : ClassScope) :
    (scope.inherit inner).bound = scope.bound := by
  obtain ⟨parent, bound, pending⟩ := inner
  induction pending generalizing scope with
  | nil => rfl
  | cons entry entries ih => rw [inherit_cons, ih]; rfl

/-- Entries of the outer scope win over those of the inner one, and there the first one wins. -/
theorem mem_pending_inherit {scope inner : ClassScope} {name : String} {position : Position} :
    (name, position) ∈ (scope.inherit inner).pending ↔
      (name, position) ∈ scope.pending ∨
        name ∉ names scope.pending ∧ inner.pending.lookup name = some position := by
  obtain ⟨parent, bound, pending⟩ := inner
  induction pending generalizing scope with
  | nil => simp [inherit]
  | cons entry entries ih =>
    obtain ⟨first, value⟩ := entry
    rw [inherit_cons, ih]
    simp only [await, mem_putNew, mem_names_putNew, Prod.mk.injEq, List.lookup_cons]
    by_cases hname : name = first
    · subst hname
      simp only [beq_self_eq_true, Option.some.injEq]
      grind
    · simp only [beq_eq_false_iff_ne.mpr hname]
      grind

/-- A table that holds each name at most once is looked up by membership. -/
theorem lookup_eq_some_iff {entries : List (String × α)}
    (hunique : ∀ name value value', (name, value) ∈ entries → (name, value') ∈ entries →
      value = value') {name : String} {value : α} :
    entries.lookup name = some value ↔ (name, value) ∈ entries := by
  induction entries with
  | nil => simp
  | cons entry entries ih =>
    obtain ⟨first, firstValue⟩ := entry
    have ih := ih fun name value value' h h' =>
      hunique name value value' (List.mem_cons_of_mem _ h) (List.mem_cons_of_mem _ h')
    rw [List.lookup_cons]
    by_cases hname : name = first
    · subst hname
      simp only [beq_self_eq_true, Option.some.injEq, List.mem_cons, Prod.mk.injEq, true_and]
      constructor
      · exact fun h => .inl h.symm
      · rintro (h | h)
        · exact h.symm
        · exact hunique name _ _ List.mem_cons_self (List.mem_cons_of_mem _ h)
    · simp only [beq_eq_false_iff_ne.mpr hname, ih, List.mem_cons, Prod.mk.injEq, hname, false_and,
        false_or]

@[simp] theorem mem_names_inherit {scope inner : ClassScope} {name : String} :
    name ∈ names (scope.inherit inner).pending ↔
      name ∈ names scope.pending ∨ name ∈ names inner.pending := by
  obtain ⟨parent, bound, pending⟩ := inner
  induction pending generalizing scope with
  | nil => simp [inherit]
  | cons entry entries ih =>
    rw [inherit_cons, ih]
    simp only [await, mem_names_putNew, names_cons, List.mem_cons]
    exact or_assoc

/-! ## The earliest position -/

theorem earliest?_eq_none_iff {positions : List Position} :
    earliest? positions = none ↔ positions = [] := by
  cases positions with
  | nil => simp [earliest?]
  | cons p others =>
    rw [earliest?]
    cases earliest? others with
    | none => simp
    | some q => by_cases h : q.offset < p.offset <;> simp [h]

/-- The earliest position is one of them, and none has a smaller offset. -/
theorem earliest?_spec {positions : List Position} {p : Position}
    (h : earliest? positions = some p) : p ∈ positions ∧ ∀ q ∈ positions, p.offset ≤ q.offset := by
  induction positions generalizing p with
  | nil => cases h
  | cons first others ih =>
    rw [earliest?] at h
    cases hothers : earliest? others with
    | none =>
      rw [hothers] at h
      cases h
      rw [earliest?_eq_none_iff.mp hothers]
      simp
    | some q =>
      obtain ⟨hmem, hleast⟩ := ih hothers
      rw [hothers] at h
      simp only at h
      split at h
      · next hlt =>
        cases h
        refine ⟨List.mem_cons_of_mem _ hmem, ?_⟩
        simp only [List.mem_cons, forall_eq_or_imp]
        exact ⟨Nat.le_of_lt hlt, hleast⟩
      · next hle =>
        cases h
        refine ⟨List.mem_cons_self, ?_⟩
        simp only [List.mem_cons, forall_eq_or_imp]
        exact ⟨Nat.le_refl _, fun r hr => Nat.le_trans (Nat.le_of_not_lt hle) (hleast r hr)⟩

end ClassScope

namespace ClassScopes

/-! ## Links -/

def Linked : List ClassScope → Prop
  | [] => True
  | scope :: outer => scope.parent = innermost? ⟨outer⟩ ∧ Linked outer

theorem innermost?_cons (scope : ClassScope) (outer : List ClassScope) :
    innermost? ⟨scope :: outer⟩ = some outer.length := by
  simp [innermost?, depth]

/-- From a scope on, the search visits the scopes around it. -/
theorem lookupFrom_eq (name : String) {inner outer : List ClassScope} {steps : Nat}
    (hsteps : outer.length ≤ steps) (hlinked : Linked outer) :
    lookupFrom ⟨inner ++ outer⟩ name steps (innermost? ⟨outer⟩) =
      outer.findSome? fun scope => scope.bound.lookup name := by
  induction outer generalizing inner steps with
  | nil => cases steps <;> rfl
  | cons scope outer ih =>
    obtain ⟨hparent, hlinked⟩ := hlinked
    cases steps with
    | zero => simp at hsteps
    | succ steps =>
      have hscope : scope? ⟨inner ++ scope :: outer⟩ outer.length = some scope := by
        simp [scope?]
      have hrest := @ih (inner ++ [scope]) steps (by simpa using hsteps) hlinked
      rw [List.append_assoc, List.singleton_append] at hrest
      rw [innermost?_cons, lookupFrom, hscope, List.findSome?_cons]
      simp only [Option.bind_eq_bind, Option.bind_some, hparent]
      cases scope.bound.lookup name with
      | some binding => rfl
      | none => exact hrest

/-- In linked scopes the first scope that binds a name says how it is bound. -/
theorem lookup_eq {s : ClassScopes} (hlinked : Linked s.scopes) (name : String) :
    s.lookup name = s.scopes.findSome? fun scope => scope.bound.lookup name :=
  @lookupFrom_eq name [] s.scopes s.depth (Nat.le_refl _) hlinked

/-- In linked scopes a lookup finds a name exactly if a scope binds it. -/
theorem isSome_lookup_iff {s : ClassScopes} (hlinked : Linked s.scopes) {name : String} :
    (s.lookup name).isSome = true ↔ ∃ scope ∈ s.scopes, name ∈ ClassScope.names scope.bound := by
  rw [lookup_eq hlinked, List.findSome?_isSome_iff]
  simp only [ClassScope.isSome_lookup_iff]

end ClassScopes

end EcmaScript
