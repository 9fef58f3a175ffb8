import EcmaScript.Proofs.ClassScope.Tables
import Mathlib.Data.List.Forall2

/-!
Which uses of private names the class scopes report.

A run of operations has a history: the classes it opens, numbered in the order of their opening,
the classes that are open at every use of a name, and the names that every class declares. A use
is undeclared if none of the classes around it declares its name, before or after the use. From
the first class to the last closing, every closing but the last one succeeds, and the last one
reports the first undeclared use of the history, if there is one.

The invariant says what each open scope holds at any time: the names that its class has declared,
and for every name the first use, undeclared so far, of which the class is the innermost one still
open. It speaks of the tables as sets of entries only, so the order in which a table is visited
makes no difference.
-/

namespace EcmaScript

/-- The operations on class scopes. -/
inductive ScopeOp where
  | push
  | pop
  | declare (name : String) (kind : MemberKind)
  | reference (name : String) (position : Position)

namespace ScopeOp

/-- The result of the operation, if it closes a scope, and the scopes behind it. -/
def run (op : ScopeOp) (s : ClassScopes) : List (Except Diagnostic Unit) × ClassScopes :=
  match op with
  | .push => ([], s.push)
  | .pop =>
    match ClassScopes.pop s with
    | .ok _ t => ([.ok ()], t)
    | .error d t => ([.error d], t)
  | .declare name kind =>
    match ClassScopes.declare name kind s with
    | .ok _ t => ([], t)
    | .error _ t => ([], t)
  | .reference name position => ([], (s.reference name position).2)

/-- The results of the closings, and the scopes behind all operations. -/
def runAll : List ScopeOp → ClassScopes → List (Except Diagnostic Unit) × ClassScopes
  | [], s => ([], s)
  | op :: ops, s =>
    let (results, t) := op.run s
    let (more, u) := runAll ops t
    (results ++ more, u)

/-- Offset of the use that the operation records. -/
def offset? : ScopeOp → Option Nat
  | .reference _ position => some position.offset
  | _ => none

/-- From `depth` open classes on, every class that is opened is closed again, and the outermost
one last; behind that no class is opened or closed. -/
def ClosesLast : Nat → List ScopeOp → Prop
  | 0, ops => ∀ op ∈ ops, op ≠ .push ∧ op ≠ .pop
  | _ + 1, [] => False
  | depth + 1, .push :: ops => ClosesLast (depth + 2) ops
  | depth + 1, .pop :: ops => ClosesLast depth ops
  | depth + 1, .declare _ _ :: ops => ClosesLast (depth + 1) ops
  | depth + 1, .reference _ _ :: ops => ClosesLast (depth + 1) ops

theorem closesLast_zero {ops : List ScopeOp} :
    ClosesLast 0 ops ↔ ∀ op ∈ ops, op ≠ .push ∧ op ≠ .pop := by
  rw [ClosesLast]

/-- The operations begin with the opening of a class and end with its closing. -/
def OneClass (ops : List ScopeOp) : Prop := ∃ rest, ops = .push :: rest ∧ ClosesLast 1 rest

end ScopeOp

/-- The scopes hold the same entries, in any order. -/
def ClassScopes.Shuffled (s t : ClassScopes) : Prop :=
  List.Forall₂ (fun scope scope' => scope'.parent = scope.parent ∧
    scope'.bound.Perm scope.bound ∧ scope'.pending.Perm scope.pending) s.scopes t.scopes

/-- The order of the tables does not matter to the links. -/
theorem ClassScopes.Linked.shuffled {s t : ClassScopes} (h : Linked s.scopes)
    (hshuffled : s.Shuffled t) : Linked t.scopes := by
  obtain ⟨scopes⟩ := s
  obtain ⟨scopes'⟩ := t
  change List.Forall₂ _ scopes scopes' at hshuffled
  change Linked scopes'
  induction hshuffled with
  | nil => trivial
  | cons hscope hrest ih =>
    obtain ⟨hparent, hlinked⟩ := h
    refine ⟨?_, ih hlinked⟩
    rw [hscope.1, hparent]
    simp [innermost?, depth, hrest.length_eq]

/-- The operations may give these results, where the order of every table may change in front of
every operation. -/
inductive ScopeRun : List ScopeOp → ClassScopes → List (Except Diagnostic Unit) → Prop where
  | nil (s : ClassScopes) : ScopeRun [] s []
  | cons {op : ScopeOp} {ops : List ScopeOp} {s s' : ClassScopes}
      {results : List (Except Diagnostic Unit)} (hshuffled : s.Shuffled s')
      (hrest : ScopeRun ops (op.run s').2 results) :
      ScopeRun (op :: ops) s ((op.run s').1 ++ results)

/-- A use of a name, and the classes open there, innermost first. -/
structure NameUse where
  name : String
  position : Position
  classes : List Nat

/-- What operations do, by the numbers of the classes they open. -/
structure ScopeHistory where
  /-- Number of the next class. -/
  next : Nat := 0
  /-- The open classes, innermost first. -/
  opened : List Nat := []
  /-- The uses inside of classes, first one first. -/
  uses : List NameUse := []
  /-- Which class declares which name, successfully or not. -/
  declared : List (Nat × String) := []

namespace ScopeHistory

/-- The history with one more operation. -/
def step (h : ScopeHistory) : ScopeOp → ScopeHistory
  | .push => { h with next := h.next + 1, opened := h.next :: h.opened }
  | .pop => { h with opened := h.opened.tail }
  | .declare name _ =>
    match h.opened with
    | [] => h
    | c :: _ => { h with declared := (c, name) :: h.declared }
  | .reference name position =>
    match h.opened with
    | [] => h
    | _ :: _ => { h with uses := h.uses ++ [⟨name, position, h.opened⟩] }

/-- The history of operations from an empty stack on. -/
def ofOps (ops : List ScopeOp) : ScopeHistory := ops.foldl step {}

def Undeclared (h : ScopeHistory) (u : NameUse) : Prop :=
  ∀ c ∈ u.classes, (c, u.name) ∉ h.declared

instance (h : ScopeHistory) (u : NameUse) : Decidable (h.Undeclared u) :=
  inferInstanceAs (Decidable (∀ c ∈ u.classes, (c, u.name) ∉ h.declared))

/-- What the closing of the outermost class reports: the first undeclared use. -/
def verdict (h : ScopeHistory) : Except Diagnostic Unit :=
  match h.uses.find? fun u => decide (h.Undeclared u) with
  | none => .ok ()
  | some u => .error (.located (.privateName .undeclared) u.position)

/-! ## Histories -/

/-- Classes are numbered in the order of their opening; the classes around a use that are still
open are the innermost of them and all those around it; and as long as a class is open, every
later use is inside of it if an earlier one is. -/
structure Sound (h : ScopeHistory) : Prop where
  opened_lt : ∀ c ∈ h.opened, c < h.next
  opened_sorted : h.opened.Pairwise (· > ·)
  classes_lt : ∀ u ∈ h.uses, ∀ c ∈ u.classes, c < h.next
  declared_lt : ∀ c name, (c, name) ∈ h.declared → c < h.next
  chain : ∀ u ∈ h.uses, ∀ c ∈ u.classes, c ∈ h.opened → ∀ d ∈ h.opened, d < c → d ∈ u.classes
  later : ∀ c ∈ h.opened, h.uses.Pairwise fun u v => c ∈ u.classes → c ∈ v.classes

theorem Sound.initial : Sound {} := ⟨by simp, by simp, by simp, by simp, by simp, by simp⟩

theorem Sound.step {h : ScopeHistory} (hs : h.Sound) (op : ScopeOp) : (h.step op).Sound := by
  cases op with
  | push =>
    refine ⟨?_, ?_, ?_, ?_, ?_, ?_⟩
    · intro c hc
      rcases List.mem_cons.mp hc with rfl | hc
      · exact Nat.lt_succ_self _
      · exact Nat.lt_succ_of_lt (hs.opened_lt c hc)
    · exact List.pairwise_cons.mpr ⟨hs.opened_lt, hs.opened_sorted⟩
    · exact fun u hu c hc => Nat.lt_succ_of_lt (hs.classes_lt u hu c hc)
    · exact fun c name hdeclared => Nat.lt_succ_of_lt (hs.declared_lt c name hdeclared)
    · -- The new class is around no use so far.
      intro u hu c hc hopen d hd hlt
      have hnext := hs.classes_lt u hu c hc
      rcases List.mem_cons.mp hopen with rfl | hopen
      · omega
      · rcases List.mem_cons.mp hd with rfl | hd
        · omega
        · exact hs.chain u hu c hc hopen d hd hlt
    · intro c hc
      rcases List.mem_cons.mp hc with rfl | hc
      · refine List.Pairwise.imp_of_mem ?_
          (List.pairwise_of_forall (R := fun _ _ => True) (by simp))
        intro u v hu _ _ hmem
        exact absurd (hs.classes_lt u hu _ hmem) (Nat.lt_irrefl _)
      · exact hs.later c hc
  | pop =>
    have htail : ∀ c ∈ h.opened.tail, c ∈ h.opened := fun c hc => List.mem_of_mem_tail hc
    refine ⟨fun c hc => hs.opened_lt c (htail c hc), hs.opened_sorted.tail, hs.classes_lt,
      hs.declared_lt, ?_, ?_⟩
    · exact fun u hu c hc hopen d hd hlt =>
        hs.chain u hu c hc (htail c hopen) d (htail d hd) hlt
    · exact fun c hc => hs.later c (htail c hc)
  | declare name kind =>
    simp only [ScopeHistory.step]
    split
    · exact hs
    · next c rest hopened =>
      refine ⟨hs.opened_lt, hs.opened_sorted, hs.classes_lt, ?_, hs.chain, hs.later⟩
      intro d other hdeclared
      rcases List.mem_cons.mp hdeclared with heq | hdeclared
      · cases heq
        exact hs.opened_lt c (by simp [hopened])
      · exact hs.declared_lt d other hdeclared
  | reference name position =>
    simp only [ScopeHistory.step]
    split
    · exact hs
    · refine ⟨hs.opened_lt, hs.opened_sorted, ?_, hs.declared_lt, ?_, ?_⟩
      · intro u hu
        rcases List.mem_append.mp hu with hu | hu
        · exact hs.classes_lt u hu
        · rw [List.mem_singleton.mp hu]
          exact hs.opened_lt
      · intro u hu c hc hopen d hd hlt
        rcases List.mem_append.mp hu with hu | hu
        · exact hs.chain u hu c hc hopen d hd hlt
        · rw [List.mem_singleton.mp hu]
          exact hd
      · intro c hc
        refine List.pairwise_append.mpr ⟨hs.later c hc, List.pairwise_singleton _ _, ?_⟩
        intro u _ v hv _
        rw [List.mem_singleton.mp hv]
        exact hc

/-! ## Where an undeclared use is pending -/

/-- The class is the innermost one around the use that is still open. -/
def Home (h : ScopeHistory) (u : NameUse) (c : Nat) : Prop :=
  c ∈ u.classes ∧ c ∈ h.opened ∧ ∀ d ∈ u.classes, d ∈ h.opened → d ≤ c

/-- The use is one of the name and still to be settled by the class. -/
def Awaits (h : ScopeHistory) (c : Nat) (name : String) (u : NameUse) : Prop :=
  u.name = name ∧ h.Undeclared u ∧ h.Home u c

instance (h : ScopeHistory) (c : Nat) (name : String) (u : NameUse) :
    Decidable (h.Awaits c name u) :=
  inferInstanceAs (Decidable (u.name = name ∧ h.Undeclared u ∧
    c ∈ u.classes ∧ c ∈ h.opened ∧ ∀ d ∈ u.classes, d ∈ h.opened → d ≤ c))

def firstIn (h : ScopeHistory) (c : Nat) (name : String) : Option NameUse :=
  h.uses.find? fun u => decide (h.Awaits c name u)

theorem find?_congr {α : Type} {P Q : α → Bool} {l : List α} (hsame : ∀ a ∈ l, P a = Q a) :
    l.find? P = l.find? Q := by
  induction l with
  | nil => rfl
  | cons a l ih =>
    rw [List.find?_cons, List.find?_cons, hsame a List.mem_cons_self,
      ih fun b hb => hsame b (List.mem_cons_of_mem _ hb)]

theorem firstIn_congr {h h' : ScopeHistory} {c c' : Nat} {name : String}
    (huses : h'.uses = h.uses)
    (hsame : ∀ u ∈ h.uses, h'.Awaits c' name u ↔ h.Awaits c name u) :
    h'.firstIn c' name = h.firstIn c name := by
  unfold firstIn
  rw [huses]
  exact find?_congr fun u hu => decide_eq_decide.mpr (hsame u hu)

theorem firstIn_eq_none {h : ScopeHistory} {c : Nat} {name : String}
    (hnone : ∀ u ∈ h.uses, ¬h.Awaits c name u) : h.firstIn c name = none := by
  rw [firstIn, List.find?_eq_none]
  intro u hu
  simpa using hnone u hu

/-- A list in which nothing that satisfies `P` follows something that satisfies `Q`. -/
theorem find?_or {α : Type} {P Q : α → Bool} {l : List α}
    (hl : l.Pairwise fun a b => Q a = true → P b = false) :
    l.find? (fun a => P a || Q a) = (l.find? P).or (l.find? Q) := by
  induction l with
  | nil => rfl
  | cons a l ih =>
    obtain ⟨hfirst, hl⟩ := List.pairwise_cons.mp hl
    rw [List.find?_cons, List.find?_cons, List.find?_cons, ih hl]
    cases hP : P a with
    | true => rfl
    | false =>
      cases hQ : Q a with
      | false => rfl
      | true =>
        have hnone : l.find? P = none := by
          rw [List.find?_eq_none]
          intro b hb
          simp [hfirst b hb hQ]
        simp [hnone]

section

variable {h : ScopeHistory} {name other : String} {c d : Nat} {rest : List Nat}

theorem Sound.ne_innermost (hs : h.Sound) (hopened : h.opened = d :: rest) (hc : c ∈ rest) :
    c ≠ d := by
  have hsorted := hs.opened_sorted
  rw [hopened] at hsorted
  exact Nat.ne_of_lt ((List.pairwise_cons.mp hsorted).1 c hc)

/-- An open class that is not the innermost one is the home of a use only if the innermost one is
not around it. -/
theorem Sound.not_mem_of_home (hs : h.Sound) (hopened : h.opened = d :: rest) {u : NameUse}
    (hhome : h.Home u c) (hne : c ≠ d) : d ∉ u.classes := by
  intro hmem
  obtain ⟨-, hopen, hleast⟩ := hhome
  have hle := hleast d hmem (by simp [hopened])
  have hsorted := hs.opened_sorted
  rw [hopened] at hopen hsorted
  have hrest : c ∈ rest := by simpa [hne] using hopen
  have hlt := (List.pairwise_cons.mp hsorted).1 c hrest
  omega

/-- A new class awaits nothing, and the other ones what they did before. -/
theorem Sound.firstIn_push (hs : h.Sound) (c : Nat) :
    (h.step .push).firstIn c name = if c = h.next then none else h.firstIn c name := by
  split
  · next heq =>
    subst heq
    refine firstIn_eq_none fun u hu hawaits => ?_
    exact absurd (hs.classes_lt u hu _ hawaits.2.2.1) (Nat.lt_irrefl _)
  · next hne =>
    refine firstIn_congr rfl fun u hu => ?_
    have hnext : ∀ d ∈ u.classes, d ≠ h.next := fun d hd =>
      Nat.ne_of_lt (hs.classes_lt u hu d hd)
    have hhome : (h.step .push).Home u c ↔ h.Home u c := by
      simp only [Home, ScopeHistory.step, List.mem_cons, hne, false_or]
      refine and_congr_right fun _ => and_congr_right fun _ => forall₂_congr fun d hd => ?_
      simp [hnext d hd]
    simp only [Awaits, hhome]
    rfl

/-- A declaration settles what its class awaits of the name, and nothing else. -/
theorem Sound.firstIn_declare (hs : h.Sound) (hopened : h.opened = d :: rest) (kind : MemberKind)
    (c : Nat) :
    (h.step (.declare other kind)).firstIn c name =
      if c = d ∧ name = other then none else h.firstIn c name := by
  have hstep : h.step (.declare other kind) =
      { h with declared := (d, other) :: h.declared } := by simp [ScopeHistory.step, hopened]
  rw [hstep]
  split
  · next heq =>
    obtain ⟨rfl, rfl⟩ := heq
    refine firstIn_eq_none fun u _ hawaits => ?_
    obtain ⟨rfl, hundeclared, hhome⟩ := hawaits
    exact hundeclared c hhome.1 List.mem_cons_self
  · next hne =>
    refine firstIn_congr rfl fun u _ => ?_
    refine and_congr_right fun hname => and_congr_left fun hhome => ?_
    refine forall₂_congr fun e he => not_congr ?_
    have hnew : (e, u.name) ≠ (d, other) := by
      intro heq
      obtain ⟨rfl, hother⟩ := Prod.mk.inj heq
      have hcd : c ≠ e := fun hce => hne ⟨hce, by rw [← hname, hother]⟩
      exact hs.not_mem_of_home hopened hhome hcd he
    simp [hnew]

/-- A use is the first of its name that the innermost class awaits, unless there is one or a class
around it has declared the name. -/
theorem Sound.firstIn_reference (hs : h.Sound) (hopened : h.opened = d :: rest)
    (position : Position) (c : Nat) :
    (h.step (.reference other position)).firstIn c name =
      (h.firstIn c name).or
        (if c = d ∧ name = other ∧ h.Undeclared ⟨other, position, h.opened⟩ then
          some ⟨other, position, h.opened⟩ else none) := by
  have hstep : h.step (.reference other position) =
      { h with uses := h.uses ++ [⟨other, position, h.opened⟩] } := by
    simp [ScopeHistory.step, hopened]
  have hhome : h.Home ⟨other, position, h.opened⟩ c ↔ c = d := by
    have hsorted := hs.opened_sorted
    rw [hopened] at hsorted
    constructor
    · rintro ⟨hmem, -, hleast⟩
      have hle := hleast d (by simp [hopened]) (by simp [hopened])
      rw [hopened] at hmem
      rcases List.mem_cons.mp hmem with rfl | hmem
      · rfl
      · have hlt := (List.pairwise_cons.mp hsorted).1 c hmem
        omega
    · rintro rfl
      refine ⟨by simp [hopened], by simp [hopened], fun e he _ => ?_⟩
      rw [hopened] at he
      rcases List.mem_cons.mp he with rfl | he
      · exact Nat.le_refl _
      · exact Nat.le_of_lt ((List.pairwise_cons.mp hsorted).1 e he)
  rw [hstep]
  unfold firstIn
  rw [List.find?_append]
  congr 1
  simp only [List.find?_cons, List.find?_nil]
  have hawaits : (h.Awaits c name ⟨other, position, h.opened⟩) ↔
      c = d ∧ name = other ∧ h.Undeclared ⟨other, position, h.opened⟩ := by
    rw [Awaits, hhome]
    constructor
    · rintro ⟨rfl, hundeclared, rfl⟩
      exact ⟨rfl, rfl, hundeclared⟩
    · rintro ⟨rfl, rfl, hundeclared⟩
      exact ⟨rfl, hundeclared, rfl⟩
  change (match decide (h.Awaits c name ⟨other, position, h.opened⟩) with
    | true => some _ | false => none) = _
  rw [decide_eq_decide.mpr hawaits]
  split
  · next htrue => rw [if_pos (of_decide_eq_true htrue)]
  · next hfalse => rw [if_neg (of_decide_eq_false hfalse)]

/-- When a class is closed, the one around it awaits what both did, its own first; the other ones
are not concerned. -/
theorem Sound.firstIn_pop (hs : h.Sound) {outer : Nat} (hopened : h.opened = d :: outer :: rest)
    (hc : c ∈ outer :: rest) :
    (h.step .pop).firstIn c name =
      if c = outer then (h.firstIn outer name).or (h.firstIn d name) else h.firstIn c name := by
  have hsorted := hs.opened_sorted
  rw [hopened] at hsorted
  obtain ⟨hd, hsorted⟩ := List.pairwise_cons.mp hsorted
  have houter := (List.pairwise_cons.mp hsorted).1
  have hlt : outer < d := hd outer List.mem_cons_self
  have htop : ∀ e ∈ outer :: rest, e ≤ outer := by
    intro e he
    rcases List.mem_cons.mp he with rfl | he
    · exact Nat.le_refl _
    · exact Nat.le_of_lt (houter e he)
  have hstep : (h.step .pop).opened = outer :: rest := by simp [ScopeHistory.step, hopened]
  -- A use inside the closed class is inside the one around it.
  have hinside : ∀ u ∈ h.uses, d ∈ u.classes → outer ∈ u.classes := fun u hu hmem =>
    hs.chain u hu d hmem (by simp [hopened]) outer (by simp [hopened]) hlt
  split
  · next heq =>
    subst heq
    have hhome : ∀ u ∈ h.uses, (h.step .pop).Home u c ↔ h.Home u c ∨ h.Home u d := by
      intro u hu
      simp only [Home, hstep, hopened]
      constructor
      · rintro ⟨hmem, -, hleast⟩
        by_cases hdu : d ∈ u.classes
        · refine .inr ⟨hdu, List.mem_cons_self, fun e _ he => ?_⟩
          rcases List.mem_cons.mp he with rfl | he
          · exact Nat.le_refl _
          · exact Nat.le_of_lt (hd e he)
        · refine .inl ⟨hmem, List.mem_cons_of_mem _ hc, fun e heu he => ?_⟩
          rcases List.mem_cons.mp he with rfl | he
          · exact absurd heu hdu
          · exact hleast e heu he
      · rintro (⟨hmem, -, hleast⟩ | ⟨hmem, -, -⟩)
        · exact ⟨hmem, hc, fun e heu he => hleast e heu (List.mem_cons_of_mem _ he)⟩
        · exact ⟨hinside u hu hmem, hc, fun e _ he => htop e he⟩
    have hawaits : ∀ u ∈ h.uses, (h.step .pop).Awaits c name u ↔
        h.Awaits c name u ∨ h.Awaits d name u := by
      intro u hu
      simp only [Awaits, hhome u hu]
      change u.name = name ∧ h.Undeclared u ∧ _ ↔ _
      grind
    have huses : (h.step .pop).uses = h.uses := rfl
    unfold firstIn
    rw [huses, ← find?_or]
    · refine find?_congr fun u hu => ?_
      rw [decide_eq_decide.mpr (hawaits u hu), Bool.decide_or]
    · refine (hs.later d (by simp [hopened])).imp ?_
      intro u v hlater hawaitsd
      have hdu := (of_decide_eq_true hawaitsd).2.2.1
      have hne : c ≠ d := Nat.ne_of_lt hlt
      refine decide_eq_false fun hawaitsc => ?_
      exact hs.not_mem_of_home hopened hawaitsc.2.2 hne (hlater hdu)
  · next hne =>
    refine firstIn_congr rfl fun u hu => ?_
    have hrest : c ∈ rest := by simpa [hne] using hc
    have hhome : (h.step .pop).Home u c ↔ h.Home u c := by
      simp only [Home, hstep, hopened]
      constructor
      · rintro ⟨hmem, -, hleast⟩
        refine ⟨hmem, List.mem_cons_of_mem _ hc, fun e heu he => ?_⟩
        rcases List.mem_cons.mp he with rfl | he
        · have hle := hleast outer (hinside u hu heu) List.mem_cons_self
          have hclt := houter c hrest
          omega
        · exact hleast e heu he
      · rintro ⟨hmem, -, hleast⟩
        exact ⟨hmem, hc, fun e heu he => hleast e heu (List.mem_cons_of_mem _ he)⟩
    simp only [Awaits, hhome]
    rfl

end

/-! ## The invariant -/

/-- The scope holds the names that the class has declared, and the first use of every name that
the class has still to settle. -/
structure Describes (h : ScopeHistory) (c : Nat) (scope : ClassScope) : Prop where
  bound : ∀ name, name ∈ ClassScope.names scope.bound ↔ (c, name) ∈ h.declared
  pending : ∀ name position, (name, position) ∈ scope.pending ↔
    ∃ u, h.firstIn c name = some u ∧ u.position = position

/-- The scopes are linked, and are those of the open classes. -/
structure Tracks (h : ScopeHistory) (s : ClassScopes) : Prop where
  linked : ClassScopes.Linked s.scopes
  scopes : List.Forall₂ h.Describes h.opened s.scopes

theorem Tracks.initial : Tracks {} {} := ⟨trivial, .nil⟩

variable {h : ScopeHistory} {s t : ClassScopes}

/-- Every scope holds a name at most once as pending. -/
theorem Describes.unique {c : Nat} {scope : ClassScope} (hscope : h.Describes c scope)
    (name : String) (p q : Position) (hp : (name, p) ∈ scope.pending)
    (hq : (name, q) ∈ scope.pending) : p = q := by
  obtain ⟨u, hu, rfl⟩ := (hscope.pending name p).mp hp
  obtain ⟨v, hv, rfl⟩ := (hscope.pending name q).mp hq
  rw [hu] at hv
  cases hv
  rfl

theorem Describes.not_mem_pending_iff {c : Nat} {scope : ClassScope}
    (hscope : h.Describes c scope) {name : String} :
    name ∉ ClassScope.names scope.pending ↔ h.firstIn c name = none := by
  simp only [ClassScope.mem_names_iff, hscope.pending]
  cases h.firstIn c name <;> simp

theorem forall₂_imp_of_mem {α β : Type} {R S : α → β → Prop} {l : List α} {l' : List β}
    (h : List.Forall₂ R l l') (himp : ∀ a ∈ l, ∀ b, R a b → S a b) : List.Forall₂ S l l' := by
  induction h with
  | nil => exact .nil
  | cons hab _ ih =>
    exact .cons (himp _ List.mem_cons_self _ hab)
      (ih fun a ha b => himp a (List.mem_cons_of_mem _ ha) b)

/-- The order of the tables does not matter. -/
theorem Tracks.shuffled (ht : Tracks h s) (hshuffled : s.Shuffled t) : Tracks h t := by
  obtain ⟨hlinked, hscopes⟩ := ht
  refine ⟨hlinked.shuffled hshuffled, ?_⟩
  clear hlinked
  obtain ⟨scopes⟩ := s
  obtain ⟨scopes'⟩ := t
  change List.Forall₂ _ scopes scopes' at hshuffled
  change List.Forall₂ h.Describes h.opened scopes at hscopes
  change List.Forall₂ h.Describes h.opened scopes'
  generalize h.opened = opened at hscopes ⊢
  induction hshuffled generalizing opened with
  | nil => exact hscopes
  | cons hscope hrest ih =>
    cases hscopes with
    | cons hdescribes hscopes =>
      refine .cons ⟨fun name => ?_, fun name position => ?_⟩ (ih _ hscopes)
      · rw [← hdescribes.bound name]
        exact (hscope.2.1.map _).mem_iff
      · rw [← hdescribes.pending name position]
        exact hscope.2.2.mem_iff

/-- A declared name awaits nothing. -/
theorem firstIn_eq_none_of_declared {c : Nat} {name : String} (hdeclared : (c, name) ∈ h.declared) :
    h.firstIn c name = none := by
  refine firstIn_eq_none fun u _ hawaits => ?_
  obtain ⟨rfl, hundeclared, hhome⟩ := hawaits
  exact hundeclared c hhome.1 hdeclared

theorem Tracks.lookup_iff (ht : Tracks h s) {name : String} :
    (s.lookup name).isSome = true ↔ ∃ c ∈ h.opened, (c, name) ∈ h.declared := by
  rw [ClassScopes.isSome_lookup_iff ht.linked]
  have hscopes := ht.scopes
  generalize h.opened = opened at hscopes ⊢
  generalize s.scopes = scopes at hscopes ⊢
  induction hscopes with
  | nil => simp
  | cons hscope _ ih => simp [hscope.bound, ih]

theorem Tracks.push (hs : h.Sound) (ht : Tracks h s) : Tracks (h.step .push) s.push := by
  refine ⟨⟨rfl, ht.linked⟩, .cons ⟨fun name => ?_, fun name position => ?_⟩ ?_⟩
  · have hnone : (h.next, name) ∉ h.declared := fun hdeclared =>
      absurd (hs.declared_lt _ _ hdeclared) (Nat.lt_irrefl _)
    simpa [ScopeHistory.step] using hnone
  · rw [hs.firstIn_push, if_pos rfl]
    simp
  · refine forall₂_imp_of_mem ht.scopes fun c hc scope hscope => ⟨hscope.bound, ?_⟩
    intro name position
    rw [hs.firstIn_push, if_neg (Nat.ne_of_lt (hs.opened_lt c hc)), hscope.pending]

theorem Tracks.pop (hs : h.Sound) (ht : Tracks h s) :
    Tracks (h.step .pop) (ScopeOp.pop.run s).2 := by
  obtain ⟨scopes⟩ := s
  obtain ⟨hlinked, hscopes⟩ := ht
  change List.Forall₂ h.Describes h.opened scopes at hscopes
  rcases scopes with _ | ⟨inner, _ | ⟨outer, others⟩⟩
  · rw [List.forall₂_nil_right_iff] at hscopes
    refine ⟨trivial, ?_⟩
    simp [ScopeHistory.step, hscopes, ScopeOp.run, ClassScopes.pop]
  · obtain ⟨d, rest, -, hrest, hopened⟩ := List.forall₂_cons_right_iff.mp hscopes
    rw [List.forall₂_nil_right_iff] at hrest
    have hstate : (ScopeOp.pop.run ⟨[inner]⟩).2 = ⟨[]⟩ := by
      simp only [ScopeOp.run, ClassScopes.pop]
      cases ClassScope.earliest? (inner.pending.map (·.2)) <;> rfl
    rw [hstate]
    refine ⟨trivial, ?_⟩
    simp [ScopeHistory.step, hopened, hrest]
  · obtain ⟨d, rest, hinner, hrest, hopened⟩ := List.forall₂_cons_right_iff.mp hscopes
    obtain ⟨o, rest, houter, hothers, rfl⟩ := List.forall₂_cons_right_iff.mp hrest
    obtain ⟨-, hparent, hlinked⟩ := hlinked
    have hstep : (h.step .pop).opened = o :: rest := by simp [ScopeHistory.step, hopened]
    refine ⟨⟨(outer.inherit_parent inner).trans hparent, hlinked⟩, ?_⟩
    rw [hstep]
    refine .cons ⟨fun name => ?_, fun name position => ?_⟩ ?_
    · rw [ClassScope.inherit_bound]
      exact houter.bound name
    · rw [hs.firstIn_pop hopened List.mem_cons_self, if_pos rfl,
        ClassScope.mem_pending_inherit, houter.pending, houter.not_mem_pending_iff,
        ClassScope.lookup_eq_some_iff hinner.unique, hinner.pending]
      cases h.firstIn o name <;> simp
    · refine forall₂_imp_of_mem hothers fun c hc scope hscope => ⟨hscope.bound, ?_⟩
      intro name position
      have hne := (hs.step .pop).ne_innermost hstep hc
      rw [hs.firstIn_pop hopened (List.mem_cons_of_mem _ hc), if_neg hne, hscope.pending]

theorem Tracks.declare (hs : h.Sound) (ht : Tracks h s) (name : String) (kind : MemberKind) :
    Tracks (h.step (.declare name kind)) ((ScopeOp.declare name kind).run s).2 := by
  obtain ⟨scopes⟩ := s
  obtain ⟨hlinked, hscopes⟩ := ht
  change List.Forall₂ h.Describes h.opened scopes at hscopes
  rcases scopes with _ | ⟨scope, outer⟩
  · rw [List.forall₂_nil_right_iff] at hscopes
    refine ⟨trivial, ?_⟩
    simp [ScopeHistory.step, hscopes, ScopeOp.run, ClassScopes.declare]
  · obtain ⟨d, rest, hscope, hrest, hopened⟩ := List.forall₂_cons_right_iff.mp hscopes
    have hstep : (h.step (.declare name kind)).opened = d :: rest := by
      simp [ScopeHistory.step, hopened]
    have hdeclared : ∀ c other, (c, other) ∈ (h.step (.declare name kind)).declared ↔
        (c, other) = (d, name) ∨ (c, other) ∈ h.declared := by
      simp [ScopeHistory.step, hopened]
    have hothers : List.Forall₂ (h.step (.declare name kind)).Describes rest outer := by
      refine forall₂_imp_of_mem hrest fun c hc other hother => ?_
      have hne := hs.ne_innermost hopened hc
      refine ⟨fun m => ?_, fun m position => ?_⟩
      · simp [hdeclared, hne, hother.bound]
      · rw [hs.firstIn_declare hopened, if_neg (by simp [hne]), hother.pending]
    simp only [ScopeOp.run, ClassScopes.declare]
    cases hbinding : scope.declared? name kind with
    | some binding =>
      refine ⟨hlinked, ?_⟩
      rw [hstep]
      refine .cons ⟨fun m => ?_, fun m position => ?_⟩ hothers
      · simp [ClassScope.bind, hdeclared, hscope.bound]
      · rw [hs.firstIn_declare hopened]
        simp only [ClassScope.bind, ClassScope.mem_remove, hscope.pending, true_and]
        by_cases hm : m = name <;> simp [hm]
    | none =>
      -- The class has declared the name before, so nothing is pending.
      have hmem : (d, name) ∈ h.declared := by
        rw [← hscope.bound, ← ClassScope.isSome_lookup_iff]
        unfold ClassScope.declared? at hbinding
        split at hbinding
        · next hlookup => rw [hlookup]; rfl
        · cases hbinding
      refine ⟨hlinked, ?_⟩
      rw [hstep]
      refine .cons ⟨fun m => ?_, fun m position => ?_⟩ hothers
      · simp only [hdeclared, hscope.bound]
        constructor
        · exact .inr
        · rintro (heq | hm)
          · cases heq
            exact hmem
          · exact hm
      · rw [hs.firstIn_declare hopened, hscope.pending]
        by_cases hm : m = name
        · subst hm
          simp [firstIn_eq_none_of_declared hmem]
        · simp [hm]

theorem Tracks.reference (hs : h.Sound) (ht : Tracks h s) (name : String) (position : Position) :
    Tracks (h.step (.reference name position)) ((ScopeOp.reference name position).run s).2 := by
  have hlookup := @Tracks.lookup_iff h s ht name
  obtain ⟨scopes⟩ := s
  obtain ⟨hlinked, hscopes⟩ := ht
  change List.Forall₂ h.Describes h.opened scopes at hscopes
  rcases scopes with _ | ⟨scope, outer⟩
  · rw [List.forall₂_nil_right_iff] at hscopes
    have hstate : ((ScopeOp.reference name position).run ⟨[]⟩).2 = ⟨[]⟩ := rfl
    rw [hstate]
    refine ⟨trivial, ?_⟩
    simp [ScopeHistory.step, hscopes]
  · obtain ⟨d, rest, hscope, hrest, hopened⟩ := List.forall₂_cons_right_iff.mp hscopes
    have hstep : (h.step (.reference name position)).opened = d :: rest := by
      simp [ScopeHistory.step, hopened]
    have hdeclared : (h.step (.reference name position)).declared = h.declared := by
      simp [ScopeHistory.step, hopened]
    have hundeclared : h.Undeclared ⟨name, position, h.opened⟩ ↔
        ¬(ClassScopes.lookup ⟨scope :: outer⟩ name).isSome = true := by
      rw [hlookup]
      simp [Undeclared]
    have hothers : List.Forall₂ (h.step (.reference name position)).Describes rest outer := by
      refine forall₂_imp_of_mem hrest fun c hc other hother => ?_
      have hne := hs.ne_innermost hopened hc
      refine ⟨fun m => ?_, fun m p => ?_⟩
      · rw [hdeclared]
        exact hother.bound m
      · rw [hs.firstIn_reference hopened, if_neg (by simp [hne]), Option.or_none, hother.pending]
    simp only [ScopeOp.run, ClassScopes.reference]
    split
    · next hfound =>
      refine ⟨hlinked, ?_⟩
      rw [hstep]
      refine .cons ⟨fun m => ?_, fun m p => ?_⟩ hothers
      · rw [hdeclared]
        exact hscope.bound m
      · rw [hs.firstIn_reference hopened,
          if_neg fun hnew => hundeclared.mp hnew.2.2 hfound, Option.or_none, hscope.pending]
    · next hfound =>
      refine ⟨hlinked, ?_⟩
      rw [hstep]
      refine .cons ⟨fun m => ?_, fun m p => ?_⟩ hothers
      · rw [hdeclared]
        exact hscope.bound m
      · rw [hs.firstIn_reference hopened]
        simp only [ClassScope.await, ClassScope.mem_putNew, hscope.pending,
          hscope.not_mem_pending_iff, hundeclared.mpr hfound, and_true, true_and]
        by_cases hm : m = name
        · subst hm
          cases h.firstIn d m <;> simp [eq_comm]
        · simp [hm]

/-- What one operation preserves. -/
theorem Tracks.step (hs : h.Sound) (ht : Tracks h s) (op : ScopeOp) :
    Tracks (h.step op) (op.run s).2 := by
  cases op with
  | push => exact ht.push hs
  | pop => exact ht.pop hs
  | declare name kind => exact ht.declare hs name kind
  | reference name position => exact ht.reference hs name position

/-! ## Closings -/

/-- The closing of the only open class, which all uses are inside of, reports the first undeclared
use: it is pending, and no other pending use has a smaller offset. -/
theorem Tracks.run_pop_last (ht : Tracks h s) {c : Nat} (hopened : h.opened = [c])
    (hinside : ∀ u ∈ h.uses, c ∈ u.classes)
    (hoffsets : (h.uses.map (·.position.offset)).Pairwise (· < ·)) :
    (ScopeOp.pop.run s).1 = [h.verdict] := by
  obtain ⟨scopes⟩ := s
  have hscopes := ht.scopes
  rw [hopened] at hscopes
  obtain ⟨scope, rest, hscope, hrest, hcons⟩ := List.forall₂_cons_left_iff.mp hscopes
  rw [List.forall₂_nil_left_iff] at hrest
  subst hrest
  change scopes = [scope] at hcons
  subst hcons
  have hawaits : ∀ u ∈ h.uses, ∀ name, h.Awaits c name u ↔ u.name = name ∧ h.Undeclared u := by
    intro u hu name
    simp only [Awaits, Home, hopened]
    have hclass := hinside u hu
    simp only [List.mem_singleton, hclass, true_and]
    refine and_congr_right fun _ => and_iff_left fun d _ hd => Nat.le_of_eq hd
  have hpending : ∀ name position, (name, position) ∈ scope.pending →
      ∃ u ∈ h.uses, h.Undeclared u ∧ u.position = position := by
    intro name position hmem
    obtain ⟨u, hfirst, hposition⟩ := (hscope.pending name position).mp hmem
    have hu := List.mem_of_find?_eq_some hfirst
    have hfound : h.Awaits c name u := by simpa using List.find?_some hfirst
    exact ⟨u, hu, hfound.2.1, hposition⟩
  simp only [ScopeOp.run, ClassScopes.pop, verdict]
  cases hfirst : h.uses.find? fun u => decide (h.Undeclared u) with
  | none =>
    have hempty : scope.pending.map (·.2) = [] := by
      rw [List.map_eq_nil_iff, List.eq_nil_iff_forall_not_mem]
      rintro ⟨name, position⟩ hmem
      obtain ⟨u, hu, hundeclared, -⟩ := hpending name position hmem
      exact List.find?_eq_none.mp hfirst u hu (decide_eq_true hundeclared)
    rw [hempty]
    rfl
  | some u =>
    obtain ⟨hundeclared, before, after, huses, hbefore⟩ := List.find?_eq_some_iff_append.mp hfirst
    have hundeclared := of_decide_eq_true hundeclared
    have humem : u ∈ h.uses := by simp [huses]
    have hmem : (u.name, u.position) ∈ scope.pending := by
      refine (hscope.pending _ _).mpr ⟨u, ?_, rfl⟩
      refine List.find?_eq_some_iff_append.mpr ⟨?_, before, after, huses, fun v hv => ?_⟩
      · exact decide_eq_true ((hawaits u humem _).mpr ⟨rfl, hundeclared⟩)
      · have hvmem : v ∈ h.uses := by simp [huses, hv]
        have hdeclared := hbefore v hv
        rw [Bool.not_eq_true', decide_eq_false_iff_not] at hdeclared
        rw [Bool.not_eq_true', decide_eq_false_iff_not, hawaits v hvmem]
        exact fun hboth => hdeclared hboth.2
    have hposition : u.position ∈ scope.pending.map (·.2) :=
      List.mem_map.mpr ⟨(u.name, u.position), hmem, rfl⟩
    cases hearliest : ClassScope.earliest? (scope.pending.map (·.2)) with
    | none =>
      rw [ClassScope.earliest?_eq_none_iff.mp hearliest] at hposition
      cases hposition
    | some p =>
      obtain ⟨hp, hleast⟩ := ClassScope.earliest?_spec hearliest
      obtain ⟨⟨name, q⟩, hentry, rfl⟩ := List.mem_map.mp hp
      obtain ⟨v, hv, hvundeclared, rfl⟩ := hpending name q hentry
      have hle := hleast _ hposition
      rw [huses, List.mem_append, List.mem_cons] at hv
      rw [huses, List.map_append, List.map_cons] at hoffsets
      have hafter := (List.pairwise_cons.mp (List.pairwise_append.mp hoffsets).2.1).1
      rcases hv with hv | rfl | hv
      · have hdeclared := hbefore v hv
        rw [Bool.not_eq_true', decide_eq_false_iff_not] at hdeclared
        exact absurd hvundeclared hdeclared
      · rfl
      · have hlt := hafter _ (List.mem_map.mpr ⟨v, hv, rfl⟩)
        exact absurd hle (Nat.not_le_of_lt hlt)

/-- A closing inside of another class succeeds. -/
theorem Tracks.run_pop_inner (ht : Tracks h s) {c outer : Nat} {rest : List Nat}
    (hopened : h.opened = c :: outer :: rest) : (ScopeOp.pop.run s).1 = [.ok ()] := by
  obtain ⟨scopes⟩ := s
  have hlength := ht.scopes.length_eq
  rw [hopened] at hlength
  rcases scopes with _ | ⟨inner, _ | ⟨scope, others⟩⟩
  · cases hlength
  · cases hlength
  · rfl

/-- Outside of classes nothing happens. -/
theorem foldl_step_outside {ops : List ScopeOp} (hopened : h.opened = [])
    (hops : ∀ op ∈ ops, op ≠ ScopeOp.push ∧ op ≠ ScopeOp.pop) :
    ops.foldl ScopeHistory.step h = h := by
  induction ops with
  | nil => rfl
  | cons op ops ih =>
    obtain ⟨hop, hops⟩ := List.forall_mem_cons.mp hops
    have hstep : h.step op = h := by
      cases op with
      | push => exact absurd rfl hop.1
      | pop => exact absurd rfl hop.2
      | declare name kind => simp [ScopeHistory.step, hopened]
      | reference name position => simp [ScopeHistory.step, hopened]
    rw [List.foldl_cons, hstep]
    exact ih hops

theorem results_outside {ops : List ScopeOp} {results : List (Except Diagnostic Unit)}
    (hops : ∀ op ∈ ops, op ≠ ScopeOp.push ∧ op ≠ ScopeOp.pop) (hrun : ScopeRun ops s results) :
    results = [] := by
  induction hrun with
  | nil => rfl
  | @cons op ops s s' results _ _ ih =>
    obtain ⟨hop, hops⟩ := List.forall_mem_cons.mp hops
    rw [ih hops, List.append_nil]
    cases op with
    | push => rfl
    | pop => exact absurd rfl hop.2
    | declare name kind =>
      simp only [ScopeOp.run]
      cases ClassScopes.declare name kind s' <;> rfl
    | reference name position => rfl

/-- What a whole run gives, from inside the outermost class on: by induction on the operations,
with the invariant of the scopes and all uses inside of class 0, the last of the open ones. -/
theorem Tracks.results_eq {ops : List ScopeOp} {results : List (Except Diagnostic Unit)}
    {depth : Nat} (hs : h.Sound) (ht : Tracks h s) (hdepth : h.opened.length = depth + 1)
    (hroot : h.opened.getLast? = some 0) (hinside : ∀ u ∈ h.uses, 0 ∈ u.classes)
    (hoffsets : (h.uses.map (·.position.offset) ++ ops.filterMap ScopeOp.offset?).Pairwise (· < ·))
    (hops : ScopeOp.ClosesLast (depth + 1) ops) (hrun : ScopeRun ops s results) :
    ∃ earlier, results =
      List.replicate earlier (.ok ()) ++ [(ops.foldl ScopeHistory.step h).verdict] := by
  induction ops generalizing h s depth results with
  | nil => cases hops
  | cons op ops ih =>
    obtain _ | @⟨_, _, _, s', results, hshuffled, hrest⟩ := hrun
    replace ht := ht.shuffled hshuffled
    have hs' := hs.step op
    have ht' := ht.step hs op
    obtain ⟨c, opened, hopened⟩ := List.exists_cons_of_length_eq_add_one hdepth
    rw [List.foldl_cons]
    cases op with
    | push =>
      refine ih hs' ht' (by simp [ScopeHistory.step, hdepth]) ?_ hinside hoffsets hops hrest
      rw [hopened] at hroot
      simpa [ScopeHistory.step, hopened] using hroot
    | pop =>
      cases depth with
      | zero =>
        have hlast : h.opened = [0] := by
          rw [hopened, List.length_cons, Nat.add_right_cancel_iff] at hdepth
          rw [List.length_eq_zero_iff.mp hdepth] at hopened
          rw [hopened] at hroot
          cases hroot
          exact hopened
        have hrest' := ScopeOp.closesLast_zero.mp hops
        refine ⟨0, ?_⟩
        rw [ht.run_pop_last hlast (by simpa using hinside) (List.pairwise_append.mp hoffsets).1,
          results_outside hrest' hrest,
          foldl_step_outside (by simp [ScopeHistory.step, hlast]) hrest']
        rfl
      | succ depth =>
        obtain ⟨outer, rest, rfl⟩ := List.exists_cons_of_length_eq_add_one
          (show opened.length = depth + 1 by simpa [hopened] using hdepth)
        have hstep : (h.step .pop).opened = outer :: rest := by simp [ScopeHistory.step, hopened]
        obtain ⟨earlier, hresults⟩ := @ih (h.step .pop) _ results depth hs' ht'
          (by simpa [hstep, hopened] using hdepth)
          (by rw [hopened] at hroot; simpa [hstep] using hroot) hinside hoffsets hops hrest
        refine ⟨earlier + 1, ?_⟩
        rw [ht.run_pop_inner hopened, hresults, List.replicate_succ]
        rfl
    | declare name kind =>
      have hstep : h.step (.declare name kind) =
          { h with declared := (c, name) :: h.declared } := by
        simp [ScopeHistory.step, hopened]
      have hnone : ((ScopeOp.declare name kind).run s').1 = [] := by
        simp only [ScopeOp.run]
        cases ClassScopes.declare name kind s' <;> rfl
      rw [hnone, List.nil_append]
      rw [hstep] at hs' ht' ⊢
      exact ih hs' ht' hdepth hroot hinside hoffsets hops hrest
    | reference name position =>
      have hstep : h.step (.reference name position) =
          { h with uses := h.uses ++ [⟨name, position, h.opened⟩] } := by
        simp [ScopeHistory.step, hopened]
      rw [hstep] at hs' ht' ⊢
      refine ih hs' ht' hdepth hroot ?_ ?_ hops hrest
      · intro u hu
        rcases List.mem_append.mp hu with hu | hu
        · exact hinside u hu
        · rw [List.mem_singleton.mp hu]
          exact List.mem_of_getLast? hroot
      · simpa [ScopeOp.offset?] using hoffsets

end ScopeHistory

namespace ClassScopes

theorem Shuffled.refl (s : ClassScopes) : s.Shuffled s :=
  List.forall₂_same.mpr fun _ _ => ⟨rfl, .refl _, .refl _⟩

end ClassScopes

/-- The operations in the order of the tables as they are. -/
theorem ScopeRun.runAll (ops : List ScopeOp) (s : ClassScopes) :
    ScopeRun ops s (ScopeOp.runAll ops s).1 := by
  induction ops generalizing s with
  | nil => exact .nil s
  | cons op ops ih => exact .cons (.refl s) (ih (op.run s).2)

/-- From the opening of a class to its closing, with any classes inside, every closing but the
last succeeds, and the last one reports the first use, at its position, whose name no class around
it declares; it succeeds if there is none. This holds for every order in which the tables may be
visited, and `ScopeOp.runAll` is one of these runs. -/
theorem last_closing_reports {ops : List ScopeOp} (hone : ScopeOp.OneClass ops)
    (hoffsets : (ops.filterMap ScopeOp.offset?).Pairwise (· < ·)) :
    (∀ results, ScopeRun ops {} results → ∃ earlier, results =
      List.replicate earlier (.ok ()) ++ [(ScopeHistory.ofOps ops).verdict]) ∧
    ScopeRun ops {} (ScopeOp.runAll ops {}).1 := by
  refine ⟨fun results hrun => ?_, .runAll ops {}⟩
  obtain ⟨rest, rfl, hrest⟩ := hone
  obtain _ | @⟨_, _, _, s', results, hshuffled, hrun⟩ := hrun
  have ht := ScopeHistory.Tracks.initial.shuffled hshuffled
  have hs := ScopeHistory.Sound.initial
  rw [List.filterMap_cons_none rfl] at hoffsets
  have hresults := (ht.step hs .push).results_eq (hs.step .push) rfl rfl
    (by simp [ScopeHistory.step]) (by simpa [ScopeHistory.step] using hoffsets) hrest hrun
  exact hresults

/-- A class that uses `a` and `b`, with a class inside that uses `a` and declares `b`, and
declares `a` at its end: the use of `b` is undeclared. -/
theorem last_closing_reports_outer_use :
    let ops : List ScopeOp := [.push, .reference "a" ⟨1, 2, 2⟩, .reference "b" ⟨1, 4, 4⟩, .push,
      .reference "a" ⟨1, 6, 6⟩, .declare "b" .field, .pop, .declare "a" .method, .pop]
    (∀ results, ScopeRun ops {} results → ∃ earlier, results =
      List.replicate earlier (.ok ()) ++ [(ScopeHistory.ofOps ops).verdict]) ∧
    (ScopeHistory.ofOps ops).verdict =
      .error (.located (.privateName .undeclared) ⟨1, 4, 4⟩) := by
  refine ⟨(last_closing_reports ⟨_, rfl, ?_⟩ ?_).1, ?_⟩
  · simp [ScopeOp.ClosesLast]
  · decide
  · rfl

end EcmaScript
