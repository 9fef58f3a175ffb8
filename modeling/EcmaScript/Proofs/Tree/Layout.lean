import EcmaScript.Grammar.Class
import EcmaScript.Proofs.Tree.Node

/-!
How the spans of a tree lie.

A node without a span of its own extends over the spans of its parts (`Node.extents`). The children
of a node are in order between two offsets (`InOrder`) if each extends over characters behind those
of the children in front of it. A node is laid out if its children are in order within its span;
only the key and the value of a shorthand property begin together.
-/

namespace EcmaScript

/-- Source range of a property of an object literal. -/
def ObjectProperty.span : ObjectProperty → Span
  | .property _ _ _ _ _ _ span | .spread _ span => span

/-- The span is not empty and lies between two offsets. -/
structure Span.LiesIn (span : Span) (low high : Nat) : Prop where
  low_le : low ≤ span.start.offset
  start_lt_stop : span.start.offset < span.stop.offset
  le_high : span.stop.offset ≤ high

theorem Span.LiesIn.mono {span : Span} {low low' high high' : Nat} (h : span.LiesIn low high)
    (hlow : low' ≤ low) (hhigh : high ≤ high') : span.LiesIn low' high' :=
  ⟨Nat.le_trans hlow h.low_le, h.start_lt_stop, Nat.le_trans h.le_high hhigh⟩

namespace Node

@[simp] def span? : Node → Option Span
  | .program p => some p.span
  | .statement s => some s.span
  | .expression e => some e.span
  | .objectProperty property => some property.span
  | .propertyKey key => some key.span
  | .pattern p => some p.span
  | .function f => some f.span
  | .class_ c => some c.span
  | .classBody body => some body.span
  | .classElement element => some (Grammar.elementSpan element)
  | .declarator _ | .forInit _ | .forTarget _ | .catchClause _ | .switchCase _
  | .assignmentTarget _ | .patternProperty _ | .arrowBody _ | .methodValue _ _ => none

/-- The span of the node or, if it has none, those that its parts extend over. -/
def extents (n : Node) : List Span :=
  match n.span? with
  | some span => [span]
  | none => n.children.attach.flatMap fun ⟨c, _⟩ => c.extents
termination_by sizeOf n
decreasing_by exact sizeOf_lt_of_mem_children ‹_›

theorem extents_of_span {n : Node} {span : Span} (h : n.span? = some span) :
    n.extents = [span] := by
  rw [extents, h]

theorem extents_of_no_span {n : Node} (h : n.span? = none) :
    n.extents = n.children.flatMap extents := by
  rw [extents, h]
  simp

/-- The node extends over characters between two offsets. -/
structure LiesIn (n : Node) (low high : Nat) : Prop where
  low_le_high : low ≤ high
  extents : ∀ span ∈ n.extents, span.LiesIn low high

/-- All characters of the one node stand in front of those of the other one. -/
def Precedes (a b : Node) : Prop :=
  ∀ s ∈ a.extents, ∀ t ∈ b.extents, s.stop.offset ≤ t.start.offset

variable {n : Node} {low low' high high' : Nat}

theorem LiesIn.mono (h : n.LiesIn low high) (hlow : low' ≤ low) (hhigh : high ≤ high') :
    n.LiesIn low' high' :=
  ⟨Nat.le_trans hlow (Nat.le_trans h.low_le_high hhigh),
    fun span hspan => (h.extents span hspan).mono hlow hhigh⟩

theorem liesIn_iff_of_span {span : Span} (h : n.span? = some span) :
    n.LiesIn low high ↔ span.LiesIn low high := by
  constructor
  · intro hn
    exact hn.extents span (by rw [extents_of_span h]; exact List.mem_singleton_self span)
  · intro hspan
    have hlow := hspan.low_le
    have hless := hspan.start_lt_stop
    have hhigh := hspan.le_high
    refine ⟨by omega, fun other hother => ?_⟩
    rw [extents_of_span h, List.mem_singleton] at hother
    rw [hother]
    exact hspan

end Node

/-- The nodes extend over characters between two offsets, each behind the ones in front of it. -/
def InOrder (low : Nat) : List Node → Nat → Prop
  | [], high => low ≤ high
  | n :: others, high => ∃ middle, n.LiesIn low middle ∧ InOrder middle others high

namespace InOrder

variable {nodes others : List Node} {n : Node} {low low' high high' : Nat}

theorem singleton : InOrder low [n] high ↔ n.LiesIn low high := by
  constructor
  · rintro ⟨middle, hn, hle⟩
    exact hn.mono (Nat.le_refl low) hle
  · intro hn
    exact ⟨high, hn, Nat.le_refl high⟩

theorem le (h : InOrder low nodes high) : low ≤ high := by
  induction nodes generalizing low with
  | nil => exact h
  | cons n nodes ih =>
    obtain ⟨middle, hn, hnodes⟩ := h
    exact Nat.le_trans hn.low_le_high (ih hnodes)

theorem append :
    InOrder low (nodes ++ others) high ↔
      ∃ middle, InOrder low nodes middle ∧ InOrder middle others high := by
  induction nodes generalizing low with
  | nil =>
    constructor
    · intro h
      exact ⟨low, Nat.le_refl low, h⟩
    · rintro ⟨middle, hle, h⟩
      cases others with
      | nil => exact Nat.le_trans hle h
      | cons n others =>
        obtain ⟨behind, hn, hothers⟩ := h
        exact ⟨behind, hn.mono hle (Nat.le_refl _), hothers⟩
  | cons n nodes ih =>
    constructor
    · rintro ⟨behind, hn, h⟩
      obtain ⟨middle, hnodes, hothers⟩ := ih.1 h
      exact ⟨middle, ⟨behind, hn, hnodes⟩, hothers⟩
    · rintro ⟨middle, ⟨behind, hn, hnodes⟩, hothers⟩
      exact ⟨behind, hn, ih.2 ⟨middle, hnodes, hothers⟩⟩

theorem mono (h : InOrder low nodes high) (hlow : low' ≤ low) (hhigh : high ≤ high') :
    InOrder low' nodes high' := by
  -- Nothing in front and nothing behind stretch over the offsets that are gained.
  have hfront : InOrder low' ([] ++ nodes) high := append.2 ⟨low, hlow, h⟩
  have hbehind : InOrder low' (([] ++ nodes) ++ []) high' := append.2 ⟨high, hfront, hhigh⟩
  simpa using hbehind

theorem liesIn (h : InOrder low nodes high) : ∀ c ∈ nodes, c.LiesIn low high := by
  induction nodes generalizing low with
  | nil => exact fun c hc => by cases hc
  | cons n nodes ih =>
    obtain ⟨middle, hn, hnodes⟩ := h
    have hle := hnodes.le
    intro c hc
    rcases List.mem_cons.1 hc with rfl | hc
    · exact hn.mono (Nat.le_refl low) hle
    · exact (ih hnodes c hc).mono hn.low_le_high (Nat.le_refl high)

/-- Nodes in order stand one in front of the other. -/
theorem pairwise (h : InOrder low nodes high) : nodes.Pairwise Node.Precedes := by
  induction nodes generalizing low with
  | nil => exact .nil
  | cons n nodes ih =>
    obtain ⟨middle, hn, hnodes⟩ := h
    refine .cons (fun c hc s hs t ht => ?_) (ih hnodes)
    have hstop := (hn.extents s hs).le_high
    have hstart := ((hnodes.liesIn c hc).extents t ht).low_le
    omega

/-- A node without a span lies where its children do. -/
theorem liesIn_of_children (hspan : n.span? = none) (h : InOrder low n.children high) :
    n.LiesIn low high := by
  refine ⟨h.le, fun span hmem => ?_⟩
  rw [Node.extents_of_no_span hspan] at hmem
  obtain ⟨c, hc, hmem⟩ := List.mem_flatMap.1 hmem
  exact (h.liesIn c hc).extents span hmem

end InOrder

namespace Node

/-- Whether the node is a property that is a name alone, perhaps with a default value. -/
def isShorthand : Node → Bool
  | .objectProperty (.property _ _ _ _ shorthand _ _) => shorthand
  | .patternProperty property => property.shorthand
  | _ => false

/-- The children of the node lie between two offsets: in order, unless the node is a shorthand
property, of which the key and the value begin together. -/
structure ArrangedIn (n : Node) (low high : Nat) : Prop where
  liesIn : ∀ c ∈ n.children, c.LiesIn low high
  inOrder : n.isShorthand = false → InOrder low n.children high
  same_start : n.isShorthand = true →
    ∀ c ∈ n.children, ∀ d ∈ n.children, c.span?.map (·.start) = d.span?.map (·.start)

/-- The children of the node are arranged within its span, if it has one. -/
def IsLaidOut (n : Node) : Prop :=
  match n.span? with
  | some span => n.ArrangedIn span.start.offset span.stop.offset
  | none => ∃ low high, n.ArrangedIn low high

/-- Whether the node is a program, which alone may be empty. -/
def isProgram : Node → Bool
  | .program _ => true
  | _ => false

variable {n : Node} {low high : Nat}

theorem ArrangedIn.ofInOrder (hshorthand : n.isShorthand = false)
    (h : InOrder low n.children high) : n.ArrangedIn low high where
  liesIn := h.liesIn
  inOrder _ := h
  same_start htrue := by
    rw [hshorthand] at htrue
    cases htrue

/-- In a tree of nodes that are laid out, a node extends over characters within the nearest span
around it. -/
theorem extents_liesIn_outer {root : Node} {path : List Node}
    (hlaid : ∀ path n, Occurs root path n → n.IsLaidOut) (h : Occurs root path n) {outer : Span}
    (houter : path.findSome? span? = some outer) :
    ∀ span ∈ n.extents, span.LiesIn outer.start.offset outer.stop.offset := by
  -- Without a span of its own, the node above extends over all that its children extend over, so
  -- what is known of it from further up holds of each child.
  induction h with
  | here => cases houter
  | @child path m c hm hc ih =>
    have hlaidOut := hlaid path m hm
    cases hspan : m.span? with
    | some span =>
      rw [List.findSome?_cons_of_isSome (by rw [hspan]; rfl), hspan] at houter
      cases houter
      unfold IsLaidOut at hlaidOut
      rw [hspan] at hlaidOut
      exact (hlaidOut.liesIn c hc).extents
    | none =>
      rw [List.findSome?_cons_of_isNone (by rw [hspan]; rfl)] at houter
      intro span hmem
      refine ih houter span ?_
      rw [extents_of_no_span hspan]
      exact List.mem_flatMap.2 ⟨c, hc, hmem⟩

end Node

end EcmaScript
