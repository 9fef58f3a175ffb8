import EcmaScript.Proofs.Survey.Law
import EcmaScript.Proofs.Tree.Assigned
import EcmaScript.Proofs.Tree.Shape

/-!
Trees that are well formed in every respect.

A node is lawful if it may stand in its surroundings, if its children are such as may stand in their
places, if what it assigns to and binds is as it must be, if its span is exact and its children are
laid out within it, and if it is as it must be for the source it is read from. A tree is formed if
all of its nodes are lawful. What concerns positions is left out where the scanning rules or the
hooks may make up positions of their own; a survey says whether that is so.
-/

namespace EcmaScript

namespace Survey

variable {σ α β : Type} (S : Survey σ)

def Exact (p : Position) : Prop := S.positioned → p.IsExact S.source

def Located (d : Diagnostic) : Prop := S.positioned → d.IsExact S.source

/-- The span is not empty, its ends are exact, and the nodes lie in order within it, if positions
are followed. -/
structure Covers (span : Span) (nodes : List Node) : Prop where
  start : S.Exact span.start
  stop : S.Exact span.stop
  nonempty : S.positioned → span.start.offset < span.stop.offset
  inOrder : S.positioned → InOrder span.start.offset nodes span.stop.offset

/-- What is asked of a node in the code that it stands in, the source apart. -/
structure WellFormed (enclosures : List Enclosure) (n : Node) : Prop where
  allowed : n.isAllowedIn enclosures
  shaped : n.IsShaped
  exact : ∀ span, n.span? = some span → S.Exact span.start ∧ S.Exact span.stop
  nonempty : S.positioned → n.isProgram = false → ∀ span, n.span? = some span →
    span.start.offset < span.stop.offset
  laidOut : S.positioned → n.IsLaidOut
  settable : n.IsSettable

/-- What is asked of a node by itself. -/
structure Lawful (around : List Node.Step) (usage : Node.Usage) (n : Node) : Prop
    extends S.WellFormed (Node.enclosures around) n where
  proper : S.Proper around usage n

/-- All nodes of the tree are lawful in their surroundings, and as what they are used as. -/
inductive FormedAs : List Node.Step → Node.Usage → Node → Prop where
  | mk {around : List Node.Step} {usage : Node.Usage} {n : Node} (lawful : S.Lawful around usage n)
      (parts : ∀ p ∈ n.parts usage, FormedAs (p.step.toList ++ around) p.usage p.node) :
      FormedAs around usage n

abbrev Formed (around : List Node.Step) (n : Node) : Prop := S.FormedAs around .ordinary n

def plain (nodes : List Node) : List Node.Part := nodes.map (.here .ordinary)

def AllFormed (around : List Node.Step) (ps : List Node.Part) : Prop :=
  ∀ p ∈ ps, S.FormedAs (p.step.toList ++ around) p.usage p.node

variable {S} {around : List Node.Step} {usage : Node.Usage} {n m : Node} {span : Span}

@[simp] theorem map_node_plain (nodes : List Node) : (plain nodes).map Node.Part.node = nodes := by
  rw [plain, List.map_map]
  exact List.map_id _

theorem allFormed_plain {nodes : List Node} :
    S.AllFormed around (plain nodes) ↔ ∀ n ∈ nodes, S.Formed around n := by
  unfold AllFormed plain
  exact List.forall_mem_map

namespace FormedAs

theorem lawful (h : S.FormedAs around usage n) : S.Lawful around usage n := by
  cases h with
  | mk lawful _ => exact lawful

theorem parts (h : S.FormedAs around usage n) : S.AllFormed around (n.parts usage) := by
  cases h with
  | mk _ parts => exact parts

/-- The children of a node that leads into nothing and has ordinary parts. -/
theorem children (h : S.FormedAs around usage n) (hplain : n.parts usage = plain n.children) :
    ∀ c ∈ n.children, S.Formed around c := by
  have hparts := h.parts
  rwa [hplain, allFormed_plain] at hparts

/-- What occurs in a tree that is formed is formed behind the steps to it. -/
theorem occurs {root : Node} {path : List Node} {steps : List Node.Step}
    (h : S.Formed around root) (hn : Node.OccursAs root path steps usage n) :
    S.FormedAs (steps ++ around) usage n := by
  induction hn with
  | here => exact h
  | part _ hp ih =>
    rw [List.append_assoc]
    exact ih.parts _ hp

theorem start (h : S.FormedAs around usage n) (hspan : n.span? = some span) : S.Exact span.start :=
  (h.lawful.exact span hspan).1

/-- The span of a formed node covers its children. -/
theorem covers (h : S.FormedAs around usage n) (hspan : n.span? = some span)
    (hshorthand : n.isShorthand = false) (hprogram : n.isProgram = false) :
    S.Covers span n.children where
  start := (h.lawful.exact span hspan).1
  stop := (h.lawful.exact span hspan).2
  nonempty hpositioned := h.lawful.nonempty hpositioned hprogram span hspan
  inOrder hpositioned := by
    have hlaid := h.lawful.laidOut hpositioned
    unfold Node.IsLaidOut at hlaid
    rw [hspan] at hlaid
    exact hlaid.inOrder hshorthand

/-- A node whose span covers its children. -/
theorem spanned (hspan : n.span? = some span) (hshorthand : n.isShorthand = false)
    (hallowed : n.isAllowedIn (Node.enclosures around)) (hshaped : n.IsShaped)
    (hcovers : S.Covers span n.children) (hparts : S.AllFormed around (n.parts usage))
    (hsettable : n.IsSettable := by exact ⟨trivial, trivial⟩)
    (hproper : S.Proper around usage n := by exact ⟨trivial, trivial, fun _ => trivial⟩) :
    S.FormedAs around usage n := by
  refine .mk ⟨⟨hallowed, hshaped, ?_, ?_, ?_, hsettable⟩, hproper⟩ hparts
  · intro other hother
    rw [hspan] at hother
    cases hother
    exact ⟨hcovers.start, hcovers.stop⟩
  · intro hpositioned _ other hother
    rw [hspan] at hother
    cases hother
    exact hcovers.nonempty hpositioned
  · intro hpositioned
    unfold Node.IsLaidOut
    rw [hspan]
    exact .ofInOrder hshorthand (hcovers.inOrder hpositioned)

/-- A node without a span of its own. -/
theorem spanless (hspan : n.span? = none) (hshorthand : n.isShorthand = false)
    (hallowed : n.isAllowedIn (Node.enclosures around)) (hshaped : n.IsShaped)
    (hinOrder : S.positioned → ∃ low high, InOrder low n.children high)
    (hparts : S.AllFormed around (n.parts usage))
    (hsettable : n.IsSettable := by exact ⟨trivial, trivial⟩)
    (hproper : S.Proper around usage n := by exact ⟨trivial, trivial, fun _ => trivial⟩) :
    S.FormedAs around usage n := by
  refine .mk ⟨⟨hallowed, hshaped, ?_, ?_, ?_, hsettable⟩, hproper⟩ hparts
  · intro other hother
    rw [hspan] at hother
    cases hother
  · intro _ _ other hother
    rw [hspan] at hother
    cases hother
  · intro hpositioned
    unfold Node.IsLaidOut
    rw [hspan]
    obtain ⟨low, high, h⟩ := hinOrder hpositioned
    exact ⟨low, high, .ofInOrder hshorthand h⟩

end FormedAs

end Survey

end EcmaScript
