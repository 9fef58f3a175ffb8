import EcmaScript.Proofs.Procedure
import EcmaScript.Proofs.Tree.Node

/-!
What surrounds a node, read off the tree.

The step from a node to one of its children may lead into code with rules of its own: the body of a
loop, the cases of a switch, a function with its parameters, the body of an arrow function, the
initializer of a field, a static block. The surroundings of a node are these steps, innermost first.
They decide whether a `return`, a jump without a label, a `yield`, an `await` or a `super` may stand
there (`Node.isAllowedIn`).

A parser knows its surroundings only through a context. `Context.Grants` says that the context does
not allow more than the surroundings do; entering a region keeps it so.
-/

namespace EcmaScript

/-- Code with rules of its own about jumps, operators and `super`. -/
inductive Enclosure where
  | loopBody
  | switchBody
  /-- A function with its parameters. -/
  | function (isAsync isGenerator : Bool)
  /-- The body of an arrow function, without its parameters. -/
  | arrow (isAsync : Bool)
  | fieldInitializer
  | staticBlock
deriving DecidableEq

namespace Enclosure

/-- Whether `return` can end the code. -/
def isFunction : Enclosure → Bool
  | .function _ _ | .arrow _ => true
  | _ => false

/-- Whether the code has a generator, an async function or a `super` of its own. -/
def isBody : Enclosure → Bool
  | .loopBody | .switchBody => false
  | _ => true

/-- Whether no jump leads out of the code. -/
def holdsJumps : Enclosure → Bool
  | .function _ _ | .arrow _ | .staticBlock => true
  | _ => false

/-- Whether a function or the body of an arrow function is around, with no static block in
between. -/
def allowReturn (around : List Enclosure) : Bool :=
  (around.takeWhile (· != .staticBlock)).any isFunction

/-- The surroundings within the same function, arrow function or static block. -/
def inSameCode (around : List Enclosure) : List Enclosure :=
  around.takeWhile (!·.holdsJumps)

/-- Whether a loop body or a switch is around in the same code. -/
def allowBreak (around : List Enclosure) : Bool :=
  (inSameCode around).any fun e => e == .loopBody || e == .switchBody

/-- Whether a loop body is around in the same code. -/
def allowContinue (around : List Enclosure) : Bool :=
  (inSameCode around).any (· == .loopBody)

/-- Whether the code is directly in a generator. -/
def allowYield (around : List Enclosure) : Bool :=
  match around.find? isBody with
  | some (.function _ isGenerator) => isGenerator
  | _ => false

/-- Whether the code is directly in an async function or async arrow function. -/
def allowAwait (around : List Enclosure) : Bool :=
  match around.find? isBody with
  | some (.function isAsync _) | some (.arrow isAsync) => isAsync
  | _ => false

/-- Whether a function, an arrow function, a field initializer or a static block is around. -/
def allowSuper (around : List Enclosure) : Bool := around.any isBody

end Enclosure

namespace Node

/-- What the step from a node to its child leads into. -/
def enclosure? : Node → Node → Option Enclosure
  | .statement (.while _ _ _), .statement _ | .statement (.doWhile _ _ _), .statement _
  | .statement (.for_ _ _ _ _ _), .statement _ | .statement (.forIn _ _ _ _), .statement _
  | .statement (.forOf _ _ _ _), .statement _ => some .loopBody
  | .statement (.switch _ _ _), .switchCase _ => some .switchBody
  | .statement (.function _ f), _ | .expression (.function _ f), _ | .methodValue _ f, _ =>
    some (.function f.isAsync f.isGenerator)
  | .expression (.arrow _ _ isAsync _), .arrowBody _ => some (.arrow isAsync)
  | .classElement (.field _ _ _ _ _), .expression _ => some .fieldInitializer
  | .classElement (.staticBlock _ _), _ => some .staticBlock
  | _, _ => none

/-- The surroundings of a node that stands inside the nodes of `path`, innermost first. -/
def surroundings : List Node → Node → List Enclosure
  | [], _ => []
  | parent :: path, n => (parent.enclosure? n).toList ++ surroundings path parent

/-- Whether the node may stand in the surroundings, whatever its parts are. -/
def isAllowedIn (around : List Enclosure) : Node → Bool
  | .statement (.return_ _ _) => Enclosure.allowReturn around
  | .statement (.break_ none _) => Enclosure.allowBreak around
  | .statement (.continue_ none _) => Enclosure.allowContinue around
  | .expression (.yield _ _ _) => Enclosure.allowYield around
  | .expression (.await _ _) => Enclosure.allowAwait around
  | .expression (.super _) => Enclosure.allowSuper around
  | _ => true

end Node

/-- The context allows nothing that the surroundings do not; `yield` and `await` are operators where
the surroundings make them so. -/
structure Context.Grants (context : Context) (around : List Enclosure) : Prop where
  allowReturn : context.allowsReturn → Enclosure.allowReturn around
  allowBreak : context.allowsBreak → Enclosure.allowBreak around
  allowContinue : context.allowsContinue → Enclosure.allowContinue around
  allowYield : context.inGenerator → Enclosure.allowYield around
  allowAwait : context.inAsync → Enclosure.allowAwait around
  allowSuper : context.allowsSuper → Enclosure.allowSuper around
  inGenerator : Enclosure.allowYield around → context.inGenerator
  inAsync : Enclosure.allowAwait around → context.inAsync

/-- What a region of the parser is in the tree, if it is anything there. -/
def Region.enclosure? : Region → Option Enclosure
  | .loopBody => some .loopBody
  | .switchBody => some .switchBody
  | .function isAsync isGenerator _ => some (.function isAsync isGenerator)
  | .arrow isAsync => some (.arrow isAsync)
  | .fieldInitializer => some .fieldInitializer
  | .staticBlock => some .staticBlock
  | .classCode | .brackets | .loopHead => none

namespace Context.Grants

variable {context : Context} {around : List Enclosure}

/-- Nothing is allowed in front of a program. -/
theorem initial (strict : Bool) : Context.Grants { strict } [] where
  allowReturn h := absurd h Bool.false_ne_true
  allowBreak h := absurd h Bool.false_ne_true
  allowContinue h := absurd h Bool.false_ne_true
  allowYield h := absurd h Bool.false_ne_true
  allowAwait h := absurd h Bool.false_ne_true
  allowSuper h := absurd h Bool.false_ne_true
  inGenerator h := absurd h Bool.false_ne_true
  inAsync h := absurd h Bool.false_ne_true

/-- Entering a region adds what the region is in the tree to the surroundings, and no more to the
context. -/
theorem enter (h : context.Grants around) (region : Region) :
    (region.enter context).Grants (region.enclosure?.toList ++ around) := by
  obtain ⟨hreturn, hbreak, hcontinue, hyield, hawait, hsuper, hgenerator, hasync⟩ := h
  cases region with
  | classCode | brackets | loopHead =>
    exact ⟨hreturn, hbreak, hcontinue, hyield, hawait, hsuper, hgenerator, hasync⟩
  | loopBody =>
    exact ⟨hreturn, fun _ => rfl, fun _ => rfl, hyield, hawait, hsuper, hgenerator, hasync⟩
  | switchBody => exact ⟨hreturn, fun _ => rfl, hcontinue, hyield, hawait, hsuper, hgenerator, hasync⟩
  | function isAsync isGenerator isMethod =>
    refine ⟨fun _ => rfl, ?_, ?_, fun h => h, fun h => h, fun _ => rfl, fun h => h, fun h => h⟩
    all_goals exact fun h => absurd h Bool.false_ne_true
  | arrow isAsync =>
    refine ⟨fun _ => rfl, ?_, ?_, ?_, fun h => h, fun _ => rfl, ?_, fun h => h⟩
    all_goals exact fun h => absurd h Bool.false_ne_true
  | fieldInitializer =>
    refine ⟨hreturn, hbreak, hcontinue, ?_, ?_, fun _ => rfl, ?_, ?_⟩
    all_goals exact fun h => absurd h Bool.false_ne_true
  | staticBlock =>
    refine ⟨?_, ?_, ?_, ?_, ?_, fun _ => rfl, ?_, ?_⟩
    all_goals exact fun h => absurd h Bool.false_ne_true

end Context.Grants

end EcmaScript
