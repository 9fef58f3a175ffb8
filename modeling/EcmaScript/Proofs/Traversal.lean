import EcmaScript.Hooks.Recording
import EcmaScript.Proofs.Telling.Statement

/-!
The record of a parse is a traversal of its tree.

The parser calls its hooks while it reads, before it knows what it is reading: arguments may turn
out to be parameters, and an expression may turn out to be a pattern. The traversal knows the tree
and makes the calls about classes, methods and private names in the order of the source. For hooks
that accept everything, the record of a parse that succeeds is the traversal of the tree it returns:
no call is missing, none is made twice, and none is out of order.
-/

namespace EcmaScript

/-! ## The traversal -/

/-- What a node consists of: calls, and parts that have calls of their own. -/
inductive Item where
  | call (call : Call)
  | part (n : Node)

/-- The call about the private name of a class element, if it has one. -/
def ClassElement.declaring (element : ClassElement) : List Item :=
  match element.privateMember? with
  | some (name, kind) => [.call (.declare name kind (Grammar.elementSpan element).start)]
  | none => []

/-- The property of a member access: a use, if it is a private name. -/
def Expression.asProperty : Expression → Item
  | .privateName name => .call (.reference name)
  | property => .part (.expression property)

/-- The calls and parts of a node, in the order of the source. -/
def Node.items : Node → List Item
  | .expression (.member base property _ _ _) => [.part (.expression base), property.asProperty]
  | .classBody body =>
    .call .enterClass :: body.elements.map (.part ∘ .classElement) ++ [.call .exitClass]
  | .classElement element =>
    match element with
    | .method key _ f _ _ _ =>
      .part (.propertyKey key) :: element.declaring ++ [.part (.methodValue key f)]
    | .field key value _ _ _ =>
      .part (.propertyKey key) :: element.declaring ++ value.toList.map (.part ∘ .expression)
    | .staticBlock body _ => body.map (.part ∘ .statement)
  | .methodValue key f => [.call (.enterMethod key), .part (.function f), .call .exitMethod]
  | n => n.children.map .part

theorem ClassElement.part_notMem_declaring (element : ClassElement) (n : Node) :
    Item.part n ∉ element.declaring := by
  unfold declaring
  cases element.privateMember? <;> simp

theorem Expression.asProperty_eq_part {property : Expression} {n : Node}
    (h : property.asProperty = .part n) : n = .expression property := by
  cases property <;> cases h <;> rfl

/-- The parts among the items of a node are children of the node. -/
theorem Node.mem_children_of_mem_items {n m : Node} (h : .part m ∈ n.items) : m ∈ n.children := by
  unfold items at h
  split at h
  · simp only [List.mem_cons, Item.part.injEq, List.not_mem_nil, or_false] at h
    rcases h with rfl | h
    · simp
    · simp [Expression.asProperty_eq_part h.symm]
  · simpa using h
  · split at h
    · next key kind f isStatic computed span =>
      simpa [ClassElement.part_notMem_declaring] using h
    · next key value isStatic computed span =>
      simpa [ClassElement.part_notMem_declaring] using h
    · simpa using h
  · simpa using h
  · simpa using h

/-- The calls that a traversal of the node makes. -/
def Node.traversal (n : Node) : List Call :=
  n.items.attach.flatMap fun
    | ⟨.call c, _⟩ => [c]
    | ⟨.part m, _⟩ => m.traversal
termination_by sizeOf n
decreasing_by exact sizeOf_lt_of_mem_children (mem_children_of_mem_items ‹_›)

/-- The calls that the item stands for. -/
def Item.calls : Item → List Call
  | .call c => [c]
  | .part n => n.traversal

theorem Node.traversal_eq (n : Node) : n.traversal = n.items.flatMap Item.calls := by
  rw [traversal]
  have hitem : ∀ item : { item // item ∈ n.items },
      (match item with
        | ⟨.call c, _⟩ => [c]
        | ⟨.part m, _⟩ => m.traversal) = item.1.calls := by
    rintro ⟨item, hmem⟩
    cases item <;> rfl
  simp only [hitem]
  rw [List.flatMap_subtype (g := Item.calls) (fun _ _ => rfl), List.unattach_attach]

/-! ## The traversal and the account -/

/-- Whether the call is one that a traversal makes; arguments of `super` are not. -/
def Call.isTraversal : Call → Bool
  | .superCall => false
  | _ => true

namespace Account

def traversed (a : Account) : List Call := a.calls.filter Call.isTraversal

@[simp] theorem traversed_zero : (0 : Account).traversed = [] := rfl

@[simp] theorem traversed_add (a b : Account) :
    (a + b).traversed = a.traversed ++ b.traversed := by
  simp [traversed]

@[simp] theorem traversed_ofCall (call : Call) :
    (ofCall call).traversed = if call.isTraversal then [call] else [] := by
  cases call <;> rfl

@[simp] theorem traversed_deletion : deletion.traversed = [] := rfl

theorem traversed_sum {α : Type} (f : α → Account) (l : List α) :
    (l.map f).sum.traversed = l.flatMap fun a => (f a).traversed := by
  induction l with
  | nil => rfl
  | cons a l ih => simp [ih]

end Account

namespace Node

theorem traversed_account (n : Node) : n.account.traversed =
    n.opening.traversed ++ (n.children.flatMap fun c => c.account.traversed) ++
      n.closing.traversed := by
  rw [account_eq, Account.traversed_add, Account.traversed_add, Account.traversed_sum]

/-- An expression adds nothing in front of its parts, and behind them only the use of a private
name. -/
theorem traversed_expression (e : Expression) :
    (opening (.expression e)).traversed = [] ∧
      (closing (.expression e)).traversed = (e.privateProperty?.map Call.reference).toList := by
  constructor
  · simp only [opening]
    split <;> rfl
  · simp only [closing, Expression.ownAccount]
    cases e.privateProperty? with
    | some name => rfl
    | none =>
      dsimp only
      split <;> rfl

/-- A private name is told by the access or the element it belongs to. -/
theorem traversed_privateName (name : PrivateName) :
    (account (.expression (.privateName name))).traversed = [] ∧
      (account (.propertyKey (.privateName name))).traversed = [] := by
  rw [traversed_account, traversed_account]
  exact ⟨rfl, rfl⟩

theorem calls_declaring (element : ClassElement) :
    element.declaring.flatMap Item.calls = element.declaration.traversed := by
  unfold ClassElement.declaring ClassElement.declaration
  cases element.privateMember? <;> rfl

/-- The key stands in front of the declaration. Since a private key has no calls and no other key is
declared, the order of the two makes no difference. -/
theorem key_comm_declaring {element : ClassElement} {key : PropertyKey}
    (hkey : element.privateMember? = none ∨ ∃ name, key = .privateName name) :
    (account (.propertyKey key)).traversed ++ element.declaring.flatMap Item.calls =
      element.declaring.flatMap Item.calls ++ (account (.propertyKey key)).traversed := by
  rcases hkey with hnone | ⟨name, rfl⟩
  · have hdeclaring : element.declaring = [] := by
      simp only [ClassElement.declaring, hnone]
    rw [hdeclaring, List.flatMap_nil, List.append_nil, List.nil_append]
  · rw [(traversed_privateName name).2, List.append_nil, List.nil_append]

/-- If the parts of a node are traversed as they are told, so are its items. -/
theorem flatMap_calls_items (n : Node)
    (ih : ∀ m ∈ n.children, m.traversal = m.account.traversed) :
    n.items.flatMap Item.calls = n.account.traversed := by
  rw [traversed_account]
  have hparts {l : List Node} (hl : ∀ m ∈ l, m ∈ n.children) :
      (l.map Item.part).flatMap Item.calls = l.flatMap fun m => m.account.traversed := by
    rw [List.flatMap_map]
    exact List.flatMap_congr fun m hm => ih m (hl m hm)
  unfold items
  split
  · next base property computed optional span =>
    obtain ⟨hopening, hclosing⟩ := traversed_expression (.member base property computed optional span)
    rw [hopening, hclosing]
    have hbase := ih (.expression base) (by simp)
    have hproperty := ih (.expression property) (by simp)
    cases property with
    | privateName name =>
      simp [Item.calls, Expression.asProperty, hbase, (traversed_privateName name).1]
    | _ => simp [Item.calls, Expression.asProperty, hbase, hproperty]
  · next body =>
    have h := hparts (l := body.elements.map .classElement) (by simp)
    simpa [Item.calls, List.flatMap_map, List.flatMap_append, Call.isTraversal] using h
  · next element =>
    rw [show opening (.classElement element) = element.declaration from rfl,
      ← calls_declaring element]
    cases element with
    | method key kind f isStatic computed span =>
      have hkey := ih (.propertyKey key) (by simp)
      have hvalue := ih (.methodValue key f) (by simp)
      simp only [List.cons_append, List.flatMap_cons, List.flatMap_append, Item.calls, hkey]
      rw [← List.append_assoc, key_comm_declaring (by cases key <;> simp)]
      simp [hvalue]
    | field key value isStatic computed span =>
      have hkey := ih (.propertyKey key) (by simp)
      have hvalue := hparts (l := value.toList.map .expression) (by simp +contextual)
      simp only [List.cons_append, List.flatMap_cons, List.flatMap_append, Item.calls, hkey]
      rw [← List.append_assoc, key_comm_declaring (by cases key <;> simp)]
      simpa [List.flatMap_map] using hvalue
    | staticBlock body span =>
      have h := hparts (l := body.map .statement) (by simp)
      simpa [ClassElement.declaring, List.flatMap_map] using h
  · next key f =>
    have h := ih (.function f) (by simp)
    simp [Item.calls, h, Call.isTraversal]
  · next hmember hbody helement hmethod =>
    rw [hparts fun m hm => hm]
    cases n with
    | expression e =>
      obtain ⟨hopening, hclosing⟩ := traversed_expression e
      rw [hopening, hclosing]
      cases e with
      | member base property computed optional span =>
        exact absurd rfl (hmember base property computed optional span)
      | _ => simp
    | classBody body => exact absurd rfl (hbody body)
    | classElement element => exact absurd rfl (helement element)
    | methodValue key f => exact absurd rfl (hmethod key f)
    | _ => simp

/-- The traversal of a node makes the calls of its account. -/
theorem traversal_eq_traversed (n : Node) : n.traversal = n.account.traversed := by
  rw [traversal_eq]
  exact flatMap_calls_items n fun m _ => m.traversal_eq_traversed
termination_by sizeOf n
decreasing_by exact sizeOf_lt_of_mem_children ‹_›

end Node

/-! ## The record of a parse -/

def HookCall.call? : HookCall → Option Call
  | .enterClass => some .enterClass
  | .exitClass => some .exitClass
  | .declareMember name kind elementStart _ => some (.declare name kind elementStart)
  | .enterMethod key => some (.enterMethod key)
  | .exitMethod _ => some .exitMethod
  | .referenceName name _ => some (.reference name)
  | .reset | .afterUnary _ | .afterAtom _ _ => none

/-- The calls in a record that a traversal makes, first one first. -/
def CallLog.calls (log : CallLog) : List Call := log.reverse.filterMap HookCall.call?

theorem CallLog.calls_cons (call : HookCall) (log : CallLog) :
    CallLog.calls (call :: log) = CallLog.calls log ++ call.call?.toList := by
  unfold CallLog.calls
  rw [List.reverse_cons, List.filterMap_append]
  cases h : call.call? <;> simp [h]

def traversedBy (events : List Event) : List Call := (events.map Event.tally).sum.traversed

theorem traversedBy_append (events : List Event) (event : Event) :
    traversedBy (events ++ [event]) = traversedBy events ++ event.tally.traversed := by
  simp [traversedBy]

theorem traversedBy_filter_isCall (events : List Event) :
    traversedBy (events.filter Event.isCall) = traversedBy events := by
  induction events with
  | nil => rfl
  | cons event events ih =>
    rw [List.filter_cons]
    split
    · simpa [traversedBy] using ih
    · cases event <;> first | simpa [traversedBy] using ih | contradiction

namespace Recording

/-- Records every call of a parser with private names, and accepts all of them. -/
def accepting : Recording := { tokenRules := [TokenRule.privateName] }

/-- The record holds the calls of the run. -/
def Holds (calls : List Event) (_ : Unit) (log : CallLog) : Prop :=
  CallLog.calls log = traversedBy calls

theorem Holds.cons {calls : List Event} {log : CallLog} {event : Event} {call : HookCall}
    (h : Holds calls () log) (hcall : call.call?.toList = event.tally.traversed) :
    Holds (calls ++ [event]) () (call :: log) := by
  unfold Holds at h ⊢
  rw [CallLog.calls_cons, traversedBy_append, h, hcall]

/-- Hooks that record their calls answer like the permissive hooks. -/
theorem lockstep_accepting : Lockstep Hooks.permissive accepting.hooks Holds where
  enterClass h := h.cons rfl
  exitClass h := .ok () (h.cons rfl)
  declareMember _ _ _ _ h := .ok true (h.cons rfl)
  enterMethod _ h := h.cons rfl
  exitMethod _ _ h := h.cons rfl
  referenceName _ _ h := .ok true (h.cons rfl)
  afterUnary e h := .ok () (h.cons (by simp only [Event.tally]; split <;> rfl))
  afterAtom atom next h := .ok () (h.cons (by simp only [Event.tally]; split <;> rfl))

end Recording

/-- If a parse that records its calls and accepts all private names returns a program, the record
is the traversal of the program. -/
theorem recorded_calls_eq_traversal (source : String) (options : Options) (p : Program)
    (h : (Parser.ofSource source options Recording.accepting.hooks []).parse.1 = .ok p) :
    CallLog.calls
        (Parser.ofSource source options Recording.accepting.hooks []).parse.2.state.hooks =
      (Node.program p).traversal := by
  have htogether : Observed.Together Recording.Holds []
      (Parser.ofSource source options .permissive ()).run
      (Parser.ofSource source options Recording.accepting.hooks []).run :=
    Recording.lockstep_accepting.together _ _ ⟨rfl, rfl, rfl⟩
  have htally := @Parser.tally_run (.ofSource source options .permissive ()) rfl p
  rw [Parser.parse_eq_run] at h htally ⊢
  rw [Node.traversal_eq_traversed]
  generalize (Parser.ofSource source options .permissive ()).run = o at htogether htally
  generalize (Parser.ofSource source options Recording.accepting.hooks []).run = o' at htogether h ⊢
  obtain ⟨result, events⟩ := o
  obtain ⟨result', events'⟩ := o'
  cases htogether with
  | ok program related =>
    cases h
    have hholds := related.hooks
    rw [Recording.Holds, List.nil_append, traversedBy_filter_isCall, traversedBy, htally rfl]
      at hholds
    exact hholds
  | error failure related => cases h

/-- A class in a heritage, uses in a computed key, in a parameter, in a literal that is re-read as a
pattern, and in arguments that might have been parameters. -/
theorem recorded_calls_of_covered_uses :
    ∃ p, (Parser.ofSource
        "class A extends class {#b} {static #x; [this.#x]; #m(c = this.#x) {[c.#x] = async(c.#m)}}"
        {} Recording.accepting.hooks []).parse.1 = .ok p ∧
      (Node.program p).traversal.length = 13 := by
  generalize hparser : Parser.ofSource _ {} Recording.accepting.hooks [] = parser
  have hlength : (CallLog.calls parser.parse.2.state.hooks).length = 13 := by
    rw [← hparser]
    decide +kernel
  have hok : parser.parse.1.isOk = true := by
    rw [← hparser]
    decide +kernel
  cases hparse : parser.parse.1 with
  | error failure =>
    rw [hparse] at hok
    cases hok
  | ok p =>
    refine ⟨p, rfl, ?_⟩
    rw [← hparser] at hparse hlength
    rw [← recorded_calls_eq_traversal _ _ p hparse]
    exact hlength

end EcmaScript
