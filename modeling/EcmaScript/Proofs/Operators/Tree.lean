import EcmaScript.Proofs.Locality
import EcmaScript.Proofs.Operators.Rule
import EcmaScript.Proofs.Tree.Bare
import EcmaScript.Proofs.WellFormed

/-!
Operators round trip.

A tree of binary and logical operators over names is printed with no more parentheses than the
precedences ask for. Reading the text gives the tree back: an operand reads as itself in front of
whatever may follow one, a left operand as a value with which the loop over the operators goes on,
a right one up to the operators that do not belong to it.
-/

namespace EcmaScript

def InfixOperator.spelling (operator : InfixOperator) : String :=
  match operator.token with
  | .punctuator symbol => symbol.spelling
  | .keyword word => word.spelling
  | _ => ""

/-- A tree of binary and logical operators over names. -/
inductive OperatorTree where
  | name (word : String)
  | node (operator : InfixOperator) (left right : OperatorTree)

namespace OperatorTree

/-- The expression that the tree is, up to spans. -/
def toExpression : OperatorTree → Expression
  | .name word => .identifier word (.empty .start)
  | .node operator left right =>
    operator.join left.toExpression right.toExpression (.empty .start)

/-- The names at the leaves. -/
def names : OperatorTree → List String
  | .name word => [word]
  | .node _ left right => left.names ++ right.names

def operator? : OperatorTree → Option InfixOperator
  | .name _ => none
  | .node operator _ _ => some operator

/-- Whether a left operand with the operator `inner` stands in parentheses. -/
def bracketsLeft (outer inner : InfixOperator) : Bool :=
  inner.precedence < outer.precedence ||
    inner.precedence == outer.precedence && outer == .binary .exp

/-- Whether a right operand with the operator `inner` stands in parentheses. -/
def bracketsRight (outer inner : InfixOperator) : Bool :=
  inner.precedence < outer.precedence ||
    inner.precedence == outer.precedence && outer != .binary .exp

def bracketed (brackets : Bool) (text : String) : String :=
  if brackets then "(" ++ text ++ ")" else text

/-- The tokens in parentheses, if `brackets` says so. -/
def bracketedLexemes (brackets : Bool) (inside : List Lexeme) : List Lexeme :=
  if brackets then .of (.punctuator .lParen) :: inside ++ [.of (.punctuator .rParen)] else inside

/-- The text of the tree. -/
def print : OperatorTree → String
  | .name word => word
  | .node operator left right =>
    bracketed (left.operator?.any (bracketsLeft operator)) left.print ++ " " ++
      operator.spelling ++ " " ++
      bracketed (right.operator?.any (bracketsRight operator)) right.print

example : (node (.binary .exp) (node (.binary .exp) (name "a") (name "b"))
    (node (.binary .exp) (name "c") (node (.binary .add) (name "d") (name "e")))).print =
    "(a ** b) ** c ** (d + e)" := by
  decide

def lexemes : OperatorTree → List Lexeme
  | .name word => [.of (.identifier word false)]
  | .node operator left right =>
    bracketedLexemes (left.operator?.any (bracketsLeft operator)) left.lexemes ++
      .of operator.token ::
        bracketedLexemes (right.operator?.any (bracketsRight operator)) right.lexemes

def IsReadAs (tree : OperatorTree) (e : Expression) : Prop := e.bare = tree.toExpression

/-- The names of the tree are identifiers where the tree stands, and `in` is an operator there. -/
structure FitsIn (tree : OperatorTree) (context : Context) (goal : Goal) : Prop where
  inAllowed : context.inForInit = false
  names : ∀ word ∈ tree.names, rejectWord? word context.strict goal = none

end OperatorTree

/-! ## Operands -/

def Token.endsOperand : Token → Bool
  | .punctuator .rParen | .punctuator .semicolon | .endOfInput => true
  | token => (InfixOperator.ofToken? true token).isSome

def Expression.isOperation : Expression → Bool
  | .identifier _ _ | .binary _ _ _ _ | .logical _ _ _ _ => true
  | _ => false

def Hooks.PassOperations {σ : Type} (hooks : Hooks σ) (atRest : σ → Prop) : Prop :=
  ∀ e, e.isOperation = true → hooks.LetsPass atRest e

theorem OperatorTree.IsReadAs.join {left right : OperatorTree} {e e' : Expression}
    (he : left.IsReadAs e) (he' : right.IsReadAs e') (operator : InfixOperator) (span : Span) :
    (OperatorTree.node operator left right).IsReadAs (operator.join e e' span) := by
  unfold IsReadAs at he he' ⊢
  rw [toExpression, ← he, ← he']
  cases operator <;> rfl

theorem Expression.isArrow_of_isOperation {e : Expression} (h : e.isOperation = true) :
    e.isArrow = false := by
  cases e <;> first | rfl | cases h

theorem OperatorTree.IsReadAs.isOperation {tree : OperatorTree} {e : Expression}
    (h : tree.IsReadAs e) : e.isOperation = true := by
  have hbare : e.bare.isOperation = e.isOperation := by cases e <;> rfl
  rw [← hbare, h]
  cases tree with
  | name word => rfl
  | node operator left right => cases operator <;> rfl

theorem Token.ne_of_endsOperand {token other : Token} (h : token.endsOperand = true)
    (hother : other.endsOperand = false) : token ≠ other := by
  rintro rfl
  rw [h] at hother
  cases hother

theorem Token.updateOperator_of_endsOperand {token : Token} (h : token.endsOperand = true) :
    UpdateOperator.ofToken? token = none := by
  unfold UpdateOperator.ofToken?
  split <;> first | rfl | cases h

theorem Token.assignmentOperator_of_endsOperand {token : Token} (h : token.endsOperand = true) :
    AssignmentOperator.ofToken? token = none := by
  unfold AssignmentOperator.ofToken?
  split <;> first | rfl | cases h

theorem Token.opensSubscript_of_endsOperand {token : Token} (h : token.endsOperand = true) :
    token.opensSubscript = false := by
  unfold opensSubscript
  split <;> first | rfl | cases h

/-! ## Operators between operands -/

namespace InfixOperator

theorem endsOperand_token (operator : InfixOperator) : operator.token.endsOperand = true := by
  rcases operator with operator | operator <;> cases operator <;> rfl

theorem precedence_le_rightPrecedence (operator : InfixOperator) :
    operator.precedence ≤ operator.rightPrecedence := by
  unfold rightPrecedence
  split <;> omega

theorem eq_exp_of_precedence {operator : InfixOperator} (h : 11 ≤ operator.precedence) :
    operator = .binary .exp := by
  rcases operator with operator | operator <;> cases operator <;>
    first | rfl | exact absurd h (by decide)

end InfixOperator

namespace OperatorTree

/-- Without parentheses the operator of a left operand binds at least as tight, and what is behind
the operand does not belong to it. -/
theorem precedence_of_bracketsLeft {outer inner : InfixOperator}
    (h : bracketsLeft outer inner = false) :
    outer.precedence ≤ inner.precedence ∧ outer.precedence < inner.rightPrecedence := by
  rw [bracketsLeft, Bool.or_eq_false_iff, decide_eq_false_iff_not, Nat.not_lt,
    Bool.and_eq_false_iff, beq_eq_false_iff_ne, beq_eq_false_iff_ne] at h
  obtain ⟨hle, hsame⟩ := h
  refine ⟨hle, ?_⟩
  unfold InfixOperator.rightPrecedence
  split
  · next hexp =>
    obtain rfl : inner = .binary .exp := beq_iff_eq.1 hexp
    refine Nat.lt_of_not_le fun hge => ?_
    obtain rfl := InfixOperator.eq_exp_of_precedence hge
    exact hsame.elim (absurd rfl) (absurd rfl)
  · exact Nat.lt_succ_of_le hle

/-- Without parentheses the operator of a right operand binds tight enough to be read there. -/
theorem rightPrecedence_of_bracketsRight {outer inner : InfixOperator}
    (h : bracketsRight outer inner = false) : outer.rightPrecedence ≤ inner.precedence := by
  rw [bracketsRight, Bool.or_eq_false_iff, decide_eq_false_iff_not, Nat.not_lt,
    Bool.and_eq_false_iff, beq_eq_false_iff_ne, bne_eq_false_iff_eq] at h
  obtain ⟨hle, hsame⟩ := h
  unfold InfixOperator.rightPrecedence
  split
  · exact hle
  · next hexp =>
    rcases hsame with hne | heq
    · exact Nat.lt_of_le_of_ne hle (Ne.symm hne)
    · exact absurd (beq_iff_eq.2 heq) hexp

end OperatorTree

namespace OperatorTree

section

variable {σ : Type} {atRest : σ → Prop} {options : Options} {hooks : Hooks σ} {bound : Nat}
  {context : Context} {first next : Lexeme} {lexemes rest rest' : List Lexeme} {g : Grammar σ}

open Grammar Parses

/-- A tree reads as itself where operators of at least the given precedence are read, and in front
of one that binds looser. -/
def ReadsIn (atRest : σ → Prop) (tree : OperatorTree) (g : Grammar σ) (context : Context) : Prop :=
  ∀ least next rest, (∀ operator ∈ tree.operator?, least ≤ operator.precedence) →
    next.token.endsOperand = true → next.token.BindsLooser least →
    Parses atRest (g.binaryRule least) context (tree.lexemes ++ next :: rest) tree.IsReadAs
      (next :: rest)

theorem exists_lexemes (tree : OperatorTree) :
    ∃ first lexemes, tree.lexemes = .of first :: lexemes ∧ first.opensOperand = true := by
  induction tree with
  | name word => exact ⟨_, _, rfl, rfl⟩
  | node operator left right ihl _ =>
    obtain ⟨first, lexemes, hlexemes, hfirst⟩ := ihl
    rw [OperatorTree.lexemes]
    unfold bracketedLexemes
    split
    · exact ⟨_, _, rfl, rfl⟩
    · rw [hlexemes]
      exact ⟨first, _, rfl, hfirst⟩

/-- Where a tree may stand alone it is an assignment expression. -/
theorem assignmentRule_of_binaryRule {P : Expression → Prop}
    (hfirst : first.token.opensOperand = true) (hend : next.token.endsOperand = true)
    (htree : Parses atRest (g.binaryRule 0) context (first :: lexemes) P (next :: rest)) :
    Parses atRest g.assignmentRule context (first :: lexemes) P (next :: rest) :=
  assignmentRule_of_conditional hfirst (Token.assignmentOperator_of_endsOperand hend)
    (conditional_of_binaryRule htree fun _ _ _ => Token.ne_of_endsOperand hend rfl)

/-- A name or an operation is a unary expression, in front of what may follow it. -/
theorem unaryRule_of_operand {P : Expression → Prop} (hhooks : g.hooks.PassOperations atRest)
    (hfirst : first.token.opensOperand = true) (hend : next.token.endsOperand = true)
    (hatom : Parses atRest g.atom context (first :: lexemes) P (next :: rest))
    (hP : ∀ e, P e → e.isOperation = true) :
    Parses atRest g.unaryRule context (first :: lexemes) P (next :: rest) :=
  unaryRule_of_atom hfirst ⟨Token.opensSubscript_of_endsOperand hend,
    Token.updateOperator_of_endsOperand hend⟩ hatom fun e he => hhooks e (hP e he)

/-- A tree in parentheses reads as itself. -/
theorem unaryRule_parenthesized {tree : OperatorTree} (hhooks : hooks.PassOperations atRest)
    {depth : Nat}
    (htree : ∀ depth, tree.ReadsIn atRest (ofDepth options hooks bound depth) context)
    (hin : context.inForInit = false) (hend : next.token.endsOperand = true) :
    Parses atRest (ofDepth options hooks bound depth).unaryRule context
      (bracketedLexemes true tree.lexemes ++ next :: rest) tree.IsReadAs (next :: rest) := by
  obtain ⟨first, lexemes, hlexemes, hfirst⟩ := tree.exists_lexemes
  let close : Lexeme := .of (.punctuator .rParen)
  have hsplit : bracketedLexemes true tree.lexemes ++ next :: rest =
      .of (.punctuator .lParen) :: (.of first :: lexemes ++ close :: next :: rest) := by
    rw [bracketedLexemes, if_pos rfl, hlexemes]
    simp [close]
  have hassignment : Parses atRest (ofDepth options hooks bound depth).assignment context
      (.of first :: lexemes ++ close :: next :: rest) tree.IsReadAs (close :: next :: rest) := by
    cases depth with
    | zero => exact exhausted
    | succ depth =>
      have hinside := htree depth 0 close (next :: rest) (fun _ _ => Nat.zero_le _) rfl
        fun operator hoperator => by cases hoperator
      rw [hlexemes] at hinside
      exact assignmentRule_of_binaryRule hfirst rfl hinside
  have hitems : Parses atRest (ofDepth options hooks bound depth).parenItems context
      (.of first :: lexemes ++ close :: next :: rest)
      (fun list => ∃ e, list = { items := [e] } ∧ tree.IsReadAs e) (close :: next :: rest) := by
    have hround : Parses atRest ((ofDepth options hooks bound depth).parenItemsRound {}) context
        (.of first :: lexemes ++ close :: next :: rest)
        (fun r => ∃ e, r = .stop { items := [e] } ∧ tree.IsReadAs e) (close :: next :: rest) := by
      refine (nextIs_false (Token.ne_of_opensOperand hfirst rfl)).seq ?_
      refine (nextIs_false (Token.ne_of_opensOperand hfirst rfl)).seq ?_
      refine hassignment.bind fun e he => ?_
      exact (declines (by decide)).seq (pure ⟨e, rfl, he⟩)
    refine rounds fun m => hround.bind ?_
    rintro _ ⟨e, rfl, he⟩
    exact pure ⟨e, rfl, he⟩
  rw [hsplit]
  have hhooks' : (ofDepth options hooks bound depth).hooks.PassOperations atRest := by
    cases depth <;> exact hhooks
  refine unaryRule_of_operand hhooks' rfl hend ?_ fun e he => he.isOperation
  refine startPosition.step fun start => peek.seq ?_
  refine (expect rfl rfl).step fun _ => allowingIn hin (startPosition.step fun innerStart => ?_)
  refine hitems.bind fun list ⟨e, hlist, he⟩ => ?_
  subst hlist
  refine lastEnd.step fun stop => (expect rfl rfl).step fun _ => ?_
  refine (nextIsArrow_false (Token.ne_of_endsOperand hend rfl)).seq ?_
  exact pure he

/-- The first operand of a tree is followed by the loop over the operators, which goes on with the
tree as its left operand. -/
def StartsIn (atRest : σ → Prop) (tree : OperatorTree) (g : Grammar σ) (context : Context) : Prop :=
  ∀ ⦃start least next rest rest' P⦄, (∀ operator ∈ tree.operator?, least ≤ operator.precedence) →
    next.token.endsOperand = true →
    (∀ operator ∈ tree.operator?, next.token.BindsLooser operator.rightPrecedence) →
    (∀ m e, tree.IsReadAs e →
      Parses atRest (repeatRounds (g.binaryRound start least) m e) context (next :: rest) P rest') →
    Parses atRest (do
      let first ← g.unaryRule
      if first.isArrow then return first
      g.loop (g.binaryRound start least) first) context (tree.lexemes ++ next :: rest) P rest'

/-- A tree reads as itself if its first operand does and the loop goes on with it. -/
theorem StartsIn.readsIn {tree : OperatorTree} (h : tree.StartsIn atRest g context)
    (hin : context.inForInit = false) : tree.ReadsIn atRest g context := by
  intro least next rest hleast hend hlooser
  obtain ⟨first, lexemes, hlexemes, -⟩ := tree.exists_lexemes
  have hstop (start : Position) (m : Nat) (e : Expression) (he : tree.IsReadAs e) :
      Parses atRest (repeatRounds (g.binaryRound start least) m e) context (next :: rest)
        tree.IsReadAs (next :: rest) :=
    rounds_stop hin hlooser he
  have hbody (start : Position) := h hleast hend (fun operator hoperator follow hfollow =>
    Nat.lt_of_lt_of_le (hlooser follow hfollow) (Nat.le_trans (hleast operator hoperator)
      operator.precedence_le_rightPrecedence)) (hstop start)
  rw [hlexemes] at hbody ⊢
  exact startPosition.step hbody

/-- A left operand, with its parentheses, is followed by the loop over the operators. -/
theorem parses_left {left : OperatorTree} {operator : InfixOperator} {depth least : Nat}
    {start : Position} {P : Expression → Prop} (hhooks : hooks.PassOperations atRest)
    (hin : context.inForInit = false) (hleast : least ≤ operator.precedence)
    (hleft : ∀ depth, left.StartsIn atRest (ofDepth options hooks bound depth) context)
    (hgo : ∀ m e, left.IsReadAs e → Parses atRest
      (repeatRounds ((ofDepth options hooks bound depth).binaryRound start least) m e) context
      (.of operator.token :: rest) P rest') :
    Parses atRest (do
      let first ← (ofDepth options hooks bound depth).unaryRule
      if first.isArrow then return first
      (ofDepth options hooks bound depth).loop
        ((ofDepth options hooks bound depth).binaryRound start least) first) context
      (bracketedLexemes (left.operator?.any (bracketsLeft operator)) left.lexemes ++
        .of operator.token :: rest) P rest' := by
  cases hbrackets : left.operator?.any (bracketsLeft operator) with
  | true =>
    refine (unaryRule_parenthesized hhooks (fun depth => (hleft depth).readsIn hin) hin
      operator.endsOperand_token).bind fun e he => ?_
    rw [Expression.isArrow_of_isOperation he.isOperation]
    exact hgo _ e he
  | false =>
    have hplain {inner : InfixOperator} (hinner : inner ∈ left.operator?) :=
      precedence_of_bracketsLeft ((Option.any_eq_false _ _).1 hbrackets inner hinner)
    refine hleft depth (fun inner hinner => Nat.le_trans hleast (hplain hinner).1)
      operator.endsOperand_token (fun inner hinner follow hfollow => ?_) hgo
    cases operator.ofToken?_token.symm.trans hfollow
    exact (hplain hinner).2

/-- A right operand, with its parentheses, reads as itself. -/
theorem parses_right {right : OperatorTree} {operator : InfixOperator} {depth : Nat}
    (hhooks : hooks.PassOperations atRest) (hin : context.inForInit = false)
    (hright : ∀ depth, right.StartsIn atRest (ofDepth options hooks bound depth) context)
    (hend : next.token.endsOperand = true)
    (hlooser : next.token.BindsLooser operator.rightPrecedence) :
    Parses atRest ((ofDepth options hooks bound depth).binary operator.rightPrecedence) context
      (bracketedLexemes (right.operator?.any (bracketsRight operator)) right.lexemes ++
        next :: rest) right.IsReadAs (next :: rest) := by
  cases depth with
  | zero => exact exhausted
  | succ depth =>
    cases hbrackets : right.operator?.any (bracketsRight operator) with
    | true =>
      refine binaryRule_alone hin hlooser ?_
      exact unaryRule_parenthesized hhooks (fun depth => (hright depth).readsIn hin) hin hend
    | false =>
      refine (hright depth).readsIn hin _ _ _ (fun inner hinner => ?_) hend hlooser
      exact rightPrecedence_of_bracketsRight ((Option.any_eq_false _ _).1 hbrackets inner hinner)

/-- Every tree is read with the loop over the operators of at least its precedence. -/
theorem startsIn (hhooks : hooks.PassOperations atRest) (tree : OperatorTree)
    (hfits : tree.FitsIn context options.goal) (depth : Nat) :
    tree.StartsIn atRest (ofDepth options hooks bound depth) context := by
  induction tree generalizing depth with
  | name word =>
    intro start least next rest rest' P _ hend _ hgo
    have hhooks' : (ofDepth options hooks bound depth).hooks.PassOperations atRest := by
      cases depth <;> exact hhooks
    have hword : rejectWord? word context.strict (ofDepth options hooks bound depth).options.goal =
        none := by
      cases depth <;> exact hfits.names word List.mem_cons_self
    have hatom : Parses atRest (ofDepth options hooks bound depth).atom context
        (.of (.identifier word false) :: next :: rest) (name word).IsReadAs (next :: rest) := by
      refine (atom_name hword (Token.ne_of_endsOperand hend rfl)).mono ?_
      rintro _ ⟨span, rfl⟩
      rfl
    refine (unaryRule_of_operand hhooks' rfl hend hatom
      fun e he => he.isOperation).bind fun e he => ?_
    rw [Expression.isArrow_of_isOperation he.isOperation]
    exact hgo _ e he
  | node operator left right ihl ihr =>
    intro start least next rest rest' P hleast hend hlooser hgo
    have hleft := ihl ⟨hfits.inAllowed, fun word hword =>
      hfits.names word (List.mem_append_left _ hword)⟩
    have hright := ihr ⟨hfits.inAllowed, fun word hword =>
      hfits.names word (List.mem_append_right _ hword)⟩
    rw [lexemes, List.append_assoc, List.cons_append]
    refine parses_left hhooks hfits.inAllowed (hleast operator rfl) hleft fun m e he => ?_
    exact rounds_of_operator hfits.inAllowed (hleast operator rfl)
      (parses_right hhooks hfits.inAllowed hright hend (hlooser operator rfl))
      fun m right' span hright' => hgo m _ (he.join hright' operator span)

theorem readsIn (hhooks : hooks.PassOperations atRest) (tree : OperatorTree)
    (hfits : tree.FitsIn context options.goal) (depth : Nat) :
    tree.ReadsIn atRest (ofDepth options hooks bound depth) context :=
  (startsIn hhooks tree hfits depth).readsIn hfits.inAllowed

/-! ## Programs -/

/-- The program that the tree is as its only statement, up to spans. -/
def toProgram (tree : OperatorTree) : Program :=
  ⟨[.expression tree.toExpression (.empty .start)], .empty .start⟩

theorem exists_closingStatement (semicolon : Bool) :
    ∃ next rest, Lexeme.closingStatement semicolon = next :: rest ∧
      next.token.endsOperand = true ∧ next.token.BindsLooser 0 := by
  cases semicolon with
  | true => exact ⟨_, _, rfl, rfl, fun operator hoperator => (by cases hoperator)⟩
  | false => exact ⟨_, _, rfl, rfl, fun operator hoperator => (by cases hoperator)⟩

/-- A tree is a program. -/
theorem parses_program (hhooks : hooks.PassOperations atRest)
    (hreset : ∀ s, atRest s → atRest (hooks.reset s)) (tree : OperatorTree)
    (hfits : tree.FitsIn context options.goal) (semicolon : Bool) (depth : Nat) :
    Parses atRest (ofDepth options hooks bound depth).program context
      (tree.lexemes ++ Lexeme.closingStatement semicolon) (·.bare = tree.toProgram)
      [.of .endOfInput] := by
  obtain ⟨next, rest, hclosing, hend, hlooser⟩ := exists_closingStatement semicolon
  obtain ⟨first, lexemes, hlexemes, hfirst⟩ := tree.exists_lexemes
  have hexpression (depth : Nat) : Parses atRest (ofDepth options hooks bound depth).expression
      context (.of first :: (lexemes ++ next :: rest)) tree.IsReadAs (next :: rest) := by
    refine expression_of_assignment (Token.ne_of_endsOperand hend rfl) ?_
    cases depth with
    | zero => exact exhausted
    | succ depth =>
      have htree : Parses atRest ((ofDepth options hooks bound depth).binaryRule 0) context
          (tree.lexemes ++ next :: rest) tree.IsReadAs (next :: rest) :=
        readsIn hhooks tree hfits depth 0 next rest (fun _ _ => Nat.zero_le _) hend hlooser
      rw [hlexemes] at htree
      exact assignmentRule_of_binaryRule hfirst hend htree
  have hdirective (e : Expression) (span : Span) (he : tree.IsReadAs e) :
      (Statement.expression e span).directive? = none := by
    have hoperation := he.isOperation
    cases e <;> first | rfl | cases hoperation
  rw [← hclosing] at hexpression
  rw [hlexemes]
  refine (EcmaScript.parses_program hreset hfirst semicolon (fun inner _ => hexpression inner)
    hdirective).mono ?_
  rintro _ ⟨_, span, rfl, e, span', rfl, he⟩
  change Program.mk [.expression e.bare _] _ = _
  rw [show e.bare = _ from he]
  rfl

end

end OperatorTree

end EcmaScript
