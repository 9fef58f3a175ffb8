import EcmaScript.Proofs.LayoutIndependence

/-!
Sources that are one expression.

A source whose program is one expression statement has been read as an expression, from its first
token on and up to its end or to a semicolon in front of it.
-/

namespace EcmaScript

variable {σ α β : Type}

/-! ## Rules for other statements -/

class Statement.IsOther (statement : Statement) : Prop where
  ne : ∀ e span, statement ≠ .expression e span

namespace Statement.IsOther

variable {test : Expression} {body : Statement} {block : List Statement} {span : Span}

instance (kind : VariableKind) (declarators : List Declarator) :
    IsOther (.variables kind declarators span) := ⟨nofun⟩
instance (name : String) (f : Function) : IsOther (.function name f) := ⟨nofun⟩
instance (name : String) (definition : Class) : IsOther (.class_ name definition) := ⟨nofun⟩
instance (argument : Option Expression) : IsOther (.return_ argument span) := ⟨nofun⟩
instance (alternate : Option Statement) : IsOther (.if_ test body alternate span) := ⟨nofun⟩
instance : IsOther (.while test body span) := ⟨nofun⟩
instance : IsOther (.doWhile body test span) := ⟨nofun⟩
instance (init : Option ForInit) (test update : Option Expression) :
    IsOther (.for_ init test update body span) := ⟨nofun⟩
instance (target : ForTarget) : IsOther (.forIn target test body span) := ⟨nofun⟩
instance (target : ForTarget) : IsOther (.forOf target test body span) := ⟨nofun⟩
instance : IsOther (.block block span) := ⟨nofun⟩
instance : IsOther (.empty span) := ⟨nofun⟩
instance (label : Option String) : IsOther (.break_ label span) := ⟨nofun⟩
instance (label : Option String) : IsOther (.continue_ label span) := ⟨nofun⟩
instance : IsOther (.throw test span) := ⟨nofun⟩
instance (handler : Option CatchClause) (finalizer : Option (List Statement)) :
    IsOther (.try_ block handler finalizer span) := ⟨nofun⟩
instance (cases : List SwitchCase) : IsOther (.switch test cases span) := ⟨nofun⟩
instance : IsOther (.debugger span) := ⟨nofun⟩

instance {c : Prop} [Decidable c] {statement other : Statement} [h : statement.IsOther]
    [h' : other.IsOther] : IsOther (if c then statement else other) := by
  split
  · exact h
  · exact h'

end Statement.IsOther

/-- The rule returns no expression statement. -/
class ReadsOther (p : Parse σ Statement) : Prop where
  ne : ∀ s e span t, p s ≠ .ok (.expression e span) t

namespace ReadsOther

instance pure (statement : Statement) [h : statement.IsOther] :
    ReadsOther (Pure.pure statement : Parse σ Statement) :=
  ⟨fun _ e span _ hrun => by
    cases hrun
    exact h.ne e span rfl⟩

theorem step {p : Parse σ α} {q : α → Parse σ Statement} (hq : ∀ a, ReadsOther (q a)) :
    ReadsOther (p >>= q) :=
  ⟨fun _ e span t hrun => by
    obtain ⟨a, between, -, hrest⟩ := Parse.bind_eq_ok hrun
    exact (hq a).ne between e span t hrest⟩

theorem either {c : Prop} [Decidable c] {p q : Parse σ Statement} (hp : ReadsOther p)
    (hq : ReadsOther q) : ReadsOther (if c then p else q) := by
  by_cases h : c
  · rwa [if_pos h]
  · rwa [if_neg h]

/-- A part that is read, or left out, in front of the rest. -/
theorem optional {c : Prop} [Decidable c] {p q : Parse σ α} {rest : α → Parse σ Statement}
    (hrest : ∀ a, ReadsOther (rest a)) : ReadsOther (if c then p >>= rest else q >>= rest) :=
  either (step hrest) (step hrest)

/-- A check in front of the rest, which fails if its condition holds. -/
theorem refused {c : Prop} [Decidable c] {bad : Parse σ α} {rest : α → Parse σ Statement}
    {behind : Parse σ Statement} (hrest : ∀ a, ReadsOther (rest a)) (hbehind : ReadsOther behind) :
    ReadsOther (if c then bad >>= rest else behind) :=
  either (step hrest) hbehind

theorem fail (cause : Cause) (position : Position) :
    ReadsOther (Parse.fail cause position : Parse σ Statement) :=
  ⟨fun _ _ _ _ hrun => by cases hrun⟩

instance unexpected : ReadsOther (Parse.unexpected : Parse σ Statement) :=
  step fun position => fail .unexpectedToken position

open Grammar

variable {g : Grammar σ} {start : Position}

instance functionDeclaration (isAsync : Bool) :
    ReadsOther (g.functionDeclaration start isAsync) := by
  unfold Grammar.functionDeclaration
  exact step fun _ => step fun _ => step fun _ => step fun _ => pure _

instance classDeclaration : ReadsOther (g.classDeclaration start) := by
  refine step fun definition => ?_
  obtain ⟨_ | name, definition⟩ := definition
  · exact fail _ _
  · exact pure _

instance variableStatement (kind : VariableKind) : ReadsOther (g.variableStatement start kind) := by
  unfold Grammar.variableStatement
  exact step fun _ => step fun _ => step fun _ => step fun _ => pure _

theorem forRest (init : Option ForInit) : ReadsOther (g.forRest start init) := by
  unfold Grammar.forRest
  refine step fun _ => step fun _ => optional fun test => ?_
  refine step fun _ => step fun _ => optional fun update => ?_
  exact step fun _ => step fun _ => step fun _ => pure _

theorem forInOrOf (target : ForTarget) : ReadsOther (g.forInOrOf start target) := by
  unfold Grammar.forInOrOf
  refine step fun isOf => step fun _ => optional fun right => ?_
  exact step fun _ => step fun _ => step fun _ => pure _

theorem forDeclaration (kind : VariableKind) : ReadsOther (g.forDeclaration start kind) := by
  refine step fun _ => step fun declarators => ?_
  split
  · exact step fun _ => either (forInOrOf _) (forRest _)
  · exact forRest _

theorem forExpression : ReadsOther (g.forExpression start) := by
  refine step fun value => step fun isInOrOf => either ?_ (forRest _)
  exact step fun _ => step fun target => forInOrOf target

instance forStatement : ReadsOther (g.forStatement start) := by
  refine step fun _ => step fun _ => step fun kind => step fun isEmpty => either (forRest _) ?_
  cases kind with
  | none => exact forExpression
  | some kind => exact forDeclaration kind

instance returnStatement : ReadsOther (g.returnStatement start) := by
  unfold Grammar.returnStatement
  have hrest (u : Unit) : ReadsOther (do
      Parse.skip
      let argument ← if ← Parse.atStatementEnd then Pure.pure none else some <$> g.expression
      Parse.endStatement
      return .return_ argument (← Parse.spanFrom start)) :=
    step fun _ => step fun _ => optional fun _ => step fun _ => step fun _ => pure _
  exact step fun _ => either (hrest ()) (step hrest)

instance ifStatement : ReadsOther (g.ifStatement start) := by
  unfold Grammar.ifStatement
  refine step fun _ => step fun test => step fun consequent => step fun _ => ?_
  exact optional fun alternate => step fun _ => pure _

instance whileStatement : ReadsOther (g.whileStatement start) := by
  unfold Grammar.whileStatement
  exact step fun _ => step fun _ => step fun _ => step fun _ => pure _

instance doWhileStatement : ReadsOther (g.doWhileStatement start) := by
  unfold Grammar.doWhileStatement
  refine step fun _ => step fun body => step fun _ => ?_
  exact step fun test => step fun _ => step fun _ => pure _

instance breakStatement : ReadsOther (g.breakStatement start) := by
  unfold Grammar.breakStatement
  have hrest (label : Option String) : ReadsOther (do
      Parse.endStatement
      return .break_ label (← Parse.spanFrom start) : Parse σ Statement) :=
    step fun _ => step fun _ => pure _
  exact step fun _ => step fun label => step fun _ => refused (fun _ => hrest label) (hrest label)

instance continueStatement : ReadsOther (g.continueStatement start) := by
  unfold Grammar.continueStatement
  have hrest (label : Option String) : ReadsOther (do
      Parse.endStatement
      return .continue_ label (← Parse.spanFrom start) : Parse σ Statement) :=
    step fun _ => step fun _ => pure _
  exact step fun _ => step fun label => step fun _ => refused (fun _ => hrest label) (hrest label)

instance throwStatement : ReadsOther (g.throwStatement start) := by
  unfold Grammar.throwStatement
  have hrest : ReadsOther (do
      let argument ← g.expression
      Parse.endStatement
      return .throw argument (← Parse.spanFrom start)) :=
    step fun _ => step fun _ => step fun _ => pure _
  exact step fun _ => step fun _ => either (step fun _ => step fun _ => hrest) hrest

instance tryStatement : ReadsOther (g.tryStatement start) := by
  unfold Grammar.tryStatement
  refine step fun _ => step fun body => step fun handler => step fun _ => ?_
  refine optional fun finalizer => refused (fun _ => ?_) ?_
  · exact step fun _ => pure _
  · exact step fun _ => pure _

instance switchStatement : ReadsOther (g.switchStatement start) := by
  unfold Grammar.switchStatement
  exact step fun _ => step fun _ => step fun _ => step fun _ => step fun _ => pure _

instance debuggerStatement : ReadsOther (Grammar.debuggerStatement start : Parse σ Statement) :=
  step fun _ => step fun _ => step fun _ => pure _

instance emptyStatement : ReadsOther (Grammar.emptyStatement start : Parse σ Statement) :=
  step fun _ => step fun _ => pure _

instance blockStatement : ReadsOther (g.blockStatement start) :=
  step fun _ => step fun _ => pure _

end ReadsOther

/-! ## The expression of an expression statement -/

namespace Grammar

variable {g : Grammar σ} {s t : ParserState σ} {e : Expression} {span : Span} {start : Position}

/-- A word with which an expression can begin is asked about and left there. -/
theorem expressionStatement_of_look {f : Token × Bool → Bool} {other : Parse σ Statement}
    (hother : ReadsOther other)
    (h : (Parse.peekSecond >>= fun second => if f second then other else
      g.expressionStatement start) s = .ok (.expression e span) t) :
    g.expressionStatement start s = .ok (.expression e span) t := by
  obtain ⟨second, middle, hpeek, h⟩ := Parse.bind_eq_ok h
  obtain ⟨lexer, hsecond, rfl⟩ := Parse.lexing_eq_ok hpeek
  obtain rfl := Lexing.lexer_of_peekSecond hsecond
  split at h
  · exact absurd h (hother.ne _ _ _ _)
  · exact h

theorem expressionStatement_of_keywordStatement {word : Keyword}
    (h : g.keywordStatement start word s = .ok (.expression e span) t) :
    g.expressionStatement start s = .ok (.expression e span) t := by
  have absurd_of {p : Parse σ Statement} [hp : ReadsOther p]
      (h : p s = .ok (.expression e span) t) :
      g.expressionStatement start s = .ok (.expression e span) t :=
    absurd h (hp.ne s e span t)
  cases word with
  | let_ =>
    simp only [keywordStatement, letBeginsDeclaration, bind_assoc, pure_bind] at h
    exact expressionStatement_of_look (.variableStatement .let_) h
  | async =>
    simp only [keywordStatement, asyncBeginsFunction, bind_assoc, pure_bind] at h
    exact expressionStatement_of_look (.step fun _ => .functionDeclaration true) h
  | _ =>
    dsimp only [keywordStatement] at h
    first | exact h | exact absurd_of h

/-- How a source ends behind an expression: with a semicolon that ends the statement at `stop`, and
then at its end, or at its end right away. -/
def EndsStatement (t : ParserState σ) (stop : Position) : Prop :=
  ∃ next u, t.LooksTo next u ∧
    (next.token = .punctuator .semicolon ∧ stop = next.span.stop ∧
        (∃ last u', (u.behind next).LooksTo last u' ∧ last.token = .endOfInput) ∨
      next.token = .endOfInput ∧ stop = t.lexer.lastSpan.stop)

theorem EndsStatement.of_look {stop : Position} {next : Lookahead} (hlook : s.LooksTo next t)
    (h : EndsStatement t stop) : EndsStatement s stop := by
  obtain ⟨next', u, hnext, hends⟩ := h
  obtain ⟨rfl, rfl⟩ := hlook.again.unique hnext
  rw [hlook.lastSpan_eq] at hends
  exact ⟨next, t, hlook, hends⟩

/-- The end of a statement in front of the end of the source. -/
theorem endsStatement_of_endStatement {last : Lookahead} {u : ParserState σ}
    (h : Parse.endStatement s = .ok () t) (hlook : t.LooksTo last u)
    (hend : last.token = .endOfInput) : EndsStatement s t.lexer.lastSpan.stop := by
  obtain ⟨accepted, behind, haccept, h⟩ := Parse.bind_eq_ok h
  obtain ⟨next, facing, hnext, ⟨rfl, htoken, rfl⟩ | ⟨rfl, -, rfl⟩⟩ := Parse.accept_eq_ok haccept
  · cases h
    exact ⟨next, facing, hnext, .inl ⟨htoken, rfl, last, u, hlook, hend⟩⟩
  · -- Whether the statement may end here is asked of the same token.
    have hsame : Parse.atStatementEnd behind = .ok (next.newlineBefore ||
        (next.token == .endOfInput || next.token == .punctuator .semicolon ||
          next.token == .punctuator .rBrace)) behind := by
      unfold Parse.atStatementEnd
      rw [Parse.bind_of_ok hnext.again.newlineBefore]
      cases next.newlineBefore with
      | true => rfl
      | false =>
        change (Parse.peek >>= _) behind = _
        rw [Parse.bind_of_ok hnext.again.peek]
        rfl
    obtain ⟨done, _, hdone, h⟩ := Parse.bind_eq_ok h
    cases hdone.symm.trans hsame
    split at h
    · cases h
      obtain ⟨rfl, rfl⟩ := hnext.again.unique hlook
      rw [hnext.lastSpan_eq]
      exact ⟨next, _, hnext, .inr ⟨hend, rfl⟩⟩
    · obtain ⟨_, _, -, hfail⟩ := Parse.bind_eq_ok h
      cases hfail

/-- An expression statement in front of the end of the source. -/
theorem exists_of_expressionStatement {last : Lookahead} {u : ParserState σ}
    (h : g.expressionStatement start s = .ok (.expression e span) t) (hlook : t.LooksTo last u)
    (hend : last.token = .endOfInput) :
    ∃ middle, g.expression s = .ok e middle ∧ EndsStatement middle span.stop := by
  obtain ⟨value, middle, hvalue, h⟩ := Parse.bind_eq_ok h
  have ends_of {between : ParserState σ}
      (h : (Parse.endStatement >>= fun _ => Parse.spanFrom start >>= fun span' =>
        (pure (.expression value span') : Parse σ Statement)) between =
          .ok (.expression e span) t) : value = e ∧ EndsStatement between span.stop := by
    obtain ⟨_, behind, hends, h⟩ := Parse.bind_eq_ok h
    cases h
    exact ⟨rfl, endsStatement_of_endStatement hends hlook hend⟩
  dsimp only at h
  cases hlabel : labelOf? value with
  | some label =>
    rw [hlabel] at h
    obtain ⟨accepted, between, haccept, h⟩ := Parse.bind_eq_ok h
    obtain ⟨next, facing, hnext, ⟨rfl, -, rfl⟩ | ⟨rfl, -, rfl⟩⟩ := Parse.accept_eq_ok haccept
    · obtain ⟨body, _, -, h⟩ := Parse.bind_eq_ok h
      cases h
    · obtain ⟨rfl, hends⟩ := ends_of h
      exact ⟨middle, hvalue, hends.of_look hnext⟩
  | none =>
    rw [hlabel] at h
    obtain ⟨rfl, hends⟩ := ends_of h
    exact ⟨middle, hvalue, hends⟩

/-- An expression statement begins with its expression. -/
theorem exists_of_statementRule (h : g.statementRule s = .ok (.expression e span) t) :
    ∃ start first between, s.LooksTo first between ∧
      g.expressionStatement start between = .ok (.expression e span) t := by
  obtain ⟨start, facing, hstart, h⟩ := Parse.bind_eq_ok h
  obtain ⟨first, hlook, rfl⟩ := Parse.startPosition_eq_ok hstart
  rw [Parse.bind_of_ok hlook.again.peek] at h
  refine ⟨first.span.start, first, facing, hlook, ?_⟩
  generalize first.token = token at h
  split at h
  · exact absurd h (ReadsOther.blockStatement.ne _ _ _ _)
  · exact absurd h (ReadsOther.emptyStatement.ne _ _ _ _)
  · exact expressionStatement_of_keywordStatement h
  · exact h

/-! ## The statement of a program -/

/-- Where a statement list goes on, a statement has been read. -/
theorem exists_of_statementListRound {list list' : ListRead}
    (h : g.statementListRound atEndOfSource list s = .ok (.again list') t) :
    ∃ first facing statement middle, s.LooksTo first facing ∧
      g.statement facing = .ok statement middle ∧ t.lexer = middle.lexer ∧
      list'.statements = statement :: list.statements := by
  obtain ⟨done, facing, hdone, h⟩ := Parse.bind_eq_ok h
  obtain ⟨token, facing', hpeek, hdone⟩ := Parse.bind_eq_ok hdone
  obtain ⟨first, hlook, rfl⟩ := Parse.peek_eq_ok hpeek
  cases hdone
  split at h
  · cases h
  · obtain ⟨statement, middle, hstatement, h⟩ := Parse.bind_eq_ok h
    refine ⟨first, facing, statement, middle, hlook, hstatement, ?_⟩
    dsimp only at h
    generalize (if list.inPrologue = true then statement.directive? else none) = directive at h
    split at h
    · obtain ⟨_, _, hstrict, h⟩ := Parse.bind_eq_ok h
      cases hstrict
      cases h
      exact ⟨rfl, rfl⟩
    · cases h
      exact ⟨rfl, rfl⟩

/-- The statements read so far stay. -/
theorem suffix_of_statementListRounds {bound : Nat} {list : ListRead} {body : List Statement}
    (h : repeatRounds (g.statementListRound atEndOfSource) bound list s = .ok body t) :
    list.statements <:+ body.reverse := by
  induction bound generalizing list s with
  | zero => cases h
  | succ bound ih =>
    obtain ⟨round, middle, hround, hrest⟩ := Parse.bind_eq_ok h
    cases round with
    | stop body =>
      cases hrest
      obtain ⟨rfl, -⟩ := stop_of_statementListRound hround
      exact ⟨[], by rw [List.nil_append, List.reverse_reverse]⟩
    | again list' =>
      obtain ⟨_, _, statement, _, -, -, -, hlist⟩ := exists_of_statementListRound hround
      have hsuffix := ih hrest
      rw [hlist] at hsuffix
      exact (List.suffix_cons statement list.statements).trans hsuffix

/-- What has been done for a program that is one statement. -/
theorem exists_of_statements {bound : Nat} {statement : Statement}
    (h : repeatRounds (g.statementListRound atEndOfSource) bound {} s = .ok [statement] t) :
    ∃ first facing middle last u, s.LooksTo first facing ∧
      g.statement facing = .ok statement middle ∧ middle.LooksTo last u ∧
      last.token = .endOfInput := by
  cases bound with
  | zero => cases h
  | succ bound =>
  obtain ⟨round, behind, hround, h⟩ := Parse.bind_eq_ok h
  cases round with
  | stop body =>
    cases h
    cases (stop_of_statementListRound hround).1
  | again list =>
    obtain ⟨first, facing, read, middle, hfirst, hstatement, hlexer, hlist⟩ :=
      exists_of_statementListRound hround
    cases bound with
    | zero => cases h
    | succ bound =>
    obtain ⟨round, _, hround, h⟩ := Parse.bind_eq_ok h
    cases round with
    | stop body =>
      cases h
      obtain ⟨hbody, last, hlook, hend⟩ := stop_of_statementListRound hround
      rw [hlist] at hbody
      cases hbody
      exact ⟨first, facing, middle, last, _, hfirst, hstatement, hlook.of_lexer hlexer.symm, hend⟩
    | again list' =>
      -- With a second statement there would be two.
      obtain ⟨_, _, second, _, -, -, -, hlist'⟩ := exists_of_statementListRound hround
      have hlength := (suffix_of_statementListRounds h).length_le
      rw [hlist', hlist] at hlength
      simp at hlength

/-- What has been done for a program that is one expression statement. -/
theorem exists_of_program {options : Options} {hooks : Hooks σ} {bound depth : Nat} {whole : Span}
    (h : (ofDepth options hooks bound (depth + 1)).program s =
      .ok ⟨[.expression e span], whole⟩ t) :
    ∃ first between middle,
      ParserState.LooksTo { s with hooks := hooks.reset s.hooks } first between ∧
      (ofDepth options hooks bound depth).expression between = .ok e middle ∧
      EndsStatement middle span.stop := by
  obtain ⟨_, begun, hreset, h⟩ := Parse.bind_eq_ok h
  cases hreset
  obtain ⟨body, _, hbody, h⟩ := Parse.bind_eq_ok h
  obtain ⟨stop, _, -, h⟩ := Parse.bind_eq_ok h
  cases h
  obtain ⟨first, facing, middle, last, u, hfirst, hstatement, hlook, hend⟩ :=
    exists_of_statements hbody
  obtain ⟨start, first', between, hfirst', hstatement⟩ := exists_of_statementRule hstatement
  obtain ⟨rfl, rfl⟩ := hfirst.again.unique hfirst'
  obtain ⟨middle', hexpression, hends⟩ := exists_of_expressionStatement hstatement hlook hend
  exact ⟨first, facing, middle', hfirst, hexpression, hends⟩

end Grammar

end EcmaScript
