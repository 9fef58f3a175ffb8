import EcmaScript.Proofs.Counters
import EcmaScript.Proofs.Progress.Rule

/-!
Every parse ends.

A grammar of limited depth whose loops have limited rounds can fail for want of steps, which says
nothing about the source. This does not happen: the depth that a rule needs is at most twice the
number of places where a token can still start. Two rules recur for one token at most, a statement
and the expression that it begins with; every other recurrence has a token in front of it. And no
loop takes two rounds at the same token. So a parse ends with a program or an error of the source,
unless it is broken off at a counter that cannot be taken below zero.
-/

namespace EcmaScript

variable {σ : Type}

namespace Grammar

inductive Recurs (g : Grammar σ) : {α : Type} → Parse σ α → Prop where
  | statement : Recurs g g.statement
  | assignment : Recurs g g.assignment
  | binary (least : Nat) : Recurs g (g.binary least)
  | unary : Recurs g g.unary
  | leftHandSide : Recurs g g.leftHandSide
  | newExpression : Recurs g g.newExpression
  | bindingTarget : Recurs g g.bindingTarget

inductive IsRound (g : Grammar σ) : {α β : Type} → (α → Parse σ (Round α β)) → Prop where
  | arrayPattern : IsRound g g.arrayPatternRound
  | objectPattern : IsRound g g.objectPatternRound
  | program : IsRound g (g.statementListRound do return (← Parse.peek) == .endOfInput)
  | functionBody : IsRound g (g.statementListRound (Parse.nextIs .rBrace))
  | block : IsRound g g.blockRound
  | formalParameters : IsRound g g.formalParametersRound
  | classElements : IsRound g g.classElementsRound
  | expression : IsRound g g.expressionRound
  | arguments : IsRound g g.argumentsRound
  | arrayLiteral : IsRound g g.arrayLiteralRound
  | objectLiteral : IsRound g g.objectLiteralRound
  | template (start : Position) : IsRound g (g.templateRound start)
  | parenItems : IsRound g g.parenItemsRound
  | subscripts (start : Position) (calleeOfNew : Bool) :
    IsRound g (g.subscriptsRound start calleeOfNew)
  | binary (start : Position) (least : Nat) : IsRound g (g.binaryRound start least)
  | declarators (kind : VariableKind) (needInit : Bool) :
    IsRound g (g.declaratorsRound kind needInit)
  | caseBody : IsRound g g.caseBodyRound
  | switchCases : IsRound g g.switchCasesRound

end Grammar

section

variable {R : Reading} {n : Nat} {g : Grammar σ}

theorem Grammar.Recurs.consumes {α : Type} {rule : Parse σ α} (h : g.Recurs rule)
    (hready : Ready R n g) : Consumes R n rule := by
  have hcall {α : Type} (callee : Recurring α) : Consumes R n (callee.rule g) :=
    hready.call callee n (Nat.le_refl n)
  cases h with
  | statement => exact hcall .statement
  | assignment => exact hcall .assignment
  | binary least => exact hcall (.binary least)
  | unary => exact hcall .unary
  | leftHandSide => exact hcall .leftHandSide
  | newExpression => exact hcall .newExpression
  | bindingTarget => exact hcall .bindingTarget

open Script in
/-- The rounds of the loops consume tokens whenever they go on, since they are orderly. -/
theorem Grammar.IsRound.turns {α β : Type} {round : α → Parse σ (Round α β)} (h : g.IsRound round)
    (hready : Ready R n g) (a : α) : Turns R n (round a) := by
  cases h with
  | arrayPattern =>
    rw [← denote_arrayPatternRound]
    exact (orderly_arrayPatternRound rfl).turns .nothing hready
  | objectPattern =>
    rw [← denote_objectPatternRound]
    exact orderly_objectPatternRound.turns Known.nothing.braced hready
  | program =>
    have hdone : (do return (← Script.peek) == .endOfInput : Script Bool).denote g =
        (do return (← Parse.peek) == .endOfInput) := by
      simp
    rw [← hdone, ← denote_statementListRound]
    exact (orderly_statementListRound rfl rfl rfl (orderly_asking fun _ => ⟨_, rfl⟩)).turns .nothing
      hready
  | functionBody =>
    rw [← denote_nextIs, ← denote_statementListRound]
    exact (orderly_statementListRound rfl rfl rfl (orderly_askNextIs .rBrace)).turns .nothing hready
  | block =>
    rw [← denote_blockRound]
    exact (orderly_blockRound rfl rfl).turns .nothing hready
  | formalParameters =>
    rw [← denote_formalParametersRound]
    exact (orderly_formalParametersRound rfl).turns .nothing hready
  | classElements =>
    rw [← denote_classElementsRound]
    exact orderly_classElementsRound.turns Known.nothing.braced hready
  | expression =>
    rw [← denote_expressionRound]
    exact orderly_expressionRound.turns .nothing hready
  | arguments =>
    rw [← denote_argumentsRound]
    exact (orderly_argumentsRound rfl).turns .nothing hready
  | arrayLiteral =>
    rw [← denote_arrayLiteralRound]
    exact (orderly_arrayLiteralRound rfl).turns .nothing hready
  | objectLiteral =>
    rw [← denote_objectLiteralRound]
    exact orderly_objectLiteralRound.turns Known.nothing.braced hready
  | template start =>
    rw [← denote_templateRound]
    exact (orderly_templateRound rfl).turns Known.nothing.substituted hready
  | parenItems =>
    rw [← denote_parenItemsRound]
    exact (orderly_parenItemsRound rfl).turns .nothing hready
  | subscripts start calleeOfNew =>
    rw [← denote_subscriptsRound]
    exact (orderly_subscriptsRound calleeOfNew).turns .nothing hready
  | binary start least =>
    rw [← denote_binaryRound]
    exact (orderly_binaryRound least).turns .nothing hready
  | declarators kind needInit =>
    rw [← denote_declaratorsRound]
    exact (orderly_declaratorsRound kind needInit rfl).turns .nothing hready
  | caseBody =>
    rw [← denote_caseBodyRound]
    exact (orderly_caseBodyRound rfl rfl).turns .nothing hready
  | switchCases =>
    rw [← denote_switchCasesRound]
    exact (orderly_switchCasesRound rfl).turns Known.nothing.braced hready

/-! ## The depth that a source needs -/

/-- The depth is enough from `n` on, where it has to be: twice the places where a token can still
start. -/
def Reading.Enough (R : Reading) (n depth : Nat) : Prop :=
  R.limited ∨ 2 * (R.source.length + 1 - n) ≤ depth

theorem Reading.Enough.mono {m depth depth' : Nat} (h : R.Enough n depth)
    (hle : 2 * (R.source.length + 1 - n) ≤ depth → 2 * (R.source.length + 1 - m) ≤ depth') :
    R.Enough m depth' :=
  h.imp_right hle

/-- The depth that the rule needs in a grammar: a statement needs one more than the other rules. -/
def Recurring.enough {α : Type} (depth : Nat) : Recurring α → Nat
  | .statement => depth
  | _ => depth + 1

/-- The rules that recur in a grammar of the given depth consume tokens where it is enough. -/
structure Supplied (R : Reading) (depth : Nat) (g : Grammar σ) : Prop where
  bound : R.limited ∨ R.source.length < g.bound
  call : ∀ {α : Type} (callee : Recurring α) {n}, R.Enough n (callee.enough depth) →
    Consumes R n (callee.rule g)

theorem Supplied.ready {depth : Nat} (h : Supplied R depth g) (henough : R.Enough n depth) :
    Ready R n g := by
  refine ⟨h.bound, fun callee m hm => h.call callee (henough.mono fun hdepth => ?_)⟩
  cases callee <;> simp only [Recurring.enough] <;> omega

/-- Where no depth is left, no token can start. -/
theorem Consumes.exhausted {α : Type} (h : R.Enough n 1) :
    Consumes R n (throw .exhausted : Parse σ α) := by
  refine fun s hs => ⟨hs.inSource, fun _ => ?_⟩
  rcases h with hlimited | hnone
  · exact hlimited
  · have hstart := hs.le_nextStart
    have hend := hs.inSource.nextStart_le
    omega

theorem supplied_ofDepth (options : Options) (hooks : Hooks σ) {bound : Nat}
    (hbound : R.limited ∨ R.source.length < bound) (depth : Nat) :
    Supplied R depth (.ofDepth options hooks bound depth) := by
  induction depth with
  | zero =>
    refine ⟨hbound, fun callee n h => ?_⟩
    rw [callee.rule_zero]
    refine .exhausted (h.mono fun hdepth => ?_)
    cases callee <;> simp only [Recurring.enough] at hdepth <;> omega
  | succ depth ih =>
    refine ⟨hbound, fun callee n h => ?_⟩
    rw [callee.rule_succ]
    -- Behind a token, the depth below is enough for every rule.
    have hready : Ready R (n + 1) (.ofDepth options hooks bound depth) := by
      refine ih.ready (h.mono fun hdepth => ?_)
      cases callee <;> simp only [Recurring.enough] at hdepth <;> omega
    refine callee.consumes_unfold hready fun hleads => ?_
    cases callee with
    | statement =>
      -- In front of its first token, a statement needs the rule for expressions.
      exact ih.call .assignment h
    | _ => cases hleads

end

section

variable {source : List Char} {bound depth n : Nat}

/-- A reading from `n` on with the given bounds: they are too low only if they are less than what is
left of the source asks for. -/
def Reading.bounded (source : List Char) (bound depth n : Nat) : Reading where
  source := source
  limited := ¬(source.length < bound ∧ 2 * (source.length + 1 - n) ≤ depth)

theorem Reading.Fails.refused {e : Failure} {s : ParserState σ}
    (h : (Reading.bounded source bound depth n).Fails e s) (hbound : source.length < bound)
    (hdepth : 2 * (source.length + 1 - n) ≤ depth) : (∃ d, e = .error d) ∨ e = .overrun := by
  cases e with
  | error d => exact .inl ⟨d, rfl⟩
  | overrun => exact .inr rfl
  | exhausted => exact absurd ⟨hbound, hdepth⟩ (h.2 rfl)

theorem ready_bounded (options : Options) (hooks : Hooks σ) :
    Ready (.bounded source bound depth n) n (.ofDepth options hooks bound depth) := by
  by_cases henough : source.length < bound ∧ 2 * (source.length + 1 - n) ≤ depth
  · exact (supplied_ofDepth options hooks (.inr henough.1) depth).ready (.inr henough.2)
  · exact (supplied_ofDepth options hooks (.inl henough) depth).ready (.inl henough)

end

/-! ## Parses -/

namespace Parser

/-- A parse ends somewhere in the source, and not for want of steps. -/
theorem ends_parse {source : List Char} (parser : Parser σ)
    (hsource : parser.state.lexer.InSource source) :
    parser.parse.2.state.lexer.InSource source ∧ parser.parse.1 ≠ .error .exhausted := by
  let R : Reading := ⟨source, False⟩
  have hlength : parser.state.lexer.source.length = R.source.length := by rw [hsource.source_eq]
  have hready : Ready R 0 parser.grammar :=
    (supplied_ofDepth parser.options parser.hooks (.inr (by rw [hlength]; omega)) _).ready
      (.inr (by rw [hlength]; omega))
  have hprogram := parser.grammar.ends_program hready hsource
  unfold parse
  cases hresult : parser.grammar.program parser.state with
  | ok program s => exact ⟨hprogram.of_ok hresult, nofun⟩
  | error e s =>
    obtain ⟨hend, hlimited⟩ := hprogram.of_error hresult
    refine ⟨hend, ?_⟩
    rintro ⟨⟩
    exact hlimited rfl

theorem inSource_after {source : List Char} (parser : Parser σ)
    (hsource : parser.state.lexer.InSource source) (calls : Nat) :
    (parser.after calls).state.lexer.InSource source := by
  induction calls with
  | zero => exact hsource
  | succ calls ih => exact ((parser.after calls).ends_parse ih).1

/-- A parse ends with a program, with an error of the source, or where a counter of loops or
switches would be taken below zero. -/
theorem outcome_cases {source : List Char} (parser : Parser σ)
    (hsource : parser.state.lexer.InSource source) :
    (∃ program, parser.parse.1 = .ok program) ∨ (∃ d, parser.parse.1 = .error (.error d)) ∨
      parser.parse.1 = .error .overrun ∧ ∃ event ∈ parser.run.2, ¬event.LoopInRange := by
  have hsteps := (parser.ends_parse hsource).2
  have hoverrun := parser.overrun_iff hsource.advances
  generalize parser.parse.1 = outcome at hsteps hoverrun ⊢
  rcases outcome with (d | _ | _) | program
  · exact .inr (.inl ⟨d, rfl⟩)
  · exact .inr (.inr ⟨rfl, hoverrun.1 rfl⟩)
  · exact absurd rfl hsteps
  · exact .inl ⟨program, rfl⟩

end Parser

/-- Every parse of a source ends with a program or an error of the source, also behind earlier
parses by the same parser, unless it is broken off where a counter of loops or switches would be
taken below zero. Wherever in the source the parser stands, with whatever bounds: a rule that
recurs moves the start of the next token forward, and so does a round of a loop that goes on; if
the bounds are enough for what is left of the source, neither fails for want of steps. -/
theorem parse_terminates (source : String) (options : Options) (hooks : Hooks σ) (initial : σ)
    (hrules : ∀ rule ∈ hooks.tokenRules, rule = TokenRule.privateName) :
    (∀ calls, let parser := (Parser.ofSource source options hooks initial).after calls
      parser.state.lexer.InSource source.toList ∧
        ((∃ program, parser.parse.1 = .ok program) ∨ (∃ d, parser.parse.1 = .error (.error d)) ∨
          parser.parse.1 = .error .overrun ∧ ∃ event ∈ parser.run.2, ¬event.LoopInRange)) ∧
    ∀ (bound depth : Nat) (s : ParserState σ), s.lexer.InSource source.toList →
      let g := Grammar.ofDepth options hooks bound depth
      let fails := fun (e : Failure) (s' : ParserState σ) => s'.lexer.InSource source.toList ∧
        (source.length < bound → 2 * (source.length + 1 - s.lexer.nextStart) ≤ depth →
          (∃ d, e = .error d) ∨ e = .overrun)
      (∀ {α : Type} {rule : Parse σ α}, g.Recurs rule →
        Ends fails rule s fun _ s' => s'.lexer.InSource source.toList ∧
          s.lexer.nextStart < s'.lexer.nextStart) ∧
      ∀ {α β : Type} {round : α → Parse σ (Round α β)}, g.IsRound round → ∀ a : α,
        Ends fails (round a) s fun r s' => s'.lexer.InSource source.toList ∧
          r.Holds (fun _ => s.lexer.nextStart < s'.lexer.nextStart)
            fun _ => s.lexer.nextStart ≤ s'.lexer.nextStart := by
  constructor
  · intro calls parser
    have hstart : (Parser.ofSource source options hooks initial).state.lexer.InSource
        source.toList := by
      refine Lexer.inSource_ofSource source fun rule hrule => ?_
      rw [hrules rule hrule]
      exact TokenRule.advances_privateName
    have hsource := (Parser.ofSource source options hooks initial).inSource_after hstart calls
    exact ⟨hsource, parser.outcome_cases hsource⟩
  · intro bound depth s hsource g fails
    let R := Reading.bounded source.toList bound depth s.lexer.nextStart
    have hready : Ready R s.lexer.nextStart g := ready_bounded options hooks
    have hfails (e : Failure) (s' : ParserState σ) (h : R.Fails e s') : fails e s' := by
      refine ⟨h.1, fun hbound hdepth => h.refused ?_ ?_⟩
      · rwa [String.length_toList]
      · rwa [String.length_toList]
    have hfrom : R.From s.lexer.nextStart s := ⟨hsource, Nat.le_refl _⟩
    refine ⟨fun hrule => ?_, fun hround a => ?_⟩
    · refine (hrule.consumes hready s hfrom).mono (fun _ s' hs' => ?_) hfails
      exact ⟨hs'.inSource, hs'.le_nextStart⟩
    · refine (hround.turns hready a s hfrom).mono ?_ hfails
      intro r s' hr
      cases r with
      | again a' => exact ⟨hr.inSource, hr.le_nextStart⟩
      | stop b => exact ⟨hr.inSource, hr.le_nextStart⟩

/-- A source in which slashes are read again, templates are read on and two tokens are looked at. -/
theorem parse_terminates_of_reread :
    let source := "x = /=/; class A \x7b static async #m() \x7b return `$\x7b/\x7d/\x7d` \x7d \x7d"
    (∀ rule ∈ Hooks.privateNames.tokenRules, rule = TokenRule.privateName) ∧
      let parser := Parser.ofSource source {} .privateNames {}
      parser.state.lexer.InSource source.toList ∧
        ((∃ program, parser.parse.1 = .ok program) ∨ (∃ d, parser.parse.1 = .error (.error d)) ∨
          parser.parse.1 = .error .overrun ∧ ∃ event ∈ parser.run.2, ¬event.LoopInRange) := by
  intro source
  have hrules : ∀ rule ∈ Hooks.privateNames.tokenRules, rule = TokenRule.privateName := by
    intro rule hrule
    exact List.mem_singleton.1 hrule
  exact ⟨hrules, (parse_terminates source {} .privateNames {} hrules).1 0⟩

end EcmaScript
