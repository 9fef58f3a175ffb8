import EcmaScript.Proofs.Termination

/-!
Steps that can be out of range, in any number of parses.

The counters of loops and switches are at zero where a parse begins, as long as no parse before has
put them there in front of an arrow function whose body cannot be scanned; so the first parse that
loses them inside a loop or switch is broken off. Where the first element of a list is read, the
list has exactly one element.
-/

namespace EcmaScript

variable {σ : Type}

namespace Parser

/-- While nothing is lost, the counters of loops and switches are at zero between two parses. -/
theorem depths_after {source : List Char} (parser : Parser σ)
    (hsource : parser.state.lexer.InSource source)
    (hloop : parser.state.context.loopDepth = 0) (hswitch : parser.state.context.switchDepth = 0)
    (calls : Nat) (hnone : ∀ call < calls, LosesNone (parser.after call).run.2) :
    (parser.after calls).state.context.loopDepth = 0 ∧
      (parser.after calls).state.context.switchDepth = 0 := by
  induction calls with
  | zero => exact ⟨hloop, hswitch⟩
  | succ calls ih =>
    have hearlier := ih fun call hcall => hnone call (by omega)
    have hin := parser.inSource_after hsource calls
    obtain ⟨hover, hcounted⟩ :=
      ((parser.after calls).run_counts hin.advances).keeps (hnone calls (by omega))
    have hdone : Completed (parser.after calls).run.outcome := by
      have hsteps := ((parser.after calls).ends_parse hin).2
      rw [outcome_parse] at hsteps
      rintro (d | _ | _) he
      · exact ⟨d, rfl⟩
      · exact absurd he hover
      · exact absurd he hsteps
    have hkept := hcounted hdone
    rw [finalState_run] at hkept
    rw [after, hkept.loopDepth, hkept.switchDepth]
    exact hearlier

/-- From counters at zero, a parse is broken off exactly if it loses one of them. -/
theorem overrun_iff_losesDepth (parser : Parser σ)
    (hrules : ∀ rule ∈ parser.state.lexer.rules, rule.Advances)
    (hloop : parser.state.context.loopDepth = 0)
    (hswitch : parser.state.context.switchDepth = 0) :
    parser.parse.1 = .error .overrun ↔ ∃ event ∈ parser.run.2, event.LosesDepth := by
  have hcounts := parser.run_counts hrules
  rw [outcome_parse]
  constructor
  · intro hover
    exact (losesNone_or_exists parser.run.2).resolve_left fun hnone => (hcounts.keeps hnone).1 hover
  · intro hlost
    refine (hcounts.loses hlost).resolve_right fun ⟨_, hcleared⟩ => ?_
    have hinside := hcleared.inside
    rw [hloop, hswitch] at hinside
    simp at hinside

end Parser

namespace Grammar

/-- A for statement with a declaration, which reads the first declarator by its index and only
where there is exactly one. -/
def forDeclarationByIndex (g : Grammar σ) (start : Position) (kind : VariableKind) :
    Parse σ Statement := do
  Parse.skip
  let declarators ← Parse.withoutIn (g.declarators kind false)
  if h : declarators.length = 1 then
    let first := declarators.get ⟨0, by omega⟩
    if first.init.isNone then
      if ← Grammar.nextIsInOrOf then
        g.forInOrOf start (.variable kind first.id)
      else
        g.forRest start (some (.variables kind declarators))
    else
      g.forRest start (some (.variables kind declarators))
  else
    g.forRest start (some (.variables kind declarators))

theorem forDeclaration_eq_byIndex (g : Grammar σ) (start : Position) (kind : VariableKind) :
    g.forDeclaration start kind = g.forDeclarationByIndex start kind := by
  unfold forDeclaration forDeclarationByIndex
  congr
  funext _
  congr
  funext declarators
  rcases declarators with _ | ⟨⟨id, _ | init⟩, _ | ⟨other, declarators⟩⟩ <;> rfl

theorem zero_lt_length_params {function : Function} (h : function.params.length = 1) :
    0 < function.params.length := by
  omega

/-- The check of the parameters of an accessor, which reads the first one by its index and only
where there is exactly one. -/
def checkAccessorByIndex (kind : MethodKind) (function : Function) : Except Diagnostic Unit :=
  match kind with
  | .get =>
    if function.params.isEmpty then .ok ()
    else .error (.located (.classElement .getterParameters) function.span.start)
  | .set =>
    if h : function.params.length = 1 then
      if (function.params.get ⟨0, zero_lt_length_params h⟩).isRest then
        .error (.located (.classElement .setterParameters) function.span.start)
      else .ok ()
    else .error (.located (.classElement .setterParameters) function.span.start)
  | _ => .ok ()

theorem checkAccessor_eq_byIndex (kind : MethodKind) (function : Function) :
    checkAccessor kind function = checkAccessorByIndex kind function := by
  obtain ⟨params, body, isAsync, isGenerator, span⟩ := function
  rcases params with _ | ⟨param, _ | ⟨other, params⟩⟩ <;> cases kind <;> rfl

end Grammar

/-- In any number of parses by one parser, with any hooks, no step is out of range exactly if no
parse loses a counter of loops or switches, in front of the body of an arrow function that is
inside a loop or switch and whose first token cannot be scanned. What is out of range then is the
decrement of such a counter, and it breaks the parse off; the decrements of the counter of
functions are in range without a condition, and the first element of a list is read only from lists
of one element. -/
theorem counters_in_range_iff (source : String) (options : Options) (hooks : Hooks σ)
    (initial : σ) (hrules : ∀ rule ∈ hooks.tokenRules, rule = TokenRule.privateName) (calls : Nat) :
    let parser := Parser.ofSource source options hooks initial
    ((∀ call < calls, (parser.after call).parse.1 ≠ .error .overrun) ↔
      ∀ call < calls, ∀ event ∈ (parser.after call).run.2, ¬event.LosesDepth) ∧
    (∀ call, (∀ event ∈ (parser.after call).run.2, event.FunctionInRange) ∧
      ((parser.after call).parse.1 = .error .overrun ↔
        ∃ event ∈ (parser.after call).run.2, ¬event.LoopInRange)) ∧
    (∀ (g : Grammar σ) (start : Position) (kind : VariableKind),
      g.forDeclaration start kind = g.forDeclarationByIndex start kind) ∧
    (∀ (kind : MethodKind) (function : Function),
      Grammar.checkAccessor kind function = Grammar.checkAccessorByIndex kind function) := by
  intro parser
  have hsource : parser.state.lexer.InSource source.toList := by
    refine Lexer.inSource_ofSource source fun rule hrule => ?_
    rw [hrules rule hrule]
    exact TokenRule.advances_privateName
  have hadvance (call : Nat) := (parser.inSource_after hsource call).advances
  have hcounts (call : Nat) := (parser.after call).run_counts (hadvance call)
  refine ⟨⟨fun hnone call => ?_, fun hnone call hcall hover => ?_⟩,
    fun call => ⟨(hcounts call).functionInRange, (parser.after call).overrun_iff (hadvance call)⟩,
    Grammar.forDeclaration_eq_byIndex, Grammar.checkAccessor_eq_byIndex⟩
  · -- By induction on the number of parses: the first loss would break its parse off.
    induction call using Nat.strongRecOn with
    | ind call ih =>
      intro hcall event hmem hlost
      obtain ⟨hloops, hswitches⟩ := parser.depths_after hsource rfl rfl call
        fun earlier hearlier => ih earlier hearlier (by omega)
      exact hnone call hcall
        (((parser.after call).overrun_iff_losesDepth (hadvance call) hloops hswitches).2
          ⟨event, hmem, hlost⟩)
  · rw [Parser.outcome_parse] at hover
    exact ((hcounts call).keeps (hnone call hcall)).1 hover

/-- Nothing is out of range where every body of an arrow function can be scanned. -/
theorem counters_in_range_of_loops :
    let parser := Parser.ofSource
      "while (1) \x7b switch (x) \x7b case 1: y => \x7b return 1 \x7d; break \x7d continue \x7d"
      {} .privateNames {}
    (∀ rule ∈ Hooks.privateNames.tokenRules, rule = TokenRule.privateName) ∧
      ∀ event ∈ parser.run.2, event.LoopInRange ∧ event.FunctionInRange ∧ ¬event.LosesDepth := by
  intro parser
  have hrules : ∀ rule ∈ Hooks.privateNames.tokenRules, rule = TokenRule.privateName := by
    intro rule hrule
    exact List.mem_singleton.1 hrule
  have hok : parser.parse.1.isOk = true := by decide +kernel
  have hover : parser.parse.1 ≠ .error .overrun := by
    intro h
    rw [h] at hok
    cases hok
  obtain ⟨hlosses, hcalls, -⟩ := counters_in_range_iff
    "while (1) \x7b switch (x) \x7b case 1: y => \x7b return 1 \x7d; break \x7d continue \x7d"
    {} .privateNames {} hrules 1
  obtain ⟨hfunction, hloop⟩ := hcalls 0
  refine ⟨hrules, fun event hmem => ⟨?_, hfunction event hmem, ?_⟩⟩
  · exact Classical.byContradiction fun hout => hover (hloop.2 ⟨event, hmem, hout⟩)
  · refine hlosses.1 (fun call hcall => ?_) 0 Nat.one_pos event hmem
    obtain rfl : call = 0 := by omega
    exact hover

/-- A loop around an arrow function whose body begins with a character that is no token: the
counter of loops would be taken below zero, and the parse is broken off there. -/
theorem counter_below_zero :
    let parser := Parser.ofSource "while(1) x => @ break;" {} .privateNames {}
    parser.parse.1 = .error .overrun ∧ ∃ event ∈ parser.run.2, ¬event.LoopInRange := by
  intro parser
  have hsource : parser.state.lexer.InSource "while(1) x => @ break;".toList :=
    Lexer.inSource_ofSource _ (List.forall_mem_singleton.2 TokenRule.advances_privateName)
  have hbroken : ¬Completed parser.parse.1 := by decide +kernel
  rcases parser.outcome_cases hsource with ⟨program, hok⟩ | ⟨d, herror⟩ | hover
  · exact absurd (hok ▸ .ok program) hbroken
  · exact absurd (herror ▸ .error d) hbroken
  · exact hover

end EcmaScript
