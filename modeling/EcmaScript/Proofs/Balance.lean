import EcmaScript.Proofs.Run
import EcmaScript.Proofs.Substitutions

/-!
What a parse asks of its lexer.

Every rule leaves what is open as it is: it closes what it opens, and it closes nothing else. Hence
in every parse a slash is read again only where it has just been consumed, and the text of a template
only behind the brace that closes the innermost substitution.
-/

namespace EcmaScript

variable {σ α : Type}

/-- A rule that recurs leaves what is open as it is. -/
theorem Grammar.nests_routines (options : Options) (bound depth : Nat) (callee : Recurring α) :
    ((routines options bound depth).call callee).Nests .any id fun _ => id := by
  induction depth generalizing α with
  | zero => exact .exhaust
  | succ depth ih =>
    let _ := callee.bare
    exact (callee.orderly_script false .nothing).nests (feedsOn_routines options bound depth) ih

/-- What is asked of the lexer behind the moves in front. The cursor stands at the end of the token
that is held, before and behind. Only a slash is read again, and the text of a template only behind
the brace that closes the innermost substitution; in both cases that token has just been consumed,
the cursor stands at its end, and none is held. Looking two tokens ahead changes nothing. -/
structure LexMove.IsSound (front : List LexMove) (move : LexMove) : Prop where
  settled : move.lexer.IsSettled ∧ move.behind.IsSettled
  regExp : ∀ lexer, move = ⟨.rescanRegExp, lexer⟩ →
    lexer.lookahead = none ∧ lexer.cursor.position = lexer.lastSpan.stop ∧
      ∃ earlier before token, front = earlier ++ [⟨.next, before⟩] ∧
        Lexing.next before = .ok token lexer ∧
          (token = .punctuator .slash ∨ token = .punctuator .slashEq)
  template : ∀ lexer, move = ⟨.readTemplateContinuation, lexer⟩ →
    lexer.lookahead = none ∧ lexer.cursor.position = lexer.lastSpan.stop ∧
      ∃ earlier before around, front = earlier ++ [⟨.next, before⟩] ∧
        Lexing.next before = .ok (.punctuator .rBrace) lexer ∧
          openBehind earlier [] = .substitution :: around
  peekSecond : ∀ lexer, move = ⟨.peekSecond, lexer⟩ → ∀ answer behind,
    Lexing.peekSecond lexer = .ok answer behind → behind = lexer
  /-- The move is one step of the lexer, not two in a row. -/
  isSingle : ∀ lexer, move ≠ ⟨.regExp, lexer⟩ ∧ move ≠ ⟨.templateContinuation, lexer⟩

/-- Moves in step that begin at a settled lexer are sound. -/
theorem LexMove.isSound_of_inStep {lexer last : Lexer} {moves : List LexMove}
    (hlexer : lexer.IsSettled) (hleads : lexer.Leads moves last) (hstep : InStep [] moves)
    {front back : List LexMove} {move : LexMove} (hmoves : moves = front ++ move :: back) :
    move.IsSound front := by
  have hsettled := (hleads.invariant LexMove.isSettled_behind hlexer).1
  have hfollows := hstep front move back hmoves
  have hmove : move.lexer.IsSettled := hsettled move (by simp [hmoves])
  have hnext {earlier : List LexMove} {before : Lexer} (hfront : front = earlier ++ [⟨.next, before⟩]) :
      before.IsSettled :=
    hsettled ⟨.next, before⟩ (by simp [hmoves, hfront])
  constructor
  · exact ⟨hmove, move.isSettled_behind hmove⟩
  · rintro lexer rfl
    obtain ⟨earlier, before, token, hfront, hread, htoken⟩ := hfollows
    obtain ⟨hnone, hstop⟩ := Lexing.rests_of_next (hnext hfront) hread
    refine ⟨hnone, hstop, earlier, before, token, hfront, hread, ?_⟩
    simpa [Token.isSlash] using htoken
  · rintro lexer rfl
    obtain ⟨earlier, before, around, hfront, hread, hopen⟩ := hfollows
    obtain ⟨hnone, hstop⟩ := Lexing.rests_of_next (hnext hfront) hread
    exact ⟨hnone, hstop, earlier, before, around, hfront, hread, hopen⟩
  · rintro lexer rfl answer behind hpeek
    exact Lexing.lexer_of_peekSecond hpeek
  · refine fun lexer => ⟨?_, ?_⟩ <;> rintro rfl <;> exact hfollows

namespace Parser

theorem nests_procedure (parser : Parser σ) : parser.procedure.Nests .any id fun _ => id :=
  (Script.orderly_program .nothing).nests (Grammar.feedsOn_routines _ _ _)
    (Grammar.nests_routines _ _ _)

def lexerMoves (parser : Parser σ) : List LexMove :=
  parser.procedure.moves parser.hooks parser.options parser.begun

theorem leads_lexerMoves (parser : Parser σ) :
    parser.state.lexer.Leads parser.lexerMoves parser.parse.2.state.lexer := by
  have hleads := parser.procedure.leads_moves parser.hooks parser.options parser.begun
  rw [← program_eq] at hleads
  unfold parse
  cases hresult : parser.grammar.program parser.state <;> rw [hresult] at hleads <;> exact hleads

/-- Parsing keeps the cursor at the end of the token that is held. -/
theorem isSettled_parse {parser : Parser σ} (h : parser.state.lexer.IsSettled) :
    parser.parse.2.state.lexer.IsSettled :=
  (parser.leads_lexerMoves.invariant LexMove.isSettled_behind h).2

/-- What a parse asks of the lexer is sound, with any hooks, also if it fails, and also if the
source has been parsed before: `lexerMoves` lists the steps of the lexer in a procedure that gives
the result of the parse, and these lead from the lexer at its start to the one at its end. -/
theorem lexerMoves_isSound (source : String) (options : Options) (hooks : Hooks σ) (initial : σ)
    (parses : Nat) :
    let parser := (fun parser : Parser σ => parser.parse.2)^[parses]
      (.ofSource source options hooks initial)
    parser.grammar.program parser.state =
        (parser.procedure.observe parser.hooks parser.options parser.begun).1 ∧
      parser.state.lexer.Leads parser.lexerMoves parser.parse.2.state.lexer ∧
      (∀ front move back, parser.lexerMoves = front ++ move :: back → move.IsSound front) ∧
      parser.parse.2.state.lexer.IsSettled := by
  intro parser
  have hsettled : parser.state.lexer.IsSettled := by
    induction parses with
    | zero => exact Lexer.isSettled_ofSource source hooks.tokenRules
    | succ parses ih =>
      simp only [parser, Function.iterate_succ_apply']
      exact isSettled_parse ih
  have hstep : InStep [] parser.lexerMoves :=
    (parser.nests_procedure.leads parser.hooks parser.options parser.begun [] trivial).1
  exact ⟨parser.program_eq, parser.leads_lexerMoves,
    fun front move back h => LexMove.isSound_of_inStep hsettled parser.leads_lexerMoves hstep h,
    isSettled_parse hsettled⟩

end Parser

end EcmaScript
