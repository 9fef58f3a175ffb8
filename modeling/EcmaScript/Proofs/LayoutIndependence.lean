import EcmaScript.Parser
import EcmaScript.Proofs.ClassScope.Twins
import EcmaScript.Proofs.Context
import EcmaScript.Proofs.Spacing
import EcmaScript.Proofs.WellFormed

/-!
What a parse owes to the layout of its source.

Between two tokens that a parse consumes, in front of the first one and behind the last one, white
space, line terminators and comments may be exchanged for others, as long as a line terminator is
there if there was one. The parse of the new source is fed the same tokens, so it can imitate the
old one step by step.
-/

namespace EcmaScript

variable {σ : Type}

namespace Grammar

variable {g : Grammar σ} {s t : ParserState σ} {list : ListRead} {body : List Statement}

/-- The statements of a program end in front of the end of the source. -/
theorem stop_of_statementListRound
    (h : g.statementListRound atEndOfSource list s = .ok (.stop body) t) :
    body = list.statements.reverse ∧ ∃ next, s.LooksTo next t ∧ next.token = .endOfInput := by
  obtain ⟨done, facing, hdone, h⟩ := Parse.bind_eq_ok h
  obtain ⟨token, facing', hpeek, hdone⟩ := Parse.bind_eq_ok hdone
  obtain ⟨next, hlook, rfl⟩ := Parse.peek_eq_ok hpeek
  cases hdone
  split at h
  · next hend =>
    cases h
    exact ⟨rfl, next, hlook, eq_of_beq hend⟩
  · -- Behind a statement the list goes on.
    obtain ⟨statement, read, -, h⟩ := Parse.bind_eq_ok h
    dsimp only at h
    generalize (if list.inPrologue = true then statement.directive? else none) = directive at h
    split at h
    · obtain ⟨_, _, -, h⟩ := Parse.bind_eq_ok h
      cases h
    · cases h

/-- A program is returned in front of the end of the source. -/
theorem facesEnd_of_program {p : Program} (h : Script.program.denote g s = .ok p t) :
    ∃ next, t.lexer.lookahead = some next ∧ next.token = .endOfInput := by
  simp only [Script.program, Script.denote_bind, Script.denote_statements,
    Script.denote_startPosition] at h
  obtain ⟨body, middle, hbody, hrest⟩ := Parse.bind_eq_ok h
  obtain ⟨stop, middle', hstop, hpure⟩ := Parse.bind_eq_ok hrest
  cases hpure
  obtain ⟨list, s', hround⟩ := exists_last_round hbody
  obtain ⟨-, next, hlook, hend⟩ := stop_of_statementListRound hround
  obtain ⟨next', hlook', -⟩ := Parse.startPosition_eq_ok hstop
  obtain ⟨rfl, -⟩ := hlook'.unique hlook.again
  exact ⟨_, hlook'.takes.1, hend⟩

end Grammar

namespace Parser

/-- The tokens that a parse consumes, with their places; a slash or a closing brace that is read
again counts as what it is read as, and the end of the source does not count. -/
def tokens (parser : Parser σ) : List Placed :=
  (parser.procedure.consumed parser.hooks parser.options parser.begun).filter
    (·.token ≠ .endOfInput)

theorem parse_of_ok {parser : Parser σ} {p : Program} {t : ParserState σ}
    (h : (parser.procedure.observe parser.hooks parser.options parser.begun).1 = .ok p t) :
    parser.parse.1 = .ok p := by
  rw [parse, program_eq, h]

theorem parse_of_error {parser : Parser σ} {e : Failure} {t : ParserState σ}
    (h : (parser.procedure.observe parser.hooks parser.options parser.begun).1 = .error e t) :
    parser.parse.1 = .error e := by
  rw [parse, program_eq, h]

end Parser

/-- With another layout in a gap a source parses to the same program up to positions. -/
theorem exists_twin_of_respaced {hooks : Hooks σ} {R : σ → σ → Prop}
    (hhooks : hooks.IgnorePositions R)
    (hrules : hooks.tokenRules = [] ∨ hooks.tokenRules = [TokenRule.privateName]) {initial : σ}
    (hreset : R (hooks.reset initial) (hooks.reset initial)) {options : Options}
    {source source' : String} {front gap gap' back : List Char} {p : Program}
    (hparse : parseWith source options hooks initial = .ok p)
    (hsource : source.toList = front ++ (gap ++ back))
    (hsource' : source'.toList = front ++ (gap' ++ back))
    (hgap : IsGap (Parser.ofSource source options hooks initial).tokens front gap back)
    (hlayout : IsLayout gap') (hline : gap'.any isLineTerminator = gap.any isLineTerminator) :
    ∃ p', parseWith source' options hooks initial = .ok p' ∧ Twins p p' := by
  let parser := Parser.ofSource source options hooks initial
  let parser' := Parser.ofSource source' options hooks initial
  change parser.parse.1 = _ at hparse
  change ∃ p', parser'.parse.1 = _ ∧ _
  cases hrun : (parser.procedure.observe hooks options parser.begun).1 with
  | error e t =>
    cases hparse.symm.trans (@Parser.parse_of_error _ parser _ _ hrun)
  | ok q t =>
    cases hparse.symm.trans (@Parser.parse_of_ok _ parser _ _ hrun)
    -- Behind what the parse has consumed is the end of the source.
    have hbody := Grammar.observe_plug Script.program options hooks (source.toList.length + 2)
      (4 * (source.toList.length + 2)) parser.begun
    obtain ⟨next, hknown, hend⟩ := Grammar.facesEnd_of_program (hbody.trans hrun)
    let last : Placed := ⟨⟨next.token, next.newlineBefore, none⟩, next.span⟩
    have hlast : t.lexer.FeedsAt [last] :=
      ⟨next, _, Lexing.takeLookahead_of_some hknown, rfl, rfl, rfl, trivial⟩
    have halike : LookAlike [last.toLexeme] [last.toLexeme] := by
      refine ⟨_, [], [], rfl, rfl, fun hword => ?_⟩
      change next.token.isWord = true at hword
      rw [hend] at hword
      cases hword
    have hsights : t.lexer.Sights [last] [last.toLexeme] :=
      ⟨hlast, List.forall_mem_singleton.2 (.of_kept rfl), halike⟩
    have hfeedsOn : parser.procedure.FeedsOn .any fun _ => .any :=
      (Script.orderly_program .nothing).feedsOn (Grammar.feedsOn_routines options _ _)
    have hbegun := hfeedsOn.sights trivial hrun hsights
    obtain ⟨consumed, hconsumed⟩ :
        ∃ consumed, parser.procedure.consumed hooks options parser.begun = consumed := ⟨_, rfl⟩
    change IsGap ((parser.procedure.consumed hooks options parser.begun).filter _) _ _ _ at hgap
    rw [hconsumed] at hbegun hgap
    have hfeeds := Lexer.feeds_respaced hrules hsource hsource' hbegun.orderly hend hbegun.feedsAt
      hgap hlayout hline
    rw [List.map_append] at hfeeds
    have himitates : parser.procedure.Imitates hooks options R .any parser'.procedure :=
      (Script.orderly_program .nothing).imitates hhooks
        ((Grammar.options_routines ..).trans (Grammar.options_routines ..).symm)
        (Grammar.feedsOn_routines options _ _) (Grammar.imitates_routines hhooks _ _ _ _)
    have hends : (parser'.procedure.observe hooks options parser'.begun).EndsIn fun q t' =>
        Twins p q ∧ Mirrors R [last.toLexeme] t t' :=
      himitates.imitates trivial hrun hsights ⟨rfl, hreset, by rw [hconsumed]; exact hfeeds⟩
    unfold Observed.EndsIn at hends
    split at hends
    · next q' t' hrun' =>
      have hreturns := @Parser.parse_of_ok _ parser' _ _ hrun'
      exact ⟨q', hreturns, hends.1⟩
    · next e t' hrun' =>
      subst hends
      have hfails := @Parser.parse_of_error _ parser' _ _ hrun'
      have hadvances := (ClaimPrivateNames.of_eq hrules).advances
      exact absurd hfails (ends_parseWith source' options hooks initial hadvances)

theorem Hooks.ignorePositions_silent (rules : List TokenRule) :
    (Hooks.silent rules).IgnorePositions Eq where
  enterClass h := h
  exitClass := by
    rintro s _ t a rfl hrun
    exact ⟨t, hrun, rfl⟩
  declareMember := by
    rintro name name' hname kind start start' options s _ t a rfl hrun
    exact ⟨t, hrun, rfl⟩
  enterMethod _ h := ⟨rfl, h⟩
  exitMethod _ _ _ h := h
  referenceName := by
    rintro name name' hname options s _ t a rfl hrun
    exact ⟨t, hrun, rfl⟩
  afterUnary := by
    rintro e e' he s _ t a rfl hrun
    exact ⟨t, hrun, rfl⟩
  afterAtom := by
    rintro atom atom' hatom next s _ t a rfl hrun
    exact ⟨t, hrun, rfl⟩

/-- A source that is accepted, with private names or without, may have other white space, line
terminators and comments in a gap between two of its tokens, in front of the first one or behind the
last one: what begins with a separator, ends its own comments, and has a line terminator exactly if
the gap had one. The source is accepted with them as well, with the same tree up to positions. -/
theorem parse_layoutIndependent (source source' : String) (options : Options)
    (front gap gap' back : List Char) (hsource : source.toList = front ++ (gap ++ back))
    (hsource' : source'.toList = front ++ (gap' ++ back)) (hlayout : IsLayout gap')
    (hline : gap'.any isLineTerminator = gap.any isLineTerminator) :
    (∀ p, parsePlain source options = .ok p →
      IsGap (Parser.ofSource source options (.silent []) ()).tokens front gap back →
        ∃ p', parsePlain source' options = .ok p' ∧ p'.bare = p.bare) ∧
    ∀ p, parse source options = .ok p →
      IsGap (Parser.ofSource source options .privateNames {}).tokens front gap back →
        ∃ p', parse source' options = .ok p' ∧ p'.bare = p.bare := by
  constructor
  · intro p hparse hgap
    obtain ⟨p', hparse', htwins⟩ := exists_twin_of_respaced (Hooks.ignorePositions_silent [])
      (.inl rfl) rfl hparse hsource hsource' hgap hlayout hline
    exact ⟨p', hparse', htwins.bare_eq.symm⟩
  · intro p hparse hgap
    obtain ⟨p', hparse', htwins⟩ := exists_twin_of_respaced PrivateNames.ignorePositions
      (.inr rfl) (.refl _) hparse hsource hsource' hgap hlayout hline
    exact ⟨p', hparse', htwins.bare_eq.symm⟩

/-- A line comment and a block comment in place of the line terminator without which `++` would
be read with what stands in front of it. -/
theorem parse_layoutIndependent_of_comments :
    let gap' := " // c\n/* d */\t".toList
    (∃ p, parse "a\n++b" {} = .ok p) ∧ "a\n++b".toList = ['a'] ++ (['\n'] ++ "++b".toList) ∧
      "a // c\n/* d */\t++b".toList = ['a'] ++ (gap' ++ "++b".toList) ∧ IsLayout gap' ∧
      gap'.any isLineTerminator = ['\n'].any isLineTerminator ∧
      IsGap (Parser.ofSource "a\n++b" {} .privateNames {}).tokens ['a'] ['\n'] "++b".toList ∧
      ∃ p p', parse "a\n++b" {} = .ok p ∧ parse "a // c\n/* d */\t++b" {} = .ok p' ∧
        p'.bare = p.bare := by
  intro gap'
  obtain ⟨p, hparse⟩ : ∃ p, parse "a\n++b" {} = .ok p := by
    cases hresult : parse "a\n++b" {} with
    | ok p => exact ⟨p, rfl⟩
    | error e =>
      have hok : (parse "a\n++b" {}).isOk = true := by decide +kernel
      rw [hresult] at hok
      cases hok
  have hsource : "a\n++b".toList = ['a'] ++ (['\n'] ++ "++b".toList) := by decide
  have hsource' : "a // c\n/* d */\t++b".toList = ['a'] ++ (gap' ++ "++b".toList) := by decide
  have hlayout : IsLayout gap' := by
    refine ⟨rfl, fun following => ?_⟩
    have hend : Trivia following ['\t'] := .separator rfl .nil
    have hblock : Trivia following "/* d */\t".toList :=
      @Trivia.block following [' ', 'd', ' '] ['\t'] (by decide) hend
    have hbody : ∀ c ∈ [' ', 'c'], isLineTerminator c = false :=
      List.forall_mem_cons.2 ⟨rfl, List.forall_mem_singleton.2 rfl⟩
    exact .separator rfl (@Trivia.line following [' ', 'c'] ('\n' :: "/* d */\t".toList) hbody
      rfl (.separator rfl hblock))
  have hline : gap'.any isLineTerminator = ['\n'].any isLineTerminator := by decide
  have hgap : IsGap (Parser.ofSource "a\n++b" {} .privateNames {}).tokens ['a'] ['\n']
      "++b".toList := by
    have htokens : (Parser.ofSource "a\n++b" {} .privateNames {}).tokens.map
        (fun t => (t.span.start.offset, t.span.stop.offset)) = [(0, 1), (2, 4), (4, 5)] := by
      decide +kernel
    obtain ⟨first, rest, htokens, hfirst, hrest⟩ := List.map_eq_cons_iff.1 htokens
    obtain ⟨second, more, rfl, hsecond, -⟩ := List.map_eq_cons_iff.1 hrest
    refine ⟨[first], second :: more, htokens, ?_, ?_⟩
    · exact (Prod.mk.inj hfirst).2.symm
    · exact (Prod.mk.inj hsecond).1.symm
  obtain ⟨p', hparse', hbare⟩ := (parse_layoutIndependent "a\n++b" "a // c\n/* d */\t++b" {} ['a']
    ['\n'] gap' "++b".toList hsource hsource' hlayout hline).2 p hparse hgap
  exact ⟨⟨p, hparse⟩, hsource, hsource', hlayout, hline, hgap, p, p', hparse, hparse', hbare⟩

end EcmaScript
