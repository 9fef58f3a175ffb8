import EcmaScript.Proofs.Deepening
import EcmaScript.Proofs.Enclosed.Rule
import EcmaScript.Proofs.Operators.Rule

/-!
An expression in parentheses as an operand.

In parentheses an expression is read as a row of items, with its own questions between them: is
there a closing parenthesis, or a rest parameter? No expression begins with either, so an
expression that has been read up to the end of the source reads as itself in parentheses, in front
of whatever follows them but an arrow.
-/

namespace EcmaScript

variable {σ α β κ : Type}

/-! ## Tokens that no expression begins with -/

/-- In front of the token the rule does not return. -/
structure Refuses (token : Token) (p : Parse σ α) : Prop where
  refuses : ∀ {s middle t : ParserState σ} {next : Lookahead} {a : α}, s.LooksTo next middle →
    next.token = token → p s ≠ .ok a t

namespace Refuses

variable {token : Token} {p : Parse σ β} {q : β → Parse σ α}

theorem unexpected : Refuses token (Parse.unexpected : Parse σ α) := by
  refine ⟨fun _ _ hrun => ?_⟩
  obtain ⟨_, _, -, hfail⟩ := Parse.bind_eq_ok hrun
  cases hfail

theorem bind (h : Refuses token p) : Refuses token (p >>= q) := by
  refine ⟨fun hlook htoken hrun => ?_⟩
  obtain ⟨b, between, hfirst, -⟩ := Parse.bind_eq_ok hrun
  exact h.refuses hlook htoken hfirst

theorem startPosition {q : Position → Parse σ α} (hq : ∀ start, Refuses token (q start)) :
    Refuses token (Parse.startPosition >>= q) :=
  ⟨fun hlook htoken hrun => by
    rw [Parse.bind_of_ok hlook.startPosition] at hrun
    exact (hq _).refuses hlook.again htoken hrun⟩

theorem context {q : Context → Parse σ α} (hq : ∀ context, Refuses token (q context)) :
    Refuses token (Parse.context >>= q) :=
  ⟨fun hlook htoken hrun => (hq _).refuses hlook htoken hrun⟩

theorem peek {q : Token → Parse σ α} (hq : Refuses token (q token)) :
    Refuses token (Parse.peek >>= q) :=
  ⟨fun hlook htoken hrun => by
    rw [Parse.bind_of_ok hlook.peek, htoken] at hrun
    exact hq.refuses hlook.again htoken hrun⟩

theorem nextIsWord {word : Keyword} {q : Bool → Parse σ α} (hne : token ≠ .keyword word)
    (hq : Refuses token (q false)) : Refuses token (Parse.nextIsWord word >>= q) :=
  ⟨fun hlook htoken hrun => by
    rw [Parse.bind_of_ok (hlook.nextIsWord word), htoken, beq_false_of_ne hne] at hrun
    exact hq.refuses hlook.again htoken hrun⟩

/-- No expression begins with a closing parenthesis, or with the mark of a spread. -/
theorem assignmentRule (g : Grammar σ) {symbol : Punctuator}
    (h : symbol = .rParen ∨ symbol = .spread) :
    Refuses (.punctuator symbol) g.assignmentRule := by
  have hword (word : Keyword) : Token.punctuator symbol ≠ .keyword word := nofun
  have hnone : UnaryOperator.ofToken? (.punctuator symbol) = none ∧
      UpdateOperator.ofToken? (.punctuator symbol) = none := by
    obtain rfl | rfl := h <;> exact ⟨rfl, rfl⟩
  have hatom : Refuses (.punctuator symbol) g.atom := by
    refine startPosition fun start => peek ?_
    obtain rfl | rfl := h <;> exact unexpected
  have hleft : Refuses (.punctuator symbol) g.leftHandSideRule :=
    startPosition fun start => nextIsWord (hword _) (hatom.bind.bind)
  have hunary : Refuses (.punctuator symbol) g.unaryRule := by
    refine bind (startPosition fun start => peek ?_)
    rw [hnone.1, hnone.2]
    refine context fun context => ?_
    rw [beq_false_of_ne (hword _), Bool.and_false]
    exact hleft.bind
  have hconditional : Refuses (.punctuator symbol) g.conditional :=
    startPosition fun start => bind (startPosition fun start => hunary.bind)
  have hrest (rest : Position → Expression → Parse σ Expression) : Refuses (.punctuator symbol)
      (Parse.startPosition >>= fun start => g.conditional >>= rest start) :=
    startPosition fun start => hconditional.bind
  unfold Grammar.assignmentRule
  refine context fun context => ?_
  dsimp only
  split
  · exact nextIsWord (hword _) (hrest _)
  · exact hrest _

theorem assignment (options : Options) (hooks : Hooks σ) (bound depth : Nat)
    {symbol : Punctuator} (h : symbol = .rParen ∨ symbol = .spread) :
    Refuses (.punctuator symbol) (Grammar.ofDepth options hooks bound depth).assignment := by
  cases depth with
  | zero => exact ⟨fun _ _ hrun => by cases hrun⟩
  | succ depth => exact assignmentRule _ h

end Refuses

/-! ## The list in parentheses -/

namespace Copies

open Parse Grammar

variable {R : σ → σ → Prop} {view : View} {reach : Reach} [Bare α]

/-- A look at the token that the rule will consume. -/
theorem glancing {p : Parse σ α} {p' : κ → Parse σ α} {q' : κ → Token → Parse σ α}
    (h : Copies R view p p' .consuming)
    (hq : ∀ {s middle t : ParserState σ} {next : Lookahead} {a : α}, p s = .ok a t →
      s.LooksTo next middle → ∀ i, q' i next.token = p' i) :
    Copies R view p (fun i => Parse.peek >>= q' i) .consuming := by
  refine ⟨fun {s t a} hsees hrun => ?_⟩
  obtain ⟨consumed, htrail, hasks, hcopies⟩ := h.copies hsees hrun
  refine ⟨consumed, htrail, hasks, fun {tokens others s'} i hsights hmirrors => ?_⟩
  obtain ⟨placed, consumed, rfl⟩ := List.exists_cons_of_ne_nil hasks.2
  obtain ⟨next, lexer, hlook, htoken, -, -⟩ :=
    (htrail.feedsAt tokens hsights.feedsAt).feeds.lookahead
  obtain ⟨next', lexer', hlook', htoken', -, hfeeds⟩ := hmirrors.feeds.lookahead
  have hlooks : s.LooksTo next { s with lexer := lexer } := by
    unfold ParserState.LooksTo Parse.lexing
    rw [hlook]
  have hlooks' : s'.LooksTo next' { s' with lexer := lexer' } := by
    unfold ParserState.LooksTo Parse.lexing
    rw [hlook']
  unfold Ends
  rw [Parse.bind_of_ok hlooks'.peek, htoken', ← htoken, hq hrun hlooks i]
  exact hcopies i hsights ⟨hmirrors.context, hmirrors.hooks, hfeeds⟩

/-- Asking for a token that no expression begins with, in front of one. -/
theorem declining {p : Parse σ β} {rest : β → Parse σ α} {p' other' : κ → Parse σ α}
    {symbol : Punctuator} (hrefuses : Refuses (.punctuator symbol) p)
    (h : Copies R view (p >>= rest) p' .consuming) :
    Copies R view (p >>= rest)
      (fun i => Parse.nextIs symbol >>= fun is => if is then other' i else p' i) .consuming := by
  unfold Parse.nextIs
  simp only [bind_assoc, pure_bind]
  refine h.glancing fun hrun hlook i => ?_
  obtain ⟨_, _, hfirst, -⟩ := Parse.bind_eq_ok hrun
  rw [beq_false_of_ne fun htoken => hrefuses.refuses hlook htoken hfirst]
  rfl

/-- The next item of a sequence, and what is read of it in parentheses. -/
theorem itemsRound {g g' : Grammar σ} [Tied R g g']
    (hrefuses : ∀ symbol, symbol = .rParen ∨ symbol = .spread →
      Refuses (.punctuator symbol) g.assignment)
    {rest : List Expression → Parse σ (List Expression)} {rest' : ParenRead → Parse σ ParenRead}
    (hrest : ∀ read, Copies R .any
      (g.assignment >>= fun item => (fun items => ParenRead.mk items none false) <$>
        rest (item :: read))
      (fun x : TwinOf read => rest' ⟨x.value, none, false⟩) .consuming)
    (read : List Expression) :
    Copies R .any
      (g.assignment >>= fun item => (fun items => ParenRead.mk items none false) <$>
        (g.expressionRound (item :: read) >>= continued rest))
      (fun x : TwinOf read => g'.parenItemsRound ⟨x.value, none, false⟩ >>= continued rest')
      .consuming := by
  unfold expressionRound parenItemsRound
  simp only [bind_assoc, bind_ite, pure_bind, map_eq_pure_bind, continued] at hrest ⊢
  refine declining (hrefuses .rParen (.inl rfl)) ?_
  refine declining (hrefuses .spread (.inr rfl)) ?_
  refine stepTwins .enclosed (fun item => ?_) rfl
  refine choosing .consuming .enclosed ?_ ?_ rfl nofun
  · -- Behind a comma the closing parenthesis is asked for once more.
    have hmore := (hrest (item :: read)).reindex
      fun x : TwinOf read × TwinOf item => ⟨x.2.value :: x.1.value, inferInstance⟩
    unfold Parse.nextIs
    simp only [bind_assoc, pure_bind]
    refine hmore.glancing fun hrun hlook i => ?_
    obtain ⟨_, _, hfirst, -⟩ := Parse.bind_eq_ok hrun
    rw [beq_false_of_ne fun htoken => (hrefuses .rParen (.inl rfl)).refuses hlook htoken hfirst]
  · exact pure

/-- The items of a sequence, and what is read of them in parentheses. -/
theorem items {g g' : Grammar σ} [Tied R g g']
    (hrefuses : ∀ symbol, symbol = .rParen ∨ symbol = .spread →
      Refuses (.punctuator symbol) g.assignment) (bound bound' : Nat) (read : List Expression) :
    Copies R .any
      (g.assignment >>= fun item => (fun items => ParenRead.mk items none false) <$>
        repeatRounds g.expressionRound bound (item :: read))
      (fun x : TwinOf read => repeatRounds g'.parenItemsRound bound' ⟨x.value, none, false⟩)
      .consuming := by
  induction bound generalizing bound' read with
  | zero =>
    refine of_fails fun s t list hrun => ?_
    obtain ⟨_, _, -, hrest⟩ := Parse.bind_eq_ok hrun
    cases hrest
  | succ bound ih =>
    have hfirst (bound' : Nat) := @itemsRound _ _ g g' _ hrefuses _ _ (ih bound') read
    cases bound' with
    | zero => exact (hfirst 0).exhausted fun _ => rfl
    | succ bound' => exact hfirst bound'

end Copies

/-! ## Expressions and what is read of them in parentheses -/

def Expression.IsValueOf (items : List Expression) (e : Expression) : Prop :=
  items = [e] ∨ 1 < items.length ∧ ∃ span, e = .sequence items.reverse span

namespace Grammar

variable {g : Grammar σ} {s t : ParserState σ} {e : Expression}

/-- The items read so far stay. -/
theorem suffix_of_expressionRounds {bound : Nat} {read items : List Expression}
    (h : repeatRounds g.expressionRound bound read s = .ok items t) : read <:+ items := by
  induction bound generalizing read s with
  | zero => cases h
  | succ bound ih =>
    obtain ⟨round, middle, hround, hrest⟩ := Parse.bind_eq_ok h
    obtain ⟨accepted, _, -, hround⟩ := Parse.bind_eq_ok hround
    cases accepted with
    | false =>
      cases hround
      cases hrest
      exact List.suffix_refl _
    | true =>
      obtain ⟨item, _, -, hpure⟩ := Parse.bind_eq_ok hround
      cases hpure
      exact (List.suffix_cons item read).trans (ih hrest)

/-- An expression is the value of the items that are read one after the other. -/
theorem exists_items_of_expression (hbound : g.bound ≠ 0) (h : g.expression s = .ok e t) :
    ∃ next start items, s.LooksTo next start ∧ e.IsValueOf items ∧
      (g.assignment >>= fun item => repeatRounds g.expressionRound g.bound [item]) start =
        .ok items t := by
  obtain ⟨_, start, hstart, h⟩ := Parse.bind_eq_ok h
  obtain ⟨next, hlook, -⟩ := Parse.startPosition_eq_ok hstart
  obtain ⟨first, middle, hfirst, h⟩ := Parse.bind_eq_ok h
  obtain ⟨more, between, hcomma, h⟩ := Parse.bind_eq_ok h
  obtain ⟨behind, hbehind, rfl⟩ := Parse.nextIs_eq_ok hcomma
  refine ⟨next, start, ?_⟩
  simp only [Parse.bind_of_ok hfirst]
  obtain ⟨bound, hbound⟩ := Nat.exists_eq_succ_of_ne_zero hbound
  by_cases htoken : behind.token = .punctuator .comma
  · rw [htoken, beq_self_eq_true] at h
    obtain ⟨items, last, hitems, h⟩ := Parse.bind_eq_ok h
    cases h
    -- The comma that has been seen is consumed in the first round.
    have hround : g.expressionRound [first] middle = g.expressionRound [first] between := by
      unfold expressionRound
      rw [Parse.bind_of_ok (hbehind.accept htoken), Parse.bind_of_ok (hbehind.again.accept htoken)]
    have hsame : repeatRounds g.expressionRound g.bound [first] middle = .ok items last := by
      rw [← hitems, loop, hbound]
      simp only [repeatRounds, Bind.bind, EStateM.bind, hround]
    refine ⟨items, hlook, .inr ⟨?_, _, rfl⟩, hsame⟩
    rw [hbound] at hsame
    obtain ⟨round, _, hround, hrest⟩ := Parse.bind_eq_ok hsame
    unfold expressionRound at hround
    rw [Parse.bind_of_ok (hbehind.accept htoken)] at hround
    obtain ⟨second, _, -, hpure⟩ := Parse.bind_eq_ok hround
    cases hpure
    exact (suffix_of_expressionRounds hrest).length_le
  · rw [beq_false_of_ne htoken] at h
    cases h
    have hround : g.expressionRound [e] middle = .ok (.stop [e]) t := by
      unfold expressionRound
      rw [Parse.bind_of_ok (hbehind.declines htoken)]
      rfl
    refine ⟨[e], hlook, .inl rfl, ?_⟩
    rw [hbound, repeatRounds, Parse.bind_of_ok hround]
    rfl

/-- What a rule that a script denotes does in a deeper grammar, unless its depth runs out. -/
theorem ends_of_deeper {options : Options} {hooks : Hooks σ} {bound depth deepest : Nat}
    (script : Script α) (hle : depth ≤ deepest) {Q : α → ParserState σ → Prop}
    (hdeepest : Ends (fun e _ => e = .exhausted)
      (script.denote (.ofDepth options hooks bound deepest)) s Q) :
    Ends (fun e _ => e = .exhausted) (script.denote (.ofDepth options hooks bound depth)) s Q := by
  obtain ⟨s', hfailed⟩ | hsame := deepen script hle s
  · unfold Ends
    rw [hfailed]
  · unfold Ends at hdeepest ⊢
    rwa [hsame] at hdeepest

end Grammar

/-- An expression that has been read up to the end of the source reads as itself in parentheses. -/
theorem exists_parses_parenthesized {R : σ → σ → Prop} {hooks : Hooks σ} {options : Options}
    (hignores : hooks.IgnorePositions R)
    (hatEnd : ∀ {atom atom' : Expression}, Twins atom atom' →
      Echoed R (hooks.afterAtom atom .endOfInput) (hooks.afterAtom atom' (.punctuator .rParen)))
    {bound depth : Nat} (hbound : bound ≠ 0) {s t : ParserState σ} {e : Expression}
    (hrun : (Grammar.ofDepth options hooks bound depth).expression s = .ok e t)
    (hcontext : t.context = s.context) (hhooks : t.hooks = s.hooks)
    (hin : s.context.inForInit = false) {newline : Bool} {span : Span}
    (hend : t.lexer.FeedsAt [⟨.ending newline, span⟩]) (bound' deepest : Nat) :
    ∃ consumed, Trail consumed s.lexer t.lexer ∧ Placed.StopsShort consumed ∧
      ∀ depth ≤ deepest, ∀ next rest, next.token ≠ .punctuator .arrow →
        Parses (R s.hooks) (Grammar.ofDepth options hooks bound' depth).atom s.context
          (.of (.punctuator .lParen) ::
            (consumed.map Placed.toLexeme ++ .closing newline :: next :: rest))
          (Twins e) (next :: rest) := by
  let g : Grammar σ := .ofDepth options hooks bound depth
  let g' (depth : Nat) : Grammar σ := .ofDepth options hooks bound' depth
  have hbound : g.bound ≠ 0 := by
    dsimp only [g]
    cases depth <;> exact hbound
  have _ : Tied R g (g' deepest) := tied_ofDepth hignores hatEnd options bound bound' depth deepest
  obtain ⟨first, start, items, hlook, hvalue, hitems⟩ :=
    Grammar.exists_items_of_expression hbound hrun
  have hread : (g.assignment >>= fun item =>
      (fun items => Grammar.ParenRead.mk items none false) <$>
        repeatRounds g.expressionRound g.bound [item]) start = .ok ⟨items, none, false⟩ t := by
    simp only [map_eq_pure_bind, ← bind_assoc]
    rw [Parse.bind_of_ok hitems]
    rfl
  have hrefuses (symbol : Punctuator) (hsymbol : symbol = .rParen ∨ symbol = .spread) :
      Refuses (.punctuator symbol) g.assignment :=
    .assignment options hooks bound depth hsymbol
  obtain ⟨consumed, htrail, hasks, hcopies⟩ := (@Copies.items _ R g (g' deepest) _ hrefuses g.bound
    (g' deepest).bound []).copies trivial hread
  obtain ⟨placed, consumed, rfl⟩ := List.exists_cons_of_ne_nil hasks.2
  refine ⟨placed :: consumed, ?_, hasks.1, fun depth hle next rest hnext => ?_⟩
  · exact (Trail.nil hlook.takes.2 hlook.lastSpan_eq).append htrail
  have hparenItems : Parses (R s.hooks) (g' depth).parenItems s.context
      ((placed :: consumed).map Placed.toLexeme ++ .closing newline :: next :: rest)
      (Twins ⟨items, none, false⟩) (.closing newline :: next :: rest) := by
    intro s' hcontext' hhooks' hfeeds
    rw [← Script.denote_parenItems]
    refine Grammar.ends_of_deeper Script.parenItems hle ?_
    rw [Script.denote_parenItems]
    have hsights : Reach.consuming.Sights t.lexer [⟨.ending newline, span⟩]
        (.closing newline :: next :: rest) :=
      ⟨hend, List.forall_mem_singleton.2 (.of_kept rfl), .inr ⟨[], newline, next :: rest, rfl, rfl⟩⟩
    have hmirrors : Mirrors R ((placed :: consumed).map Placed.toLexeme ++
        .closing newline :: next :: rest) start s' :=
      ⟨by rw [hlook.context_eq, hcontext'], by rwa [hlook.hooks_eq], hfeeds⟩
    refine (hcopies ⟨[], inferInstance⟩ hsights hmirrors).mono ?_ fun _ _ he => he
    rintro read t' ⟨htwins, ht⟩
    exact ⟨htwins, ht.context.trans hcontext, hhooks ▸ ht.hooks, ht.feeds⟩
  refine Parses.startPosition.step fun start => Parses.peek.seq ?_
  refine (Parses.expect rfl rfl).step fun _ => Parses.allowingIn hin ?_
  refine Parses.startPosition.step fun innerStart => hparenItems.bind ?_
  rintro ⟨items', rest', trailing⟩ htwins
  obtain rfl : rest' = none := (Twins.parenRest (h := htwins)).eq_none
  obtain rfl : false = trailing := (Twins.trailingComma (h := htwins)).eq
  have hitems : Twins items items' := Twins.parenItems (h := htwins)
  refine Parses.lastEnd.step fun stop => (Parses.expect rfl rfl).step fun _ => ?_
  refine (Parses.nextIsArrow_false hnext).seq ?_
  obtain rfl | ⟨hlength, span, rfl⟩ := hvalue
  · obtain ⟨e', _, rfl, he, hnone⟩ := hitems.eq_cons
    cases hnone.eq_nil
    exact Parses.pure he
  · obtain ⟨first, more, rfl⟩ := List.exists_cons_of_length_pos (Nat.lt_of_succ_lt hlength)
    obtain ⟨second, more, rfl⟩ := List.exists_cons_of_length_pos (Nat.lt_of_succ_lt_succ hlength)
    obtain ⟨first', _, rfl, _, hmore⟩ := hitems.eq_cons
    obtain ⟨second', more', rfl, _, _⟩ := hmore.eq_cons
    exact Parses.pure inferInstance

end EcmaScript
