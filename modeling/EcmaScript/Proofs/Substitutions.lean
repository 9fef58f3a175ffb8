import EcmaScript.Proofs.Moves

/-!
Braces and substitutions of templates, as a run goes through them.

A brace that is consumed opens something, and so does the text of a template up to a substitution; a
closing brace closes what was opened last. A procedure nests if it never reads anything again but
the slash or the closing brace that it has just consumed, and the text of a template only behind
the brace that closes a substitution. What a procedure does to what is open is told by a change for
its start and one for its end: it leads from the first to the second, whatever is open around it.
-/

namespace EcmaScript

variable {σ α β : Type}

/-! ## What is open -/

theorem Token.nest_of_isSlash {token : Token} (h : token.isSlash = true) (opened : List Opening) :
    token.nest opened = opened := by
  rcases Bool.or_eq_true_iff.1 h with h | h <;> rw [eq_of_beq h]

def openBehind (moves : List LexMove) (opened : List Opening) : List Opening :=
  (moves.filterMap LexMove.token?).foldl (fun opened token => token.nest opened) opened

theorem openBehind_append (moves more : List LexMove) (opened : List Opening) :
    openBehind (moves ++ more) opened = openBehind more (openBehind moves opened) := by
  simp [openBehind]

/-- The move may come behind the ones in front of it: nothing is read again but a slash that has just
been consumed, and the text of a template only behind a closing brace that has just been consumed
and closes a substitution. -/
def LexMove.Follows (opened : List Opening) (front : List LexMove) : LexMove → Prop
  | ⟨.rescanRegExp, lexer⟩ => ∃ earlier before token, front = earlier ++ [⟨.next, before⟩] ∧
    Lexing.next before = .ok token lexer ∧ token.isSlash = true
  | ⟨.readTemplateContinuation, lexer⟩ => ∃ earlier before around,
    front = earlier ++ [⟨.next, before⟩] ∧
      Lexing.next before = .ok (.punctuator .rBrace) lexer ∧
        openBehind earlier opened = .substitution :: around
  | ⟨.regExp, _⟩ | ⟨.templateContinuation, _⟩ => False
  | _ => True

theorem LexMove.Follows.behind {opened : List Opening} {moves front : List LexMove} {move : LexMove}
    (h : move.Follows (openBehind moves opened) front) : move.Follows opened (moves ++ front) := by
  obtain ⟨step, lexer⟩ := move
  cases step with
  | rescanRegExp =>
    obtain ⟨earlier, before, token, rfl, hnext, htoken⟩ := h
    exact ⟨moves ++ earlier, before, token, by simp, hnext, htoken⟩
  | readTemplateContinuation =>
    obtain ⟨earlier, before, around, rfl, hnext, hopen⟩ := h
    exact ⟨moves ++ earlier, before, around, by simp, hnext, by rw [openBehind_append, hopen]⟩
  | regExp | templateContinuation => exact h
  | _ => trivial

/-- Every move may come behind the ones in front of it. -/
def InStep (opened : List Opening) (moves : List LexMove) : Prop :=
  ∀ front move back, moves = front ++ move :: back → move.Follows opened front

namespace InStep

variable {opened : List Opening} {moves more : List LexMove}

theorem nil : InStep opened [] := fun _ _ _ h => by simp at h

/-- Where the moves behind begin, that is open what the moves in front have left open. -/
theorem append (h : InStep opened moves) (h' : InStep (openBehind moves opened) more) :
    InStep opened (moves ++ more) := by
  intro front move back heq
  obtain ⟨rest, rfl, hmore⟩ | ⟨rest, rfl, hback⟩ := List.append_eq_append_iff.1 heq
  · exact (h' rest move back hmore).behind
  · cases rest with
    | nil => simpa using (h' [] move back hback.symm).behind
    | cons last rest =>
      obtain ⟨rfl, -⟩ := List.cons_eq_cons.1 hback
      exact h front move rest rfl

theorem single {move : LexMove} (h : move.Follows opened []) : InStep opened [move] := by
  intro front last back heq
  cases front with
  | nil =>
    obtain ⟨rfl, -⟩ := List.cons_eq_cons.1 heq
    exact h
  | cons first front => simp at heq

end InStep

/-! ## Procedures -/

/-- From what is open at its start, which is `before` applied to what is open around it, the
procedure leads to what is open at its end, in step. -/
structure Procedure.Nests (view : View) (before : Nesting) (after : α → Nesting)
    (procedure : Procedure α) : Prop where
  leads : ∀ {σ : Type} (hooks : Hooks σ) (options : Options) (s : ParserState σ)
    (around : List Opening), view.Sees s.lexer →
      InStep (before around) (procedure.moves hooks options s) ∧
        ∀ a t, (procedure.observe hooks options s).1 = .ok a t →
          openBehind (procedure.moves hooks options s) (before around) = after a around

namespace Procedure.Nests

variable {view : View} {before : Nesting} {after : α → Nesting}

/-- A procedure without moves. -/
theorem still {procedure : Procedure α}
    (hmoves : ∀ {σ : Type} (hooks : Hooks σ) (options : Options) (s : ParserState σ),
      procedure.moves hooks options s = []) :
    procedure.Nests view before (fun _ => before) := by
  refine ⟨fun hooks options s around _ => ?_⟩
  rw [hmoves]
  exact ⟨.nil, fun _ _ _ => rfl⟩

theorem pure {a : α} (h : after a = before) : (Procedure.pure a).Nests view before after :=
  ⟨fun _ _ _ _ _ => ⟨.nil, fun _ _ hrun => by cases hrun; rw [h]; rfl⟩⟩

theorem raise (d : Diagnostic) : (Procedure.raise d : Procedure α).Nests view before after :=
  ⟨fun _ _ _ _ _ => ⟨.nil, fun _ _ h => by cases h⟩⟩

theorem exhaust : (Procedure.exhaust : Procedure α).Nests view before after :=
  ⟨fun _ _ _ _ _ => ⟨.nil, fun _ _ h => by cases h⟩⟩

/-- What is open around a procedure may be part of its start and end. -/
theorem frame {procedure : Procedure α} (h : procedure.Nests view id fun _ => id)
    (opened : Nesting) : procedure.Nests view opened (fun _ => opened) :=
  ⟨fun hooks options s around hsees => h.leads hooks options s (opened around) hsees⟩

theorem anywhere {procedure : Procedure α} (h : procedure.Nests .any before after) :
    procedure.Nests view before after :=
  ⟨fun hooks options s around _ => h.leads hooks options s around trivial⟩

/-- One procedure behind the other, where the second one is given what is seen at its start. -/
theorem bindSeeing {first : Procedure β} {next : β → Procedure α} {between : β → Nesting}
    (sight : β → View) (hfirst : first.Nests view before between)
    (hsight : ∀ {σ : Type} (hooks : Hooks σ) (options : Options) (s t : ParserState σ) (b : β),
      view.Sees s.lexer → (first.observe hooks options s).1 = .ok b t → (sight b).Sees t.lexer)
    (hnext : ∀ b, (next b).Nests (sight b) (between b) after) :
    (Procedure.bind first next).Nests view before after := by
  refine ⟨fun hooks options s around hsees => ?_⟩
  obtain ⟨hstep, hopen⟩ := hfirst.leads hooks options s around hsees
  simp only [moves, observe]
  have hsight := hsight hooks options s
  rcases hrun : first.observe hooks options s with ⟨result, events⟩
  rw [hrun] at hopen hsight
  cases result with
  | error e s' =>
    rw [List.append_nil]
    exact ⟨hstep, fun _ _ h => by cases h⟩
  | ok b s' =>
    obtain ⟨hstep', hopen'⟩ := (hnext b).leads hooks options s' around (hsight s' b hsees rfl)
    rw [← hopen b s' rfl] at hstep' hopen'
    refine ⟨hstep.append hstep', fun a t h => ?_⟩
    rw [openBehind_append]
    exact hopen' a t h

theorem bind {first : Procedure β} {next : β → Procedure α} {between : β → Nesting}
    (hfirst : first.Nests view before between) (hnext : ∀ b, (next b).Nests .any (between b) after) :
    (Procedure.bind first next).Nests view before after :=
  hfirst.bindSeeing (fun _ => .any) (fun _ _ _ _ _ _ _ => trivial) hnext

/-- A step of the lexer that consumes nothing. -/
theorem look (step : LexStep α) (hmoves : ∀ lexer, step.moves lexer = [⟨step, lexer⟩])
    (hfollows : ∀ lexer opened, LexMove.Follows opened [] ⟨step, lexer⟩)
    (htoken : ∀ lexer, LexMove.token? ⟨step, lexer⟩ = none) :
    (Procedure.lex step).Nests view before (fun _ => before) := by
  refine ⟨fun hooks options s around _ => ?_⟩
  simp only [moves, hmoves]
  exact ⟨.single (hfollows _ _), fun a t _ => by simp [openBehind, htoken]⟩

/-- A question about a token that has been looked at. -/
theorem ask {token : Token} {f : Token → α} (h : after (f token) = before) :
    (Procedure.bind (.lex .peek) fun seen => .pure (f seen)).Nests (.facing token) before after := by
  refine ⟨fun hooks options s around hsees => ?_⟩
  have hpeek : (observe hooks options (.lex .peek) s).1 = .ok token s := observe_peek hsees
  obtain ⟨hfirst, hopen⟩ := (look .peek (fun _ => rfl) (fun _ _ => trivial) fun _ => rfl).leads
    hooks options s around hsees
  simp only [moves, hpeek, List.append_nil] at hfirst hopen ⊢
  refine ⟨hfirst, fun a t hrun => ?_⟩
  obtain ⟨seen, middle, hpeek', hrun'⟩ := Observed.of_andThen hrun
  cases hpeek.symm.trans hpeek'
  cases hrun'
  rw [h]
  exact hopen token s rfl

/-- Consuming a token. -/
theorem next : (Procedure.lex .next).Nests view before
    (fun token around => token.nest (before around)) := by
  refine ⟨fun hooks options s around _ => ?_⟩
  refine ⟨.single trivial, fun token t h => ?_⟩
  simp only [observe, Observed.fst_ofResult] at h
  obtain ⟨lexer, hnext, rfl⟩ := Parse.lexing_eq_ok h
  change Lexing.next s.lexer = _ at hnext
  simp [moves, LexStep.moves, openBehind, LexMove.token?, hnext, returned]

/-- Consuming a token that has been looked at. -/
theorem nextFacing (token : Token) : (Procedure.lex .next).Nests (.facing token) before
    (fun _ around => token.nest (before around)) := by
  refine ⟨fun hooks options s around hsees => ?_⟩
  refine ⟨.single trivial, fun answer t h => ?_⟩
  rw [(next.leads hooks options s around hsees).2 answer t h]
  simp only [observe, Observed.fst_ofResult] at h
  obtain ⟨lexer, hnext, rfl⟩ := Parse.lexing_eq_ok h
  obtain ⟨known, hknown, rfl⟩ := hsees
  obtain ⟨taken, behind, htake, rfl, -⟩ := Lexing.of_next hnext
  rw [Lexing.takeLookahead_of_some hknown] at htake
  cases htake
  rfl

/-- What the moves of a step that consumes a token and reads it again do. -/
theorem again {step : LexStep Token} (reading : LexStep Token) {token : Token}
    (hrun : step.run = do let _ ← Lexing.next; reading.run)
    (hmoves : ∀ lexer token behind, Lexing.next lexer = .ok token behind →
      step.moves lexer = [⟨.next, lexer⟩, ⟨reading, behind⟩])
    (htoken : ∀ lexer, LexMove.token? ⟨reading, lexer⟩ = returned (reading.run lexer))
    (hfollows : ∀ lexer behind around, Lexing.next lexer = .ok token behind →
      LexMove.Follows (before around) [⟨.next, lexer⟩] ⟨reading, behind⟩) :
    (Procedure.lex step).Nests (.facing token) before
      (fun answer around => answer.nest (token.nest (before around))) := by
  refine ⟨fun hooks options s around hsees => ?_⟩
  obtain ⟨known, hknown, rfl⟩ := hsees
  have hnext := Lexing.next_of_take (Lexing.takeLookahead_of_some hknown)
  simp only [moves, hmoves _ _ _ hnext]
  constructor
  · intro front move back heq
    rcases front with _ | ⟨first, _ | ⟨second, front⟩⟩
    · obtain ⟨rfl, -⟩ := List.cons_eq_cons.1 heq
      trivial
    · simp only [List.cons_append, List.nil_append, List.cons.injEq] at heq
      obtain ⟨rfl, rfl, -⟩ := heq
      exact hfollows _ _ _ hnext
    · simp at heq
  · intro answer t h
    simp only [observe, Observed.fst_ofResult] at h
    obtain ⟨lexer, hread, rfl⟩ := Parse.lexing_eq_ok h
    rw [hrun] at hread
    simp only [Bind.bind, EStateM.bind, hnext] at hread
    simp only [openBehind, List.filterMap_cons, htoken, hread]
    simp [LexMove.token?, hnext, returned]

/-- Reading a slash as a regular expression. -/
theorem regExp {token : Token} (htoken : token.isSlash = true) :
    (Procedure.lex .regExp).Nests (.facing token) before
      (fun answer around => answer.nest (before around)) := by
  have hread : (Procedure.lex .regExp).Nests (.facing token) before
      (fun answer around => answer.nest (token.nest (before around))) :=
    again .rescanRegExp rfl (fun _ _ _ hnext => by simp only [LexStep.moves, hnext]) (fun _ => rfl)
      fun lexer _ _ hnext => ⟨[], lexer, token, rfl, hnext, htoken⟩
  simpa only [Token.nest_of_isSlash htoken] using hread

/-- Reading the text of a template behind the brace that closes a substitution. -/
theorem templateContinuation (opened : Nesting) :
    (Procedure.lex .templateContinuation).Nests (.facing (.punctuator .rBrace))
      (fun around => .substitution :: opened around)
      (fun answer around => answer.nest (opened around)) :=
  again .readTemplateContinuation rfl (fun _ _ _ hnext => by simp only [LexStep.moves, hnext])
    (fun _ => rfl) fun lexer _ _ hnext => ⟨[], lexer, _, rfl, hnext, rfl⟩

/-- By induction on the bound: rounds that come back to where they began. -/
theorem rounds {round : α → Procedure (Round α β)} {known : Known} {stop : Nesting}
    (hround : ∀ a, (round a).Nests .any known.opened fun result => (known.round stop result).opened)
    (bound : Nat) (a : α) :
    (Procedure.rounds round bound a).Nests view known.opened (fun _ => stop) := by
  refine anywhere ?_
  induction bound generalizing a with
  | zero => exact exhaust
  | succ bound ih =>
    refine bind (hround a) fun result => ?_
    cases result with
    | again a' => exact ih a'
    | stop b => exact pure rfl

theorem within (region : Region) {body : Procedure α} (h : body.Nests view before after) :
    (Procedure.within region body).Nests view before after := by
  refine ⟨fun hooks options s around hsees => ?_⟩
  obtain ⟨hstep, hopen⟩ :=
    h.leads hooks options { s with context := region.enter s.context } around hsees
  refine ⟨hstep, fun a t hrun => ?_⟩
  obtain ⟨t', -, hrun', -⟩ := Observed.of_leaving hrun
  exact hopen a t' hrun'

theorem arrow (isAsync : Bool) {body : Bool → Procedure α}
    (h : ∀ isBlock, (body isBlock).Nests .any before after) :
    (Procedure.arrow isAsync body).Nests view before after := by
  refine ⟨fun hooks options s around _ => ?_⟩
  have hpeek : InStep (before around) [⟨.peek, s.lexer⟩] := .single trivial
  simp only [moves, observe]
  cases hblock : Parse.nextIs .lBrace { s with context := Grammar.enterArrow isAsync s.context } with
  | error e inside => exact ⟨hpeek, fun _ _ hrun => by cases hrun⟩
  | ok isBlock inside =>
    obtain ⟨hstep, hopen⟩ := (h isBlock).leads hooks options inside around trivial
    refine ⟨hpeek.append hstep, fun a t hrun => ?_⟩
    obtain ⟨t', -, hrun', -⟩ := Observed.of_leaving hrun
    exact hopen a t' hrun'

theorem inClass {body : Procedure α} (h : body.Nests view before after) :
    (Procedure.inClass body).Nests view before after := by
  refine ⟨fun hooks options s around hsees => ?_⟩
  obtain ⟨hstep, hopen⟩ :=
    h.leads hooks options { s with hooks := hooks.enterClass s.hooks } around hsees
  refine ⟨hstep, fun a t hrun => ?_⟩
  obtain ⟨t', hrun', -⟩ := Observed.of_closedBy hrun
  exact hopen a t' hrun'

theorem inMethod (key : PropertyKey) {body : Procedure α} (h : body.Nests view before after) :
    (Procedure.inMethod key body).Nests view before after := by
  refine ⟨fun hooks options s around hsees => ?_⟩
  obtain ⟨hstep, hopen⟩ :=
    h.leads hooks options { s with hooks := (hooks.enterMethod key s.hooks).2 } around hsees
  refine ⟨hstep, fun a t hrun => ?_⟩
  obtain ⟨t', hrun', -⟩ := Observed.of_closedBy hrun
  exact hopen a t' hrun'

end Procedure.Nests

/-! ## Orderly scripts -/

/-- What an orderly script leaves open is what is known to be open behind it, if the rules that are
called leave what is open as it is. -/
theorem Script.Orderly.nests [Bare α] {place : Setting} {known : Known} {script script' : Script α}
    {after : α → Known} (h : script.Orderly place known script' after) {r : Routines}
    (hfeeds : ∀ {β : Type} (callee : Recurring β), (r.call callee).FeedsOn .any fun _ => .any)
    (hcall : ∀ {β : Type} (callee : Recurring β), (r.call callee).Nests .any id fun _ => id) :
    (script.plug r).Nests known.view known.opened fun a => (after a).opened := by
  induction h with
  | pure => exact .pure rfl
  | raise d => exact .raise d
  | options | context | beStrict | declareMember | referenceName | afterAtom =>
    exact .still fun _ _ _ => rfl
  | peek => exact .look .peek (fun _ => rfl) (fun _ _ => trivial) fun _ => rfl
  | newlineBefore => exact .look .newlineBefore (fun _ => rfl) (fun _ _ => trivial) fun _ => rfl
  | peekSecond => exact .look .peekSecond (fun _ => rfl) (fun _ _ => trivial) fun _ => rfl
  | peekStart => exact .look .peekStart (fun _ => rfl) (fun _ _ => trivial) fun _ => rfl
  | lastEnd => exact .look .lastEnd (fun _ => rfl) (fun _ _ => trivial) fun _ => rfl
  | askAgain hafter => exact .ask (by rw [hafter])
  | next => exact .next
  | skip token => exact .nextFacing token
  | regExp hslash => exact .regExp hslash
  | templateContinuation => exact .templateContinuation _
  | call callee => exact ((hcall callee).frame _).anywhere
  | unaryRule _ ih =>
    exact .bind ih fun e => .bind (.still fun _ _ _ => rfl) fun _ => .pure rfl
  | bind hfirst _ ihfirst ihnext =>
    refine ihfirst.bindSeeing _ (fun hooks options s t b hsees hrun => ?_)
      fun b => ihnext b b (.refl b)
    exact ((hfirst.feedsOn hfeeds).feedsOn hooks options hsees hrun).2
  | loop _ _ ih => exact .rounds (fun a => ih a a (.refl a)) _ _
  | within region _ ih => exact .within region ih
  | arrow isAsync _ ih => exact .arrow isAsync ih
  | inClass _ ih => exact .inClass ih
  | inMethod _ _ _ ih => exact .inMethod _ ih
  | weaken hknown _ hafter ih =>
    refine ⟨fun hooks options s around hsees => ?_⟩
    obtain ⟨hstep, hopen⟩ := ih.leads hooks options s around (hknown.sees hsees)
    rw [← hknown.opened] at hstep hopen
    exact ⟨hstep, fun a t hrun => (hafter a).opened ▸ hopen a t hrun⟩

end EcmaScript
