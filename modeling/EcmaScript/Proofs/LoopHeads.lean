import EcmaScript.Proofs.Context

/-!
Statements in the heads of loops.

In the first part of the head of a `for` loop `in` is not an operator. A statement cannot stand
there directly, but the code of a function, of an arrow function or of a static block can, and it
consists of statements. The calls of the rule for statements are read off the scripts of the rules,
each with the regions around it. In a statement `in` is an operator again where a function or
brackets stand between it and the head, but not where there are only arrow functions and static
blocks, since these keep what holds around them.
-/

namespace EcmaScript

variable {σ α β : Type}

/-! ## Calls of the rule for statements -/

/-- A place in a run: the regions around it, the innermost first, and the state there. -/
structure Site (σ : Type) where
  regions : List Region
  state : ParserState σ

namespace Site

/-- The place inside one more region. -/
def enter (region : Region) (here : Site σ) : Site σ :=
  ⟨region :: here.regions,
    { here.state with context := region.enter here.state.context }⟩

/-- Whether `in` is an operator there. -/
def allowsIn (here : Site σ) : Bool := !here.state.context.inForInit

end Site

/-- The places of a step, and, if it succeeds, those of the next one, between the same regions. -/
def sitesBehind (regions : List Region) (first : List (Site σ))
    (result : EStateM.Result Failure (ParserState σ) β) (next : β → Site σ → List (Site σ)) :
    List (Site σ) :=
  match result with
  | .ok b s => first ++ next b ⟨regions, s⟩
  | .error _ _ => first

/-- The places in the rounds of a loop. -/
def sitesOfRounds (round : α → Parse σ (Round α β)) (sites : α → Site σ → List (Site σ)) :
    Nat → α → Site σ → List (Site σ)
  | 0, _, _ => []
  | bound + 1, a, here => sitesBehind here.regions (sites a here) (round a here.state) fun
    | .again a' => sitesOfRounds round sites bound a'
    | .stop _ => fun _ => []

/-- The places in a run of the script, where `called` gives those of a call. -/
def Script.sites (hooks : Hooks σ) (r : Routines)
    (called : {α : Type} → Recurring α → Site σ → List (Site σ)) :
    {α : Type} → Script α → Site σ → List (Site σ)
  | _, .leaf _, _ | _, .options, _ => []
  | _, .call callee, here => called callee here
  | _, .bind first next, here =>
    sitesBehind here.regions (first.sites hooks r called here)
      ((first.plug r).observe hooks r.options here.state).1 fun b => (next b).sites hooks r called
  | _, .loop round start, here =>
    sitesOfRounds (fun a s => (((round a).plug r).observe hooks r.options s).1)
      (fun a => (round a).sites hooks r called) r.bound start here
  | _, .within region body, here => body.sites hooks r called (here.enter region)
  | _, .arrow isAsync body, here =>
    let inside := here.enter (.arrow isAsync)
    sitesBehind inside.regions [] (Parse.nextIs .lBrace inside.state) fun isBlock =>
      (body isBlock).sites hooks r called
  | _, .inClass body, here =>
    body.sites hooks r called
      { here with state := { here.state with hooks := hooks.enterClass here.state.hooks } }
  | _, .inMethod key body, here =>
    body.sites hooks r called
      { here with state :=
        { here.state with hooks := (hooks.enterMethod key here.state.hooks).2 } }

/-- The places at which a call of a rule calls the rule for statements, the call itself included. -/
def Recurring.statementSites (hooks : Hooks σ) (options : Options) (bound : Nat) :
    (depth : Nat) → {α : Type} → Recurring α → Site σ → List (Site σ)
  | 0, _, .statement, here => [here]
  | 0, _, _, _ => []
  | depth + 1, _, callee, here =>
    (match callee with
      | .statement => [here]
      | _ => []) ++
    callee.script.sites hooks (Grammar.routines options bound depth)
      (Recurring.statementSites hooks options bound depth) here

/-- The places at which a parse calls the rule for statements. -/
def Parser.statementSites (parser : Parser σ) : List (Site σ) :=
  let bound := parser.state.lexer.source.length + 2
  let depth := 4 * bound
  Script.program.sites parser.hooks
    (Grammar.routines parser.options bound depth)
    (Recurring.statementSites parser.hooks parser.options bound depth)
    ⟨[], { parser.state with hooks := parser.hooks.reset parser.state.hooks }⟩

/-! ## What the regions around a place say about it -/

namespace Region

/-- Whether `in` is an operator inside the region exactly if it is one outside. -/
def keepsIn : Region → Bool
  | .function _ _ _ | .brackets | .loopHead => false
  | _ => true

/-- Whether the region is code of its own, in which `in` is an operator exactly if it is one
outside. -/
def isOpenCode : Region → Bool
  | .arrow _ | .staticBlock => true
  | _ => false

end Region

/-- Whether `in` is no operator inside the regions, the innermost first. -/
def refusesIn : List Region → Bool
  | [] => false
  | .loopHead :: _ => true
  | .function _ _ _ :: _ | .brackets :: _ => false
  | _ :: outer => refusesIn outer

/-- Whether the inside of the regions stands directly in the head of a loop. -/
def inHead : List Region → Bool
  | [] => false
  | region :: outer => region.headInside (inHead outer)

theorem refusesIn_iff {regions : List Region} :
    refusesIn regions = true ↔
      ∃ inner outer, regions = inner ++ .loopHead :: outer ∧ ∀ region ∈ inner, region.keepsIn := by
  constructor
  · intro h
    induction regions with
    | nil => cases h
    | cons region regions ih =>
      cases region with
      | loopHead => exact ⟨[], regions, rfl, by simp⟩
      | function | brackets => cases h
      | _ =>
        obtain ⟨inner, outer, rfl, hinner⟩ := ih h
        exact ⟨_ :: inner, outer, rfl, List.forall_mem_cons.2 ⟨rfl, hinner⟩⟩
  · rintro ⟨inner, outer, rfl, hinner⟩
    induction inner with
    | nil => rfl
    | cons region inner ih =>
      obtain ⟨hregion, hrest⟩ := List.forall_mem_cons.1 hinner
      cases region with
      | function | brackets | loopHead => cases hregion
      | _ => exact ih hrest

/-- A place that is not directly in the head of a loop and in which `in` is no operator stands in an
arrow function or a static block in such a head. -/
theorem exists_isOpenCode {inner outer : List Region}
    (hinner : ∀ region ∈ inner, region.keepsIn) (h : inHead (inner ++ .loopHead :: outer) = false) :
    ∃ region ∈ inner, region.isOpenCode := by
  induction inner with
  | nil => cases h
  | cons region inner ih =>
    cases hcode : region.isOpenCode with
    | true => exact ⟨region, List.mem_cons_self, hcode⟩
    | false =>
      obtain ⟨hregion, hrest⟩ := List.forall_mem_cons.1 hinner
      have houter : inHead (inner ++ .loopHead :: outer) = false := by
        cases region <;>
          first | exact h | exact Bool.noConfusion hregion | exact Bool.noConfusion hcode
      obtain ⟨code, hmem, hopen⟩ := ih hrest houter
      exact ⟨code, List.mem_cons_of_mem _ hmem, hopen⟩

namespace Site

/-- Only regions that keep what holds around them stand between the place and the head of a loop,
and one of them is an arrow function or a static block. -/
def IsOpenToHead (here : Site σ) : Prop :=
  ∃ inner outer, here.regions = inner ++ .loopHead :: outer ∧
    (∀ region ∈ inner, region.keepsIn) ∧ ∃ region ∈ inner, region.isOpenCode

def IsTold (here : Site σ) : Prop := here.state.context.inForInit = refusesIn here.regions

theorem IsTold.enter {here : Site σ} (h : here.IsTold) (region : Region) :
    (here.enter region).IsTold := by
  cases region <;> first | rfl | exact h

/-- A step between the same regions keeps what the context says of `in`. -/
theorem IsTold.behind {here : Site σ} (h : here.IsTold) {hooks : Hooks σ} {options : Options}
    {procedure : Procedure α} {a : α} {s : ParserState σ}
    (hrun : (procedure.observe hooks options here.state).1 = .ok a s) :
    IsTold ⟨here.regions, s⟩ := by
  have hreturns := procedure.returns hooks options here.state
  have hdone : Completed (procedure.observe hooks options here.state).outcome := by
    rw [Observed.outcome, hrun]
    exact .ok a
  have hkept : here.state.context.Kept s.context := by
    cases hleft : strands (procedure.observe hooks options here.state).2 with
    | false =>
      have hkept := hreturns.kept hdone hleft
      rwa [hrun] at hkept
    | true =>
      obtain ⟨e, s', herror⟩ := hreturns.failed hleft
      rw [hrun] at herror
      cases herror
  change s.context.inForInit = _
  rw [hkept]
  exact h

/-- The rule for statements may be called there: the place is not directly in the head of a loop. -/
structure IsSpared (here : Site σ) : Prop where
  told : here.IsTold
  apart : inHead here.regions = false

theorem IsSpared.allowsIn_eq_false_iff {here : Site σ} (h : here.IsSpared) :
    here.allowsIn = false ↔ here.IsOpenToHead := by
  have htold : here.allowsIn = false ↔ refusesIn here.regions = true := by
    rw [allowsIn, h.told]
    cases refusesIn here.regions <;> simp
  rw [htold, refusesIn_iff]
  constructor
  · rintro ⟨inner, outer, heq, hinner⟩
    exact ⟨inner, outer, heq, hinner, exists_isOpenCode hinner (heq ▸ h.apart)⟩
  · rintro ⟨inner, outer, heq, hinner, -⟩
    exact ⟨inner, outer, heq, hinner⟩

end Site

/-! ## Statements are not called in the head of a loop -/

/-- The places of two steps, one behind the other. -/
theorem mem_sitesBehind {regions : List Region} {first : List (Site σ)}
    {result : EStateM.Result Failure (ParserState σ) β} {next : β → Site σ → List (Site σ)}
    {site : Site σ} (h : site ∈ sitesBehind regions first result next) :
    site ∈ first ∨ ∃ b s, result = .ok b s ∧ site ∈ next b ⟨regions, s⟩ := by
  cases result with
  | ok b s => exact (List.mem_append.1 h).imp_right fun h => ⟨b, s, rfl, h⟩
  | error e s => exact .inl h

/-- The rule may be called directly in the head of a loop, or the call does not stand there. -/
def Recurring.MayStand (head : Bool) : Recurring α → Prop
  | .statement => head = false
  | _ => True

theorem Setting.Allows.mayStand {place : Setting} {known : Known} {callee : Recurring α}
    (h : place.Allows known callee) : callee.MayStand place.inHead := by
  cases callee with
  | statement => exact h.1
  | _ => trivial

theorem Recurring.MayStand.inHead_entry {head : Bool} {callee : Recurring α}
    (h : callee.MayStand head) : (callee.entry head).inHead = head := by
  cases callee with
  | statement => exact h.symm
  | _ => rfl

/-- The rounds of a loop have no site in the head of a loop if none of them has one. -/
theorem isSpared_of_mem_sitesOfRounds {hooks : Hooks σ} {options : Options}
    {procedure : α → Procedure (Round α β)} {sites : α → Site σ → List (Site σ)}
    (h : ∀ a (here : Site σ), here.IsTold → inHead here.regions = head →
      ∀ site ∈ sites a here, site.IsSpared)
    (bound : Nat) (a : α) {here : Site σ} (htold : here.IsTold)
    (hhead : inHead here.regions = head) :
    ∀ site ∈ sitesOfRounds (fun a s => ((procedure a).observe hooks options s).1) sites bound a
      here, site.IsSpared := by
  induction bound generalizing a here with
  | zero => exact fun site hsite => absurd hsite List.not_mem_nil
  | succ bound ih =>
    intro site hsite
    obtain hsite | ⟨round, s, hrun, hsite⟩ := mem_sitesBehind hsite
    · exact h a here htold hhead site hsite
    · cases round with
      | again a' => exact ih a' (htold.behind hrun) hhead site hsite
      | stop b => exact absurd hsite List.not_mem_nil

/-- An orderly script has no site of a statement in the head of a loop if its calls have none. -/
theorem Script.Orderly.isSpared_of_mem_sites [Bare α] {place : Setting} {known : Known}
    {script script' : Script α} {after : α → Known}
    (h : script.Orderly place known script' after) {hooks : Hooks σ} {r : Routines}
    {called : {α : Type} → Recurring α → Site σ → List (Site σ)}
    (hcalled : ∀ {α : Type} (callee : Recurring α) (here : Site σ), here.IsTold →
      callee.MayStand (inHead here.regions) → ∀ site ∈ called callee here, site.IsSpared)
    {here : Site σ} (htold : here.IsTold) (hhead : inHead here.regions = place.inHead) :
    ∀ site ∈ script.sites hooks r called here, site.IsSpared := by
  induction h generalizing here with
  | pure | raise | options | context | beStrict | peek | newlineBefore | peekSecond | peekStart |
    lastEnd | next | skip | regExp | templateContinuation | declareMember | referenceName |
    afterAtom =>
    exact fun site hsite => absurd hsite List.not_mem_nil
  | askAgain =>
    intro site hsite
    obtain hsite | ⟨_, _, _, hsite⟩ := mem_sitesBehind hsite <;>
      exact absurd hsite List.not_mem_nil
  | call callee h => exact hcalled callee here htold (hhead ▸ h.mayStand)
  | unaryRule _ ih =>
    intro site hsite
    obtain hsite | ⟨e, s, _, hsite⟩ := mem_sitesBehind hsite
    · exact ih htold hhead site hsite
    · obtain hsite | ⟨_, _, _, hsite⟩ := mem_sitesBehind hsite <;>
        exact absurd hsite List.not_mem_nil
  | bind _ _ ihfirst ihnext =>
    intro site hsite
    obtain hsite | ⟨b, s, hrun, hsite⟩ := mem_sitesBehind hsite
    · exact ihfirst htold hhead site hsite
    · exact ihnext b b (.refl b) (htold.behind hrun) hhead site hsite
  | loop _ _ ih =>
    exact isSpared_of_mem_sitesOfRounds (fun a here => ih a a (.refl a)) _ _ htold hhead
  | within region _ ih =>
    exact ih (htold.enter region) (congrArg region.headInside hhead)
  | arrow isAsync _ ih =>
    intro site hsite
    obtain hsite | ⟨isBlock, s, hpeek, hsite⟩ := mem_sitesBehind hsite
    · exact absurd hsite List.not_mem_nil
    · have hinside : Site.IsTold ⟨.arrow isAsync :: here.regions, s⟩ := by
        have hcontext : s.context = (here.enter (.arrow isAsync)).state.context := by
          rw [Parse.nextIs_eq] at hpeek
          split at hpeek
          · cases hpeek
            rfl
          · cases hpeek
        change s.context.inForInit = _
        rw [hcontext]
        exact htold.enter (.arrow isAsync)
      exact ih isBlock hinside rfl site hsite
  | @inClass _ _ _ _ _ _ _ _ ih => exact @ih { here with state := _ } htold hhead
  | @inMethod _ _ _ _ _ _ _ _ _ _ _ _ ih => exact @ih { here with state := _ } htold hhead
  | weaken _ _ _ ih => exact ih htold hhead

/-- No call of a rule calls the rule for statements directly in the head of a loop. -/
theorem Recurring.isSpared_of_mem_statementSites (hooks : Hooks σ) (options : Options)
    (bound depth : Nat) (callee : Recurring α) {here : Site σ} (htold : here.IsTold)
    (hstand : callee.MayStand (inHead here.regions)) :
    ∀ site ∈ callee.statementSites hooks options bound depth here, site.IsSpared := by
  induction depth generalizing α here with
  | zero =>
    cases callee with
    | statement => exact fun site h => List.mem_singleton.1 h ▸ ⟨htold, hstand⟩
    | _ => exact fun site h => absurd h List.not_mem_nil
  | succ depth ih =>
    intro site h
    obtain h | h := List.mem_append.1 h
    · cases callee with
      | statement => exact List.mem_singleton.1 h ▸ ⟨htold, hstand⟩
      | _ => exact absurd h List.not_mem_nil
    · let _ := callee.bare
      exact (callee.orderly_script (inHead here.regions) .nothing).isSpared_of_mem_sites
        (fun callee here => ih callee) htold hstand.inHead_entry.symm site h

/-- Every parse by a parser begins where `in` is an operator, whether earlier ones have failed or
not, if none has been broken off. -/
theorem Parser.inForInit_after (parser : Parser σ) (calls : Nat)
    (hdone : ∀ call < calls, Completed (parser.after call).parse.1) :
    (parser.after calls).state.context.inForInit = parser.state.context.inForInit := by
  induction calls with
  | zero => rfl
  | succ calls ih =>
    have hcall := (parser.after calls).run_returns
    have hlast := hdone calls (Nat.lt_succ_self calls)
    rw [outcome_parse] at hlast
    rw [← ih fun call hcall => hdone call (Nat.lt_succ_of_lt hcall), after, ← finalState_run]
    cases hleft : strands (parser.after calls).run.2 with
    | false => rw [hcall.kept hlast hleft]
    | true => exact (hcall.stranded hlast hleft).inForInit

theorem Parser.isSpared_of_mem_statementSites (parser : Parser σ)
    (h : parser.state.context.inForInit = false) :
    ∀ site ∈ parser.statementSites, site.IsSpared :=
  (Script.orderly_program .nothing).isSpared_of_mem_sites
    (fun callee _ => callee.isSpared_of_mem_statementSites _ _ _ _) h rfl

/-- In every parse, wherever the rule for statements is called, `in` is an operator, except in the
code of an arrow function or of a static block in the head of a loop, between which and the head
there are neither functions nor brackets. This holds behind any number of earlier parses by the same
parser that have not been broken off. -/
theorem statement_refuses_in_iff (source : String) (options : Options) (hooks : Hooks σ)
    (initial : σ) (calls : Nat) (hdone : ∀ call < calls,
      Completed ((Parser.ofSource source options hooks initial).after call).parse.1) :
    ∀ site ∈ ((Parser.ofSource source options hooks initial).after calls).statementSites,
      site.allowsIn = false ↔ site.IsOpenToHead := by
  intro site hsite
  have hbegin := (Parser.ofSource source options hooks initial).inForInit_after calls hdone
  exact (Parser.isSpared_of_mem_statementSites _ hbegin site hsite).allowsIn_eq_false_iff

/-- The second statement of this source is in the arrow function, and that is in the head. -/
theorem statement_refuses_in_of_arrow :
    let parser := Parser.ofSource "for(x=>\x7b;\x7d;;);" {} (.silent []) ()
    (∀ call < 0, Completed (parser.after call).parse.1) ∧
      ∃ site ∈ (parser.after 0).statementSites, site.allowsIn = false ∧ site.IsOpenToHead := by
  intro parser
  have hdone : ∀ call < 0, Completed (parser.after call).parse.1 := nofun
  have hsite : ∃ site ∈ (parser.after 0).statementSites, site.allowsIn = false := by
    decide +kernel
  obtain ⟨site, hmem, hin⟩ := hsite
  exact ⟨hdone, site, hmem, hin, (statement_refuses_in_iff _ _ _ _ 0 hdone site hmem).1 hin⟩

/-- A statement in whose code `in` is no operator, so that the source is refused; behind the keyword
of a function in place of the arrow it is accepted. -/
theorem arrow_code_in_head_refuses_in :
    (∃ site ∈ (Parser.ofSource "for(x=>\x7ba in b\x7d;;);" {} (.silent []) ()).statementSites,
      site.allowsIn = false) ∧
    (parsePlain "for(x=>\x7ba in b\x7d;;);" {}).isOk = false ∧
    (parsePlain "for(function(x)\x7ba in b\x7d;;);" {}).isOk = true := by
  decide +kernel

end EcmaScript
