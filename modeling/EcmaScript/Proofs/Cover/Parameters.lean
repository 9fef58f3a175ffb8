import EcmaScript.Parser
import EcmaScript.Proofs.Cover.Pattern
import EcmaScript.Proofs.PrivateNames

/-!
Parameters of arrow functions.

In front of an arrow, whatever can be read as a list of parameters is read, token by token, as a
list in parentheses, and this list is then read as the same parameters. That the list in parentheses
is read with `in` as an operator makes no difference, since the default values and computed keys of
parameters are, too.
-/

namespace EcmaScript

variable {σ α β : Type}

/-! ## Rules to which `in` does not matter -/

def ParserState.allowing (s : ParserState σ) : ParserState σ :=
  { s with context := { s.context with inForInit := false } }

/-- What the rule returns it returns where `in` is an operator, too, and it leaves that as it is. -/
class Parse.IgnoresIn (p : Parse σ α) : Prop where
  allowing : ∀ {s t a}, p s = .ok a t →
    p s.allowing = .ok a t.allowing ∧ t.context.inForInit = s.context.inForInit

namespace Parse.IgnoresIn

instance pure (a : α) : IgnoresIn (pure a : Parse σ α) := by
  refine ⟨fun h => ?_⟩
  cases h
  exact ⟨rfl, rfl⟩

instance bind {p : Parse σ α} {q : α → Parse σ β} [hp : IgnoresIn p] [hq : ∀ a, IgnoresIn (q a)] :
    IgnoresIn (p >>= q) := by
  refine ⟨fun h => ?_⟩
  obtain ⟨a, between, hfirst, hrest⟩ := bind_eq_ok h
  obtain ⟨hfirst, hkept⟩ := hp.allowing hfirst
  obtain ⟨hrest, hkept'⟩ := (hq a).allowing hrest
  rw [bind_of_ok hfirst]
  exact ⟨hrest, hkept'.trans hkept⟩

instance throw (e : Failure) : IgnoresIn (throw e : Parse σ α) := ⟨fun h => by cases h⟩

/-- Sequencing, for a second rule that needs a choice. -/
theorem step {p : Parse σ α} {q : α → Parse σ β} [IgnoresIn p] (hq : ∀ a, IgnoresIn (q a)) :
    IgnoresIn (p >>= q) :=
  bind

/-- A choice between rules that need choices themselves. -/
theorem either {c : Prop} [Decidable c] {p q : Parse σ α} (hp : IgnoresIn p) (hq : IgnoresIn q) :
    IgnoresIn (if c then p else q) := by
  by_cases h : c
  · rwa [if_pos h]
  · rwa [if_neg h]

instance lexing (action : Lexing α) : IgnoresIn (lexing action : Parse σ α) := by
  refine ⟨fun {s t a} h => ?_⟩
  unfold Parse.lexing at h ⊢
  cases haction : action s.lexer with
  | ok b lexer =>
    rw [haction] at h
    cases h
    refine ⟨?_, rfl⟩
    simp only [ParserState.allowing, haction]
  | error e lexer =>
    rw [haction] at h
    cases h

instance ensure (check : Except Diagnostic α) : IgnoresIn (ensure check : Parse σ α) := by
  cases check with
  | ok a => exact .pure a
  | error d => exact .throw _

/-- A rule that looks at the context, but not at whether `in` is an operator. -/
theorem context_bind {q : Context → Parse σ α}
    (hsame : ∀ context, q { context with inForInit := false } = q context)
    (hq : ∀ context, IgnoresIn (q context)) : IgnoresIn (Parse.context >>= q) := by
  refine ⟨fun {s t a} h => ?_⟩
  have hrest : q s.context s = .ok a t := h
  have hgoal := (hq s.context).allowing hrest
  rw [← hsame] at hgoal
  exact hgoal

/-- Inside, `in` is an operator anyway. -/
instance allowingIn (p : Parse σ α) : IgnoresIn (allowingIn p) := by
  refine ⟨fun {s t a} h => ?_⟩
  have hrun (s : ParserState σ) : Parse.allowingIn p s =
      closing (leaving fun now => some { now with inForInit := s.context.inForInit }) p
        s.allowing := rfl
  rw [hrun] at h ⊢
  change closing (leaving fun now => some { now with inForInit := false }) p s.allowing = _ ∧ _
  unfold closing at h ⊢
  rcases hp : p s.allowing with ⟨b, u⟩ | ⟨_ | _ | _, u⟩ <;> rw [hp] at h <;> cases h
  exact ⟨rfl, rfl⟩

theorem loop (g : Grammar σ) {round : α → Parse σ (Round α β)} (hround : ∀ a, IgnoresIn (round a))
    (a : α) : IgnoresIn (g.loop round a) := by
  unfold Grammar.loop
  generalize g.bound = bound
  induction bound generalizing a with
  | zero => exact .throw _
  | succ bound ih =>
    refine step fun r => ?_
    cases r with
    | again a' => exact ih a'
    | stop b => exact .pure b

end Parse.IgnoresIn

section

open Parse

variable {g : Grammar σ}

instance : IgnoresIn (peek : Parse σ Token) := .lexing _

instance : IgnoresIn (next : Parse σ Token) := .lexing _

instance : IgnoresIn (startPosition : Parse σ Position) := .lexing _

instance (start : Position) : IgnoresIn (spanFrom start : Parse σ Span) := by
  unfold spanFrom lastEnd
  exact .step fun _ => .pure _

instance (position : Position) : IgnoresIn (unexpectedAt position : Parse σ α) := .throw _

instance : IgnoresIn (unexpected : Parse σ α) := by
  unfold unexpected
  exact .step fun _ => inferInstance

instance (symbol : Punctuator) : IgnoresIn (nextIs symbol : Parse σ Bool) := by
  unfold nextIs
  exact .step fun _ => .pure _

instance (symbol : Punctuator) : IgnoresIn (accept symbol : Parse σ Bool) := by
  unfold accept skip
  exact .step fun _ => .either (.step fun _ => .pure _) (.pure _)

instance (symbol : Punctuator) : IgnoresIn (expect symbol : Parse σ Unit) := by
  unfold expect
  exact .step fun _ => .either (.pure _) inferInstance

namespace Grammar

instance : IgnoresIn g.nameRules := by
  unfold nameRules
  exact .context_bind (fun _ => rfl) fun _ => .pure _

/-- Behind the name come its check and its span. -/
theorem ignoresIn_checkedName (start : Position) (name : String) : IgnoresIn (do
    let rules ← g.nameRules
    ensure (rules.checkWord name start)
    let span ← spanFrom start
    pure (name, span) : Parse σ (String × Span)) :=
  .step fun _ => .step fun _ => .step fun _ => .pure _

instance : IgnoresIn g.identifierReference := by
  unfold identifierReference
  refine .step fun start => .step fun token => ?_
  cases token with
  | identifier name _ => exact ignoresIn_checkedName start name
  | keyword word =>
    exact .context_bind (fun _ => rfl) fun _ =>
      .either (ignoresIn_checkedName start _) (.step fun _ => ignoresIn_checkedName start _)
  | _ => exact .step fun _ => ignoresIn_checkedName start _

instance : IgnoresIn g.bindingIdentifier := by
  unfold bindingIdentifier
  exact .step fun _ => .step fun _ => .step fun _ => .pure _

instance : IgnoresIn g.propertyKey := by
  unfold propertyKey
  refine .step fun start => .step fun token => ?_
  split
  case h_6 => exact .step fun _ => .step fun _ => .step fun _ => .pure _
  case h_7 => exact inferInstance
  all_goals exact .step fun _ => .pure _

section

variable [IgnoresIn g.bindingTarget]

instance : IgnoresIn g.bindingElement := by
  unfold bindingElement
  exact .step fun _ => .step fun _ => .step fun _ =>
    .either (.step fun _ => .step fun _ => .pure _) (.pure _)

instance : IgnoresIn g.restElement := by
  unfold restElement
  exact .step fun _ => .step fun _ => .step fun _ => .step fun _ => .pure _

theorem ignoresIn_arrayPatternRound (elements : List (Option Pattern)) :
    IgnoresIn (g.arrayPatternRound elements) := by
  unfold arrayPatternRound
  refine .step fun _ => .either (.pure _) (.step fun _ => .either (.pure _) (.step fun _ =>
    .either ?_ ?_))
  · exact .step fun _ => .step fun _ => .pure _
  · exact .step fun _ => .step fun _ => .either (.pure _) (.step fun _ => .pure _)

instance : IgnoresIn g.arrayPattern := by
  unfold arrayPattern
  refine .step fun _ => .step fun _ => ?_
  have := IgnoresIn.loop g (ignoresIn_arrayPatternRound (g := g)) []
  exact .step fun _ => .step fun _ => .pure _

instance : IgnoresIn g.patternProperty := by
  unfold patternProperty
  refine .step fun key => .step fun _ => ?_
  obtain ⟨key, _⟩ := key
  refine .either (.step fun _ => .pure _) ?_
  cases key with
  | identifier name span =>
    exact .step fun _ => .step fun _ => .step fun _ =>
      .either (.step fun _ => .step fun _ => .pure _) (.pure _)
  | _ => exact inferInstance

theorem ignoresIn_objectPatternRound (properties : List PatternProperty) :
    IgnoresIn (g.objectPatternRound properties) := by
  unfold objectPatternRound
  refine .step fun _ => .either (.pure _) (.step fun _ => .either ?_ ?_)
  · exact .step fun _ => .step fun _ => .pure _
  · exact .step fun _ => .step fun _ => .either (.pure _) (.step fun _ => .pure _)

instance : IgnoresIn g.objectPattern := by
  unfold objectPattern
  refine .step fun _ => .step fun _ => ?_
  have := IgnoresIn.loop g (ignoresIn_objectPatternRound (g := g)) []
  exact .step fun _ => .step fun _ => .pure _

theorem ignoresIn_bindingTargetRule : IgnoresIn g.bindingTargetRule := by
  unfold bindingTargetRule
  refine .step fun token => ?_
  split
  · exact inferInstance
  · exact inferInstance
  · exact .step fun _ => .pure _

theorem ignoresIn_formalParametersRound (params : List Pattern) :
    IgnoresIn (g.formalParametersRound params) := by
  unfold formalParametersRound
  refine .step fun _ => .either (.pure _) (.step fun _ => .either ?_ ?_)
  · exact .step fun _ => .step fun _ => .pure _
  · exact .step fun _ => .step fun _ => .either (.pure _) (.step fun _ => .pure _)

end

/-- To patterns it does not matter whether `in` is an operator around them. -/
instance (options : Options) (hooks : Hooks σ) (bound depth : Nat) :
    IgnoresIn (ofDepth options hooks bound depth).bindingTarget := by
  induction depth with
  | zero => exact .throw _
  | succ depth ih => exact ignoresIn_bindingTargetRule

end Grammar

end

/-- Where `in` is an operator, looking at the next token leads there, too. -/
theorem ParserState.LooksTo.allowing {s t : ParserState σ} {next : Lookahead}
    (h : s.LooksTo next t) : s.allowing.LooksTo next t.allowing ∧
      t.context.inForInit = s.context.inForInit :=
  Parse.IgnoresIn.allowing h

/-! ## Names -/

namespace Grammar

variable {g g' : Grammar σ} {context : Context} {s s' t t' u : ParserState σ} {p : Pattern}
  {first next : Lookahead}

/-- A name that is bound is used as a name, and is the next token. -/
theorem bindingIdentifier_eq_ok {name : String} {span : Span} (hfirst : s.LooksTo first s)
    (h : g.bindingIdentifier s = .ok (name, span) t) :
    g.identifierReference s = .ok (name, span) t ∧ t = s.behind first ∧
      (g.rulesIn s.context).checkBinding name span.start = .ok () ∧
      ((∃ read escaped, first.token = .identifier read escaped) ∨
        ∃ word, first.token = .keyword word ∧ isNameIn s.context word = true) := by
  obtain ⟨⟨read, own⟩, between, hname, h⟩ := Parse.bind_eq_ok h
  obtain ⟨rules, _, hrules, hchecked⟩ := Parse.bind_eq_ok h
  cases hrules
  obtain ⟨_, _, hensure, hread⟩ := Parse.bind_eq_ok hchecked
  cases hread
  obtain ⟨hbinding, rfl⟩ := Parse.ensure_eq_ok hensure
  refine ⟨hname, ?_⟩
  unfold identifierReference at hname
  rw [Parse.bind_of_ok hfirst.startPosition] at hname
  dsimp only at hname
  rw [Parse.bind_of_ok hfirst.next_eq] at hname
  -- Whatever the token is, only checks are behind it.
  have hbehind {read : String} (h : (do
      let rules ← g.nameRules
      Parse.ensure (rules.checkWord read first.span.start)
      let span ← Parse.spanFrom first.span.start
      pure (read, span) : Parse σ (String × Span)) (s.behind first) = .ok (name, span) t) :
      t = s.behind first := by
    obtain ⟨rules, _, hrules, hword⟩ := Parse.bind_eq_ok h
    cases hrules
    obtain ⟨_, _, hensure, hread⟩ := Parse.bind_eq_ok hword
    obtain ⟨-, rfl⟩ := Parse.ensure_eq_ok hensure
    cases hread
    rfl
  cases htoken : first.token with
  | identifier read escaped =>
    rw [htoken] at hname
    obtain rfl := hbehind hname
    exact ⟨rfl, hbinding, .inl ⟨read, escaped, rfl⟩⟩
  | keyword word =>
    rw [htoken] at hname
    obtain ⟨context, _, hcontext, hword⟩ := Parse.bind_eq_ok hname
    cases hcontext
    cases hfits : isNameIn (s.behind first).context word with
    | true =>
      rw [hfits] at hword
      obtain rfl := hbehind hword
      exact ⟨rfl, hbinding, .inr ⟨word, rfl, hfits⟩⟩
    | false =>
      rw [hfits] at hword
      cases hword
  | _ =>
    rw [htoken] at hname
    cases hname

/-- A name is a primary expression where a pattern may end. -/
theorem atom_of_name {name : String} {span : Span} (hfirst : s.LooksTo first s)
    (hname : g.identifierReference s = .ok (name, span) (s.behind first))
    (htoken : (∃ read escaped, first.token = .identifier read escaped) ∨
      ∃ word, first.token = .keyword word ∧ isNameIn s.context word = true)
    (hlook : (s.behind first).LooksTo next t) (hcloses : next.token.closesPattern = true) :
    g.atom s = .ok (.identifier name span) t := by
  have hname : ∀ start, g.identifierOrArrow start s = .ok (.identifier name span) t := by
    intro start
    unfold identifierOrArrow
    rw [Parse.bind_of_ok hname]
    dsimp only
    rw [Parse.bind_of_ok (hlook.nextIsArrow_false (Token.ne_of_closesPattern hcloses rfl))]
    rfl
  unfold atom
  rw [Parse.bind_of_ok hfirst.startPosition, Parse.bind_of_ok hfirst.peek]
  obtain ⟨read, escaped, htoken⟩ | ⟨word, htoken, hcontextual⟩ := htoken
  · rw [htoken]
    exact hname _
  · rw [htoken]
    unfold isNameIn at hcontextual
    cases word with
    | async =>
      change g.asyncAtom _ s = _
      unfold asyncAtom
      have hother : (next.token == .keyword .function) = false ∧
          next.token.isIdentifierLike = false := by
        generalize next.token = token at hcloses
        cases token with
        | punctuator symbol => exact ⟨rfl, rfl⟩
        | _ => cases hcloses
      rw [Parse.bind_of_ok (hfirst.peekSecond hlook)]
      dsimp only
      rw [hother.1, hother.2, Bool.and_false, if_neg Bool.false_ne_true, if_neg Bool.false_ne_true]
      exact hname _
    | let_ | await | yield | static => exact hname _
    | _ => cases hcontextual

/-! ## Patterns of every depth -/

/-- A binding target is an array pattern, an object pattern or a name. -/
theorem bindingTargetRule_eq_ok (h : g.bindingTargetRule s = .ok p t) :
    ∃ first s', s.LooksTo first s' ∧
      (first.token = .punctuator .lBracket ∧ g.arrayPattern s' = .ok p t ∨
        first.token = .punctuator .lBrace ∧ g.objectPattern s' = .ok p t ∨
        ∃ name span, g.bindingIdentifier s' = .ok (name, span) t ∧ p = .identifier name span) := by
  obtain ⟨token, s', hpeek, h⟩ := Parse.bind_eq_ok h
  obtain ⟨first, hfirst, rfl⟩ := Parse.peek_eq_ok hpeek
  refine ⟨first, s', hfirst, ?_⟩
  have hname (h : (g.bindingIdentifier >>= fun x => pure (.identifier x.1 x.2)) s' = .ok p t) :
      ∃ name span, g.bindingIdentifier s' = .ok (name, span) t ∧ p = .identifier name span := by
    obtain ⟨⟨name, span⟩, u, hname, hread⟩ := Parse.bind_eq_ok h
    cases hread
    exact ⟨name, span, hname, rfl⟩
  generalize first.token = token at h
  cases token with
  | punctuator symbol =>
    cases symbol with
    | lBracket => exact .inl ⟨rfl, h⟩
    | lBrace => exact .inr (.inl ⟨rfl, h⟩)
    | _ => exact .inr (.inr (hname h))
  | _ => exact .inr (.inr (hname h))

/-- One level deeper, too, binding targets are read as conditional expressions. -/
theorem CoversTargets.deepen (hcovers : g.CoversTargets context) (below : g.IsBelow g')
    (hin : context.inForInit = false) : g'.CoversTargets context := by
  intro s t t' p next hs h hlook hcloses
  have hbound : g'.bound ≠ 0 := below.bound ▸ below.bound_ne
  have hrules : g'.rulesIn context = g.rulesIn context := by
    unfold rulesIn
    rw [below.options]
  rw [below.bindingTarget] at h
  obtain ⟨first, s', hfirst, hcases⟩ := bindingTargetRule_eq_ok h
  have hs' : s'.context = context := hfirst.context_eq.trans hs
  -- An atom of the form of a pattern is all that is read.
  have hwhole {e : Expression} {u : ParserState σ}
      (hbegins : first.token.beginsPattern context = true) (hatom : g'.atom s' = .ok e u)
      (hlook : u.LooksTo next t') (hform : e.hasPatternForm = true)
      (hreads : e.ReadsAs (g.rulesIn context) p) :
      ∃ first s' e, s.LooksTo first s' ∧ first.token.beginsPattern context = true ∧
        g'.conditional s' = .ok e t' ∧ e.hasPatternForm = true ∧
        e.ReadsAs (g'.rulesIn context) p :=
    ⟨first, s', e, hfirst, hbegins, conditional_of_atom below.passes hbound hfirst.again
      (Token.beginsAtom_of_beginsPattern (hs' ▸ hbegins)) hatom hform hlook hcloses, hform,
      hrules ▸ hreads⟩
  obtain ⟨htoken, h⟩ | ⟨htoken, h⟩ | ⟨name, span, hname, rfl⟩ := hcases
  · obtain ⟨e, hatom, -, hform, hreads⟩ :=
      exists_atom_of_arrayPattern below hcovers hin hs' hfirst.again htoken h
    exact hwhole (by rw [htoken]; rfl) hatom hlook hform hreads
  · obtain ⟨e, hatom, -, hform, hreads⟩ :=
      exists_atom_of_objectPattern below hcovers hin hs' hfirst.again htoken h
    exact hwhole (by rw [htoken]; rfl) hatom hlook hform hreads
  · obtain ⟨href, rfl, hbinding, htoken⟩ := bindingIdentifier_eq_ok hfirst.again hname
    have href' : g'.identifierReference s' = .ok (name, span) (s'.behind first) := by
      have hsame : g'.identifierReference = g.identifierReference := by
        unfold identifierReference nameRules
        rw [below.options]
      rw [hsame]
      exact href
    refine hwhole ?_ (atom_of_name hfirst.again href' htoken hlook hcloses) hlook.again rfl
      (.identifier (hs' ▸ hbinding))
    rw [← hs']
    obtain ⟨read, escaped, htoken⟩ | ⟨word, htoken, hfits⟩ := htoken
    · rw [htoken]
      rfl
    · rw [htoken]
      exact hfits

theorem coversTargets_ofDepth (options : Options) {hooks : Hooks σ} {bound : Nat}
    (hhooks : hooks.PassPatterns) (hbound : bound ≠ 0) (hin : context.inForInit = false)
    (depth : Nat) : (ofDepth options hooks bound depth).CoversTargets context := by
  induction depth with
  | zero => exact fun _ h => by cases h
  | succ depth ih => exact ih.deepen (isBelow_ofDepth options hhooks hbound depth) hin

/-! ## Lists of parameters -/

def ItemsRead (rules : NameRules) : List Expression → List Pattern → Prop :=
  List.Forall₂ fun e p => e.ReadsAs rules p

theorem mapM_toPattern_of_itemsRead {rules : NameRules} {items : List Expression}
    {params : List Pattern} (h : ItemsRead rules items params) :
    items.reverse.mapM (·.toPattern rules .binding) = .ok params.reverse := by
  have hmap {items : List Expression} {params : List Pattern} (h : ItemsRead rules items params) :
      items.mapM (·.toPattern rules .binding) = .ok params := by
    induction h with
    | nil => rfl
    | cons hfirst _ ih =>
      rw [List.mapM_cons, hfirst.toPattern, ih]
      rfl
  exact hmap (List.forall₂_reverse_iff.2 h)

/-- A list of parameters that is read has a next token. -/
theorem exists_looksTo_of_formalParameters {bound : Nat} {params read : List Pattern}
    (h : repeatRounds g.formalParametersRound bound params s = .ok read t) :
    ∃ first s', s.LooksTo first s' := by
  cases bound with
  | zero => cases h
  | succ bound =>
    obtain ⟨r, u, hround, -⟩ := Parse.bind_eq_ok h
    obtain ⟨close, u', hclose, -⟩ := Parse.bind_eq_ok hround
    obtain ⟨first, s', hfirst, -⟩ := Parse.accept_eq_ok hclose
    exact ⟨first, s', hfirst⟩

/-- What is read as parameters, up to the closing parenthesis and with it, is read as a list in
parentheses up to it. -/
theorem exists_parenItems (below : g.IsBelow g') (hcovers : g.CoversTargets context)
    (hin : context.inForInit = false) {bound : Nat} {params read : List Pattern} {list : ParenRead}
    (hfirst : s.LooksTo first s') (hs : s.context = context) (hrest : list.rest = none)
    (hitems : ItemsRead (g.rulesIn context) list.items params)
    (h : repeatRounds g.formalParametersRound bound params s = .ok read t) :
    ∃ list' u close u', repeatRounds g'.parenItemsRound bound list s' = .ok list' u ∧
      u.LooksTo close u' ∧ close.token = .punctuator .rParen ∧ t = u'.behind close ∧
      u'.context = context ∧ ∃ params', ItemsRead (g.rulesIn context) list'.items params' ∧
        read = list'.rest.toList ++ params' := by
  induction bound generalizing params list s s' first with
  | zero => cases h
  | succ bound ih =>
    obtain ⟨r, u, hround, hrounds⟩ := Parse.bind_eq_ok h
    have hs' : s'.context = context := hfirst.context_eq.trans hs
    unfold formalParametersRound at hround
    by_cases hclose : first.token = .punctuator .rParen
    · rw [Parse.bind_of_ok (hfirst.accept hclose), if_pos rfl] at hround
      cases hround
      cases hrounds
      have hround' : g'.parenItemsRound list s' = .ok (.stop list) s' := by
        unfold parenItemsRound
        rw [Parse.bind_of_ok (hfirst.again.nextIs .rParen), hclose, beq_self_eq_true, if_pos rfl]
        rfl
      refine ⟨list, s', first, s', ?_, hfirst.again, hclose, rfl, hs', read, hitems, ?_⟩
      · rw [repeatRounds, Parse.bind_of_ok hround']
        rfl
      · rw [hrest]
        rfl
    rw [Parse.bind_of_ok (hfirst.declines hclose), if_neg Bool.false_ne_true,
      Parse.bind_of_ok (hfirst.again.nextIs .spread)] at hround
    by_cases hspread : first.token = .punctuator .spread
    · -- A rest element is read by the same rule.
      rw [hspread, beq_self_eq_true, if_pos rfl] at hround
      obtain ⟨rest, v, hrestElement, hround⟩ := Parse.bind_eq_ok hround
      obtain ⟨_, v', hend, hround⟩ := Parse.bind_eq_ok hround
      obtain ⟨close, u', hlook, htoken, rfl⟩ := Parse.expect_eq_ok hend
      cases hround
      cases hrounds
      obtain ⟨again, s'', argument, hagain, -, hargument, -⟩ := restElement_eq_ok hrestElement
      obtain ⟨rfl, rfl⟩ := hfirst.again.unique hagain
      have hv : v.context = context := (below.context_bindingTarget hargument).trans hs'
      have hrestElement' : g'.restElement s' = .ok rest v := by
        rw [← Script.denote_restElement] at hrestElement ⊢
        exact below.deepen _ hrestElement
      have hround' :
          g'.parenItemsRound list s' = .ok (.stop { list with rest := some rest }) v := by
        unfold parenItemsRound
        rw [Parse.bind_of_ok (hfirst.again.nextIs_false hclose), if_neg Bool.false_ne_true,
          Parse.bind_of_ok (hfirst.again.nextIs .spread), hspread, beq_self_eq_true, if_pos rfl,
          Parse.bind_of_ok hrestElement']
        rfl
      refine ⟨{ list with rest := some rest }, v, close, u', ?_, hlook, htoken, rfl,
        hlook.context_eq.trans hv, params, hitems, rfl⟩
      rw [repeatRounds, Parse.bind_of_ok hround']
      rfl
    rw [beq_false_of_ne hspread, if_neg Bool.false_ne_true] at hround
    obtain ⟨param, v, helement, hround⟩ := Parse.bind_eq_ok hround
    obtain ⟨last, v', hlast, rfl, hcases⟩ := separator_eq_ok hround
    have hcloses : last.token.closesPattern = true := by
      obtain ⟨htoken, -⟩ | ⟨-, htoken, -⟩ := hcases <;> rw [htoken] <;> rfl
    obtain ⟨hv, e, he, hreads⟩ :=
      assignmentRule_of_bindingElement hcovers below hin hs' helement hlast hcloses
    have hv' : v'.context = context := hlast.context_eq.trans hv
    have hitem : g'.assignment s' = .ok e v := by rwa [below.assignment]
    have hmore : ItemsRead (g.rulesIn context) (e :: list.items) (param :: params) :=
      .cons hreads hitems
    obtain ⟨hcomma, rfl⟩ | ⟨hcomma, htoken, rfl⟩ := hcases
    · -- The list goes on, so there is a token behind the comma.
      obtain ⟨second, w, hsecond⟩ := exists_looksTo_of_formalParameters hrounds
      have hround' : g'.parenItemsRound list s' = .ok (.again { list with
          items := e :: list.items
          trailingComma := second.token == .punctuator .rParen }) w := by
        unfold parenItemsRound
        rw [Parse.bind_of_ok (hfirst.again.nextIs_false hclose), if_neg Bool.false_ne_true,
          Parse.bind_of_ok (hfirst.again.nextIs_false hspread), if_neg Bool.false_ne_true,
          Parse.bind_of_ok hitem]
        dsimp only
        rw [Parse.bind_of_ok (hlast.accept hcomma), if_pos rfl,
          Parse.bind_of_ok (hsecond.nextIs .rParen)]
        rfl
      rw [repeatRounds, Parse.bind_of_ok hround']
      exact ih hsecond hv' hrest hmore hrounds
    · cases hrounds
      have hround' : g'.parenItemsRound list s' =
          .ok (.stop { list with items := e :: list.items }) v' := by
        unfold parenItemsRound
        rw [Parse.bind_of_ok (hfirst.again.nextIs_false hclose), if_neg Bool.false_ne_true,
          Parse.bind_of_ok (hfirst.again.nextIs_false hspread), if_neg Bool.false_ne_true,
          Parse.bind_of_ok hitem]
        dsimp only
        rw [Parse.bind_of_ok (hlast.declines hcomma)]
        rfl
      refine ⟨{ list with items := e :: list.items }, v', last, v', ?_, hlast.again, htoken, rfl,
        hv', param :: params, hmore, ?_⟩
      · rw [repeatRounds, Parse.bind_of_ok hround']
        rfl
      · rw [hrest]
        rfl

/-! ## Arrow functions -/

/-- A list in parentheses, in front of an arrow on the same line, is read as parameters. -/
theorem parenRest_of_arrow {list : ParenRead} {params : List Pattern} {close : Lookahead}
    {u' : ParserState σ} (start : Position) (hfirst : s.LooksTo first s')
    (hlist : g.parenItems s' = .ok list u) (hclose : u.LooksTo close u')
    (htoken : close.token = .punctuator .rParen) (hlook : (u'.behind close).LooksTo next t)
    (harrow : next.token = .punctuator .arrow) (hline : next.newlineBefore = false)
    (hitems : ItemsRead (g.rulesIn t.context) list.items params) :
    g.parenRest start s =
      g.arrowFunction start (params.reverse ++ list.rest.toList) false t := by
  have hnext : nextIsArrow (u'.behind close) = .ok true t := by
    unfold nextIsArrow
    rw [Parse.bind_of_ok (hlook.nextIs .arrow), harrow, beq_self_eq_true, if_pos rfl,
      Parse.bind_of_ok hlook.again.newlineBefore, hline]
    rfl
  have hrules : g.nameRules t = .ok (g.rulesIn t.context) t := rfl
  have hend : Parse.lastEnd u = .ok u.lexer.lastSpan.stop u := rfl
  unfold parenRest
  rw [Parse.bind_of_ok hfirst.startPosition, Parse.bind_of_ok hlist, Parse.bind_of_ok hend,
    Parse.bind_of_ok (hclose.expect htoken), Parse.bind_of_ok hnext, if_pos rfl,
    Parse.bind_of_ok hrules,
    Parse.bind_of_ok (Parse.ensure_of_ok (mapM_toPattern_of_itemsRead hitems) t)]

/-- What can be read as parameters in front of an arrow is read, at every greater depth, as these
parameters of an arrow function. -/
theorem atom_of_formalParameters {options : Options} {hooks : Hooks σ}
    (hhooks : hooks.PassPatterns) {bound depth : Nat} {params : List Pattern}
    (h : (ofDepth options hooks bound depth).formalParameters s = .ok params t)
    (hlook : t.LooksTo next t') (harrow : next.token = .punctuator .arrow)
    (hline : next.newlineBefore = false) :
    ∃ first s', s.LooksTo first s' ∧ ∀ depth' > depth, (ofDepth options hooks bound depth').atom s =
      Parse.allowingIn
        ((ofDepth options hooks bound depth').arrowFunction first.span.start params false) t' := by
  have hboundOf (depth : Nat) : (ofDepth options hooks bound depth).bound = bound := by
    cases depth <;> rfl
  have hoptionsOf (depth : Nat) : (ofDepth options hooks bound depth).options = options := by
    cases depth <;> rfl
  obtain ⟨_, v, hopen, hloop⟩ := Parse.bind_eq_ok h
  obtain ⟨first, s', hfirst, htoken, rfl⟩ := Parse.expect_eq_ok hopen
  refine ⟨first, s', hfirst, fun depth' hdepth => ?_⟩
  obtain ⟨read, w, hread, hparams⟩ := Parse.bind_eq_ok hloop
  cases hparams
  -- Inside the parentheses `in` is an operator.
  have := Parse.IgnoresIn.loop (ofDepth options hooks bound depth)
    (ignoresIn_formalParametersRound (g := ofDepth options hooks bound depth)) []
  obtain ⟨hread', hkept⟩ := Parse.IgnoresIn.allowing hread
  obtain ⟨hlook', hkept'⟩ := hlook.allowing
  obtain ⟨second, v, hsecond⟩ := exists_looksTo_of_formalParameters hread'
  have hbound : bound ≠ 0 := by
    rintro rfl
    unfold loop at hread
    rw [hboundOf] at hread
    cases hread
  have hnil : ItemsRead ((ofDepth options hooks bound depth).rulesIn
      (s'.behind first).allowing.context) ({} : ParenRead).items [] := .nil
  obtain ⟨list, u, close, u', hlist, hclose, hparen, hbehind, hu, params, hitems, rfl⟩ :=
    exists_parenItems (isBelow_ofDepth options hhooks hbound depth)
      (coversTargets_ofDepth options hhooks hbound rfl depth) (by rfl) hsecond rfl
      (show ({} : ParenRead).rest = none from rfl) hnil hread'
  have hlist' : (ofDepth options hooks bound depth').parenItems v = .ok list u := by
    rw [← Script.denote_parenItems]
    refine deepen_ok _ (Nat.succ_le_of_lt hdepth) ?_
    rw [Script.denote_parenItems]
    unfold parenItems loop
    rw [hboundOf]
    rwa [hboundOf] at hlist
  have hcontext : t'.allowing.context = (s'.behind first).allowing.context := by
    rw [hlook'.context_eq, hbehind]
    exact hu
  have hitems' : ItemsRead ((ofDepth options hooks bound depth').rulesIn t'.allowing.context)
      list.items params := by
    unfold rulesIn at hitems ⊢
    rw [hcontext, hoptionsOf]
    rwa [hoptionsOf] at hitems
  have hin : t'.context.inForInit = s'.context.inForInit := hkept'.trans hkept
  have hrest := parenRest_of_arrow first.span.start hsecond hlist' hclose hparen (hbehind ▸ hlook')
    harrow hline hitems'
  -- Around the parentheses `in` is what it was.
  have hrun (p : Parse σ Expression) (s : ParserState σ) : Parse.allowingIn p s =
      Parse.closing (Parse.leaving fun now => some { now with inForInit := s.context.inForInit }) p
        s.allowing := rfl
  unfold atom
  rw [Parse.bind_of_ok hfirst.startPosition, Parse.bind_of_ok hfirst.again.peek, htoken]
  change (ofDepth options hooks bound depth').parenthesized first.span.start s' = _
  unfold parenthesized
  rw [Parse.bind_of_ok (hfirst.again.expect htoken), hrun, hrun, hin]
  unfold Parse.closing
  rw [hrest, List.reverse_append]
  cases list.rest <;> rfl

end Grammar

/-! ## Hooks -/

theorem Hooks.passPatterns_privateNames : Hooks.privateNames.PassPatterns where
  afterUnary e s h := by
    change PrivateNames.afterUnary e s = _
    rw [PrivateNames.afterUnary_eq]
    cases e <;> first | rfl | cases h
  afterAtom e next s h := by
    change PrivateNames.afterAtom e next s = _
    rw [PrivateNames.afterAtom_eq]
    cases e <;> first | rfl | cases h

/-- Wherever parameters can be read in front of an arrow on the same line, a primary expression is
an arrow function with these parameters: from the same state it reads the same tokens and goes on
with the arrow, with `in` as an operator. The depth is that of the recursion and only has to be
enough. -/
def Hooks.CoverParameters (hooks : Hooks σ) : Prop :=
  ∀ (options : Options) (bound depth : Nat) (s t t' : ParserState σ) (params : List Pattern)
    (next : Lookahead),
    (Grammar.ofDepth options hooks bound depth).formalParameters s = .ok params t →
    t.LooksTo next t' → next.token = .punctuator .arrow → next.newlineBefore = false →
      ∃ first s', s.LooksTo first s' ∧ ∀ depth' > depth,
        (Grammar.ofDepth options hooks bound depth').atom s = Parse.allowingIn
          ((Grammar.ofDepth options hooks bound depth').arrowFunction first.span.start params false)
          t'

/-- The parameters of an arrow function are those that the rule for parameters reads. -/
theorem arrow_parameters_eq_formalParameters :
    (∀ rules, (Hooks.silent rules).CoverParameters) ∧ Hooks.privateNames.CoverParameters :=
  ⟨fun rules _ _ _ _ _ _ _ _ h hlook harrow hline =>
    Grammar.atom_of_formalParameters (Hooks.passPatterns_silent rules) h hlook harrow hline,
  fun _ _ _ _ _ _ _ _ h hlook harrow hline =>
    Grammar.atom_of_formalParameters Hooks.passPatterns_privateNames h hlook harrow hline⟩

/-- Parameters with default values, a hole, nested patterns and rest elements. -/
theorem arrow_parameters_eq_formalParameters_of_patterns :
    ∃ s t params, (Grammar.ofDepth {} Hooks.privateNames 9 3).formalParameters s = .ok params t ∧
      params.length = 3 ∧ ∃ first s' t', s.LooksTo first s' ∧ ∀ depth > 3,
        (Grammar.ofDepth {} Hooks.privateNames 9 depth).atom s = Parse.allowingIn
          ((Grammar.ofDepth {} Hooks.privateNames 9 depth).arrowFunction first.span.start params
            false) t' := by
  have hfound : (match (Grammar.ofDepth {} Hooks.privateNames 9 3).formalParameters
      (Parser.ofSource "([, a] = 1, \x7bb, get: [c], ...d\x7d, ...e) => 2" {} .privateNames
        {}).state with
      | .ok params t =>
        match Parse.lexing Lexing.lookahead t with
        | .ok next _ =>
          params.length == 3 && (next.token == .punctuator .arrow && !next.newlineBefore)
        | .error _ _ => false
      | .error _ _ => false) = true := by
    decide +kernel
  split at hfound
  · next params t hparams =>
    split at hfound
    · next next t' hlook =>
      rw [Bool.and_eq_true, Bool.and_eq_true, beq_iff_eq, beq_iff_eq, Bool.not_eq_true'] at hfound
      obtain ⟨hlength, harrow, hline⟩ := hfound
      obtain ⟨first, s', hfirst, hatom⟩ := arrow_parameters_eq_formalParameters.2 _ _ _ _ _ _ _ _
        hparams hlook harrow hline
      exact ⟨_, t, params, hparams, hlength, first, s', t', hfirst, hatom⟩
    · cases hfound
  · cases hfound

end EcmaScript
