import EcmaScript.Proofs.Context
import EcmaScript.Proofs.Cover.Operand
import EcmaScript.Proofs.Deepening

/-!
Patterns that are read as literals.

What is read as a pattern can be read as an expression, too: token by token, and the expression is
then read as the same pattern. Each rule for patterns is compared with the rule for literals that
meets the same source. Since a part of a pattern is an assignment expression of a literal, the
literal needs a grammar that recurs one deeper.
-/

namespace EcmaScript

variable {σ α β : Type}

/-- Two grammars that differ in depth alone, of which the second one is one deeper. -/
structure Grammar.IsBelow (g g' : Grammar σ) : Prop where
  options : g'.options = g.options
  bound : g'.bound = g.bound
  bound_ne : g.bound ≠ 0
  passes : g'.hooks.PassPatterns
  assignment : g'.assignment = g.assignmentRule
  bindingTarget : g'.bindingTarget = g.bindingTargetRule
  deepen : ∀ {α : Type} (script : Script α) {s s' : ParserState σ} {a : α},
    script.denote g s = .ok a s' → script.denote g' s = .ok a s'
  context_assignment : ∀ {s s' : ParserState σ} {e : Expression},
    g.assignment s = .ok e s' → s'.context = s.context
  context_bindingTarget : ∀ {s s' : ParserState σ} {p : Pattern},
    g.bindingTarget s = .ok p s' → s'.context = s.context

theorem Grammar.isBelow_ofDepth (options : Options) {hooks : Hooks σ} {bound : Nat}
    (hhooks : hooks.PassPatterns) (hbound : bound ≠ 0) (depth : Nat) :
    (ofDepth options hooks bound depth).IsBelow (ofDepth options hooks bound (depth + 1)) where
  options := by cases depth <;> rfl
  bound := by cases depth <;> rfl
  bound_ne := by cases depth <;> exact hbound
  passes := hhooks
  assignment := rfl
  bindingTarget := rfl
  deepen script _ _ _ hok := deepen_ok script (Nat.le_succ depth) hok
  context_assignment := Recurring.assignment.context_eq_of_ok
  context_bindingTarget := Recurring.bindingTarget.context_eq_of_ok

/-! ## Steps -/

namespace Parse

/-- Where `in` is an operator already, allowing it changes nothing. -/
theorem allowingIn_eq_ok_iff {p : Parse σ α} {s t : ParserState σ} {a : α}
    (hin : s.context.inForInit = false)
    (hcontext : ∀ {a t}, p s = .ok a t → t.context = s.context) :
    allowingIn p s = .ok a t ↔ p s = .ok a t := by
  obtain ⟨lexer, ⟨strict, loops, switches, functions, generator, async, method, inForInit⟩, hooks⟩ := s
  obtain rfl : inForInit = false := hin
  have hrun : allowingIn p ⟨lexer, ⟨strict, loops, switches, functions, generator, async, method,
      false⟩, hooks⟩ = closing (leaving fun now => some { now with inForInit := false }) p ⟨lexer,
      ⟨strict, loops, switches, functions, generator, async, method, false⟩, hooks⟩ := rfl
  rw [hrun]
  unfold closing
  rcases hp : p ⟨lexer, ⟨strict, loops, switches, functions, generator, async, method, false⟩,
    hooks⟩ with ⟨b, u⟩ | ⟨_ | _ | _, u⟩
  · obtain ⟨lexer', context', hooks'⟩ := u
    obtain rfl : context' = _ := hcontext hp
    rfl
  · simp [leaving]
  · simp
  · simp

theorem allowingIn_of_ok {p : Parse σ α} {s t : ParserState σ} {a : α}
    (hin : s.context.inForInit = false) (h : p s = .ok a t) (hcontext : t.context = s.context) :
    allowingIn p s = .ok a t := by
  refine (allowingIn_eq_ok_iff hin fun {b u} hother => ?_).2 h
  rw [h] at hother
  cases hother
  exact hcontext

end Parse

namespace Grammar

variable {g g' : Grammar σ} {context : Context} {s s' t t' u u' : ParserState σ} {p : Pattern}
  {e : Expression} {next : Lookahead}

def rulesIn (g : Grammar σ) (context : Context) : NameRules := ⟨context.strict, g.options.goal⟩

/-- In front of the end of a pattern, whatever is read as a binding target is a conditional
expression, too, and that is read as the same pattern. -/
def CoversTargets (g : Grammar σ) (context : Context) : Prop :=
  ∀ {s t t' : ParserState σ} {p : Pattern} {next : Lookahead}, s.context = context →
    g.bindingTarget s = .ok p t → t.LooksTo next t' → next.token.closesPattern = true →
    ∃ first s' e, s.LooksTo first s' ∧ first.token.beginsPattern context = true ∧
      g.conditional s' = .ok e t' ∧ e.hasPatternForm = true ∧ e.ReadsAs (g.rulesIn context) p

/-! ## Elements -/

/-- The parts of a rest element. -/
theorem restElement_eq_ok (h : g.restElement s = .ok p t) :
    ∃ first s' argument, s.LooksTo first s' ∧ first.token = .punctuator .spread ∧
      g.bindingTarget (s'.behind first) = .ok argument t ∧
      p = .rest argument ⟨first.span.start, t.lexer.lastSpan.stop⟩ := by
  obtain ⟨start, s', hstart, h⟩ := Parse.bind_eq_ok h
  obtain ⟨first, hfirst, rfl⟩ := Parse.startPosition_eq_ok hstart
  obtain ⟨⟨⟩, between, hspread, h⟩ := Parse.bind_eq_ok h
  obtain ⟨again, s'', hagain, htoken, rfl⟩ := Parse.expect_eq_ok hspread
  obtain ⟨rfl, rfl⟩ := hfirst.again.unique hagain
  obtain ⟨argument, u, hargument, h⟩ := Parse.bind_eq_ok h
  cases h
  exact ⟨first, s', argument, hfirst, htoken, hargument, rfl⟩

section

variable (hcovers : g.CoversTargets context)

include hcovers

/-- A binding target that has no default value is an assignment expression. -/
theorem assignmentRule_of_bindingTarget (hs : s.context = context)
    (h : g.bindingTarget s = .ok p t) (hlook : t.LooksTo next t')
    (hcloses : next.token.closesPattern = true) (hassign : next.token ≠ .punctuator .assign) :
    ∃ e, g.assignmentRule s = .ok e t' ∧ e.ReadsAs (g.rulesIn context) p := by
  obtain ⟨first, s', e, hfirst, hbegins, hleft, -, hreads⟩ := hcovers hs h hlook hcloses
  subst hs
  exact ⟨e, assignmentRule_of_conditional hfirst (Token.beginsAtom_of_beginsPattern hbegins) hleft
    hlook.again hcloses hassign, hreads⟩

/-- A binding target with an optional default value is an assignment expression. -/
theorem assignmentRule_of_bindingElement (below : g.IsBelow g') (hin : context.inForInit = false)
    (hs : s.context = context) (h : g.bindingElement s = .ok p u) (hlook : u.LooksTo next u')
    (hcloses : next.token.closesPattern = true) :
    u.context = context ∧ ∃ e, g.assignmentRule s = .ok e u ∧
      e.ReadsAs (g.rulesIn context) p := by
  obtain ⟨start, s', hstart, h⟩ := Parse.bind_eq_ok h
  obtain ⟨first, hfirst, rfl⟩ := Parse.startPosition_eq_ok hstart
  obtain ⟨target, t, htarget, h⟩ := Parse.bind_eq_ok h
  obtain ⟨accepted, between, haccept, h⟩ := Parse.bind_eq_ok h
  obtain ⟨after, t', hafter, hcases⟩ := Parse.accept_eq_ok haccept
  have hs' : s'.context = context := hfirst.context_eq.trans hs
  have ht' : t'.context = context :=
    hafter.context_eq.trans ((below.context_bindingTarget htarget).trans hs')
  obtain ⟨rfl, htoken, rfl⟩ | ⟨rfl, htoken, rfl⟩ := hcases
  · -- With a default value, the literal is an assignment.
    obtain ⟨again, s'', e, hagain, hbegins, hleft, hform, hreads⟩ :=
      hcovers hs' htarget hafter (by rw [htoken]; rfl)
    obtain ⟨rfl, rfl⟩ := hfirst.again.unique hagain
    rw [if_pos rfl] at h
    obtain ⟨value, u₁, hvalue, h⟩ := Parse.bind_eq_ok h
    cases h
    have hvalue : g.assignment (t'.behind after) = .ok value u₁ :=
      (Parse.allowingIn_eq_ok_iff (by rw [← hin, ← ht']; rfl) below.context_assignment).1 hvalue
    obtain ⟨assigned, hassigned, hwhole⟩ := hreads.toTarget hform
    refine ⟨(below.context_assignment hvalue).trans ht', _, assignmentRule_of_assign hfirst
      (Token.beginsAtom_of_beginsPattern (hs ▸ hbegins)) hleft hafter.again htoken ?_ hvalue,
      hwhole _ _⟩
    rw [ht']
    exact hassigned
  · cases h
    obtain ⟨again, s'', e, hagain, hbegins, hleft, -, hreads⟩ := hcovers hs' htarget hafter
      ((hafter.again.unique hlook).1 ▸ hcloses)
    obtain ⟨rfl, rfl⟩ := hfirst.again.unique hagain
    exact ⟨ht', e, assignmentRule_of_conditional hfirst
      (Token.beginsAtom_of_beginsPattern (hs ▸ hbegins)) hleft hafter.again
      ((hafter.again.unique hlook).1 ▸ hcloses) htoken, hreads⟩

end

/-! ## Properties -/

/-- A word that ends a property name itself modifies nothing. -/
theorem modifiers_of_endsPropertyName {first : Lookahead} (hfirst : s.LooksTo first s)
    (hstar : first.token ≠ .punctuator .star)
    (hword : first.token.isWord = true → ∃ second t, (s.behind first).LooksTo second t ∧
      second.token.endsPropertyName = true) : modifiers s = .ok ⟨false, false, none⟩ s := by
  have hasync : asyncModifier s = .ok false s := by
    unfold asyncModifier
    rw [Parse.bind_of_ok (hfirst.nextIsWord .async)]
    by_cases htoken : first.token = .keyword .async
    · obtain ⟨second, t, hsecond, hends⟩ := hword (by rw [htoken]; rfl)
      rw [htoken, beq_self_eq_true, if_pos rfl, Parse.bind_of_ok (hfirst.peekSecond hsecond)]
      simp only [hends, Bool.or_true, if_true]
      rfl
    · rw [beq_false_of_ne htoken, if_neg Bool.false_ne_true]
      rfl
  have haccessor : accessorModifier s = .ok none s := by
    rw [Script.accessorModifier_eq, Parse.bind_of_ok hfirst.peek]
    cases hkind : Script.accessorKind? first.token with
    | none => rfl
    | some kind =>
      obtain ⟨second, t, hsecond, hends⟩ := hword (Script.isWord_of_accessorKind? hkind).1
      dsimp only
      rw [Parse.bind_of_ok (hfirst.peekSecond hsecond)]
      simp only [hends, if_true]
      rfl
  unfold modifiers
  rw [Parse.bind_of_ok hasync, Parse.bind_of_ok (hfirst.declines hstar)]
  simp only [Bool.or_self, Bool.false_eq_true, if_false]
  rw [Parse.bind_of_ok haccessor]
  rfl

/-- A property key begins with its only token or with a bracket. -/
theorem propertyKey_eq_ok {key : PropertyKey × Bool} (h : g.propertyKey s = .ok key t) :
    ∃ first s', s.LooksTo first s' ∧ g.propertyKey s' = .ok key t ∧
      (∀ symbol, first.token = .punctuator symbol → symbol = .lBracket) ∧
      (first.token ≠ .punctuator .lBracket → t = s'.behind first) := by
  have hwhole := h
  obtain ⟨start, s', hstart, h⟩ := Parse.bind_eq_ok h
  obtain ⟨first, hfirst, rfl⟩ := Parse.startPosition_eq_ok hstart
  rw [Parse.bind_of_ok hfirst.again.next_eq] at h
  refine ⟨first, s', hfirst, ?_, ?_, ?_⟩
  · unfold propertyKey at hwhole ⊢
    rw [Parse.bind_of_ok hfirst.startPosition] at hwhole
    rwa [Parse.bind_of_ok hfirst.again.startPosition]
  · intro symbol htoken
    rw [htoken] at h
    cases symbol with
    | lBracket => rfl
    | _ => cases h
  · intro hbracket
    generalize first.token = token at h hbracket
    cases token with
    | punctuator symbol =>
      cases symbol with
      | lBracket => exact absurd rfl hbracket
      | _ => cases h
    | _ => cases h <;> rfl

theorem context_propertyKey (below : g.IsBelow g') (hin : s.context.inForInit = false)
    {key : PropertyKey × Bool} (h : g.propertyKey s = .ok key t) : t.context = s.context := by
  obtain ⟨first, s', hfirst, hkey, -, hbehind⟩ := propertyKey_eq_ok h
  by_cases htoken : first.token = .punctuator .lBracket
  · rw [← hfirst.context_eq] at hin ⊢
    unfold propertyKey at hkey
    rw [Parse.bind_of_ok hfirst.again.startPosition, Parse.bind_of_ok hfirst.again.next_eq, htoken]
      at hkey
    obtain ⟨e, u, he, hkey⟩ := Parse.bind_eq_ok hkey
    obtain ⟨⟨⟩, u', hclose, hkey⟩ := Parse.bind_eq_ok hkey
    obtain ⟨close, u'', hlook, -, rfl⟩ := Parse.expect_eq_ok hclose
    cases hkey
    have he := (Parse.allowingIn_eq_ok_iff (s := s'.behind first) hin below.context_assignment).1 he
    exact hlook.context_eq.trans (below.context_assignment (s := s'.behind first) he)
  · rw [hbehind htoken]
    exact hfirst.context_eq

/-- A property that is no method, behind its key. -/
theorem objectProperty_of_propertyKey (below : g.IsBelow g') {key : PropertyKey} {computed : Bool}
    (h : g.propertyKey s = .ok (key, computed) t) (hlook : t.LooksTo next t')
    (hends : next.token.endsPropertyName = true) (hparen : next.token ≠ .punctuator .lParen) :
    ∃ start, g'.objectProperty s = (do
      if ← Parse.accept .colon then
        let value ← g'.assignment
        return .property key value .init false false computed (← Parse.spanFrom start)
      g'.shorthandProperty start key : Parse σ ObjectProperty) t' := by
  obtain ⟨first, s', hfirst, hkey, hsymbol, hbehind⟩ := propertyKey_eq_ok h
  have hother {symbol : Punctuator} (hne : symbol ≠ .lBracket) :
      first.token ≠ .punctuator symbol := fun htoken => hne (hsymbol symbol htoken)
  have hkey' : g'.propertyKey s' = .ok (key, computed) t := by
    rw [← Script.denote_propertyKey] at hkey ⊢
    exact below.deepen _ hkey
  have hmodifiers : modifiers s' = .ok ⟨false, false, none⟩ s' := by
    refine modifiers_of_endsPropertyName hfirst.again (hother (by decide)) fun hword => ?_
    refine ⟨next, t', ?_, hends⟩
    rwa [← hbehind (by rintro htoken; rw [htoken] at hword; cases hword)]
  refine ⟨first.span.start, ?_⟩
  unfold objectProperty
  rw [Parse.bind_of_ok hfirst.startPosition,
    Parse.bind_of_ok (hfirst.again.declines (hother (by decide))), if_neg Bool.false_ne_true,
    Parse.bind_of_ok hmodifiers, Parse.bind_of_ok hkey']
  change (Parse.nextIs .lParen >>= _) t = _
  rw [Parse.bind_of_ok (hlook.nextIs_false hparen)]
  rfl

section

variable {start : Position} {name : String} {span : Span} {value : Expression}

theorem shorthandProperty_of_name (hname : (g.rulesIn t.context).checkBinding name span.start = .ok ())
    (hlook : t.LooksTo next t) (hassign : next.token ≠ .punctuator .assign) :
    g.shorthandProperty start (.identifier name span) t =
      .ok (.property (.identifier name span) (.identifier name span) .init false true false
        ⟨start, t.lexer.lastSpan.stop⟩) t := by
  have hrules : g.nameRules t = .ok (g.rulesIn t.context) t := rfl
  unfold shorthandProperty
  dsimp only
  rw [Parse.bind_of_ok hrules,
    Parse.bind_of_ok (Parse.ensure_of_ok (NameRules.checkWord_of_checkBinding hname) t),
    Parse.bind_of_ok (hlook.declines hassign)]
  rfl

theorem shorthandProperty_of_default
    (hname : (g.rulesIn t.context).checkBinding name span.start = .ok ())
    (hlook : t.LooksTo next t) (hassign : next.token = .punctuator .assign)
    (hvalue : g.assignment (t.behind next) = .ok value u) :
    g.shorthandProperty start (.identifier name span) t =
      .ok (.property (.identifier name span)
        (.assignment .assign (.simple (.identifier name span)) value
          ⟨span.start, u.lexer.lastSpan.stop⟩) .init false true false
        ⟨start, u.lexer.lastSpan.stop⟩) u := by
  have hrules : g.nameRules t = .ok (g.rulesIn t.context) t := rfl
  unfold shorthandProperty
  dsimp only
  rw [Parse.bind_of_ok hrules,
    Parse.bind_of_ok (Parse.ensure_of_ok (NameRules.checkWord_of_checkBinding hname) t),
    Parse.bind_of_ok (hlook.accept hassign), if_pos rfl]
  rw [Parse.bind_of_ok hvalue]
  rfl

end

/-- A property of a pattern is a property of a literal whose value is read as the same pattern. -/
theorem objectProperty_of_patternProperty (below : g.IsBelow g') (hcovers : g.CoversTargets context)
    (hin : context.inForInit = false) (hs : s.context = context) {property : PatternProperty}
    (h : g.patternProperty s = .ok property u) (hlook : u.LooksTo next u')
    (hcloses : next.token = .punctuator .comma ∨ next.token = .punctuator .rBrace) :
    u.context = context ∧ ∃ value computed span, g'.objectProperty s =
      .ok (.property property.key value .init false property.shorthand computed span) u ∧
      value.ReadsAs (g.rulesIn context) property.value := by
  obtain ⟨⟨key, computed⟩, t, hkey, h⟩ := Parse.bind_eq_ok h
  have ht : t.context = context := (context_propertyKey below (hs ▸ hin) hkey).trans hs
  obtain ⟨colon, between, hcolon, h⟩ := Parse.bind_eq_ok h
  obtain ⟨after, t', hafter, hcases⟩ := Parse.accept_eq_ok hcolon
  have ht' : t'.context = context := hafter.context_eq.trans ht
  obtain ⟨rfl, htoken, rfl⟩ | ⟨rfl, htoken, rfl⟩ := hcases
  · -- A key with a value.
    rw [if_pos rfl] at h
    obtain ⟨value, between, hvalue, h⟩ := Parse.bind_eq_ok h
    cases h
    obtain ⟨start, hproperty⟩ := objectProperty_of_propertyKey below hkey hafter
      (by rw [htoken]; rfl) (by rw [htoken]; decide)
    obtain ⟨hu, e, he, hreads⟩ := assignmentRule_of_bindingElement hcovers below hin
      (s := t'.behind after) ht' hvalue hlook (by rcases hcloses with h | h <;> rw [h] <;> rfl)
    refine ⟨hu, e, computed, ⟨start, u.lexer.lastSpan.stop⟩, ?_, hreads⟩
    rw [hproperty, Parse.bind_of_ok (hafter.again.accept htoken), if_pos rfl, below.assignment,
      Parse.bind_of_ok he]
    rfl
  · -- A name alone.
    cases key with
    | identifier name span =>
      obtain ⟨rules, _, hrules, hchecked⟩ := Parse.bind_eq_ok h
      cases hrules
      obtain ⟨_, t₁, hensure, hassigned⟩ := Parse.bind_eq_ok hchecked
      obtain ⟨hname, rfl⟩ := Parse.ensure_eq_ok hensure
      obtain ⟨assign, _, hassign, hvalue⟩ := Parse.bind_eq_ok hassigned
      obtain ⟨again, _, hagain, hcases⟩ := Parse.accept_eq_ok hassign
      obtain ⟨rfl, rfl⟩ := hafter.again.unique hagain
      have hname' : (g'.rulesIn t₁.context).checkBinding name span.start = .ok () := by
        unfold rulesIn
        rw [below.options]
        exact hname
      have hreads : (Expression.identifier name span).ReadsAs (g.rulesIn context)
          (.identifier name span) := .identifier (by rw [← ht']; exact hname)
      have hdeclines := hafter.again.declines htoken
      obtain ⟨rfl, htoken', rfl⟩ | ⟨rfl, htoken', rfl⟩ := hcases
      · rw [if_pos rfl] at hvalue
        obtain ⟨value, u₁, hdefault, hresult⟩ := Parse.bind_eq_ok hvalue
        cases hresult
        have hdefault : g.assignment (t₁.behind after) = .ok value u₁ :=
          (Parse.allowingIn_eq_ok_iff (by rw [← hin, ← ht']; rfl) below.context_assignment).1
            hdefault
        obtain ⟨start, hproperty⟩ := objectProperty_of_propertyKey below hkey hafter
          (by rw [htoken']; rfl) (by rw [htoken']; decide)
        have hvalue : g'.assignment (t₁.behind after) = .ok value u₁ :=
          below.deepen (.call .assignment) hdefault
        refine ⟨(below.context_assignment hdefault).trans ht', _, false,
          ⟨start, u₁.lexer.lastSpan.stop⟩, ?_,
          hreads.withDefault value ⟨span.start, u₁.lexer.lastSpan.stop⟩⟩
        rw [hproperty, Parse.bind_of_ok hdeclines, if_neg Bool.false_ne_true]
        exact shorthandProperty_of_default hname' hafter.again htoken' hvalue
      · cases hvalue
        have hends : next.token.endsPropertyName = true ∧ next.token ≠ .punctuator .lParen := by
          rcases hcloses with h | h <;> rw [h] <;> decide
        obtain ⟨rfl, -⟩ := hlook.unique hafter.again
        obtain ⟨start, hproperty⟩ := objectProperty_of_propertyKey below hkey hafter hends.1 hends.2
        refine ⟨ht', _, false, ⟨start, u.lexer.lastSpan.stop⟩, ?_, hreads⟩
        rw [hproperty, Parse.bind_of_ok hdeclines, if_neg Bool.false_ne_true]
        exact shorthandProperty_of_name hname' hafter.again htoken'
    | _ =>
      obtain ⟨start, between, -, h⟩ := Parse.bind_eq_ok h
      cases h

/-! ## Lists of elements and properties -/

/-- What two rounds return, each with the state behind it, is related: both go on, or both stop. -/
inductive RoundsRelated {α β α' β' : Type} (R : α → ParserState σ → α' → ParserState σ → Prop)
    (Q : β → ParserState σ → β' → ParserState σ → Prop) :
    Round α β → ParserState σ → Round α' β' → ParserState σ → Prop
  | again {a a' s s'} (h : R a s a' s') : RoundsRelated R Q (.again a) s (.again a') s'
  | stop {b b' s s'} (h : Q b s b' s') : RoundsRelated R Q (.stop b) s (.stop b') s'

/-- Two rules have reached the same place, in the given context, with related results. -/
structure Alongside {α α' : Type} (context : Context) (related : α → α' → Prop) (a : α)
    (s : ParserState σ) (a' : α') (s' : ParserState σ) : Prop where
  same : s' = s
  context_eq : s.context = context
  related : related a a'

/-- A loop whose rounds follow those of another one follows it. -/
theorem exists_loop_of_rounds {α β α' β' : Type}
    (R : α → ParserState σ → α' → ParserState σ → Prop)
    (Q : β → ParserState σ → β' → ParserState σ → Prop) {round : α → Parse σ (Round α β)}
    {round' : α' → Parse σ (Round α' β')} (hbound : g'.bound = g.bound)
    (hround : ∀ a s a' s' r t, R a s a' s' → round a s = .ok r t →
      ∃ r' t', round' a' s' = .ok r' t' ∧ RoundsRelated R Q r t r' t')
    {a : α} {a' : α'} {b : β} (h : R a s a' s') (hrun : g.loop round a s = .ok b t) :
    ∃ b' t', g'.loop round' a' s' = .ok b' t' ∧ Q b t b' t' := by
  unfold loop at hrun ⊢
  rw [hbound]
  generalize g.bound = bound at hrun
  induction bound generalizing a s a' s' with
  | zero => cases hrun
  | succ bound ih =>
    obtain ⟨r, u, hfirst, hrest⟩ := Parse.bind_eq_ok hrun
    obtain ⟨r', u', hfirst', hrelated⟩ := hround _ _ _ _ _ _ h hfirst
    rw [repeatRounds, Parse.bind_of_ok hfirst']
    cases hrelated with
    | again hagain => exact ih hagain hrest
    | stop hstop =>
      cases hrest
      exact ⟨_, _, rfl, hstop⟩

/-- A loop follows another one whose rounds it follows token by token. -/
theorem exists_loop_of_alongside {α β α' β' : Type} (related : α → α' → Prop)
    (related' : β → β' → Prop) {round : α → Parse σ (Round α β)}
    {round' : α' → Parse σ (Round α' β')} (hbound : g'.bound = g.bound)
    (hround : ∀ {a a' s r t}, s.context = context → related a a' → round a s = .ok r t →
      ∃ r', round' a' s = .ok r' t ∧
        RoundsRelated (Alongside context related) (Alongside context related') r t r' t)
    {a : α} {a' : α'} {b : β} (hs : s.context = context) (h : related a a')
    (hrun : g.loop round a s = .ok b t) :
    ∃ b', g'.loop round' a' s = .ok b' t ∧ t.context = context ∧ related' b b' := by
  obtain ⟨b', _, hrun', rfl, ht, hrelated⟩ := exists_loop_of_rounds (Alongside context related)
    (Alongside context related') hbound (fun a s a' s' r t halong hfirst => by
      obtain ⟨rfl, hs, hrelated⟩ := halong
      obtain ⟨r', hfirst', hrounds⟩ := hround hs hrelated hfirst
      exact ⟨r', t, hfirst', hrounds⟩) ⟨rfl, hs, h⟩ hrun
  exact ⟨b', hrun', ht, hrelated⟩

section

variable {x : α} {y : β} {close : Punctuator}

/-- Behind an item of a list stands a comma, and the list goes on, or its end. -/
theorem separator_eq_ok {r : Round α β} (h : (do
      if ← Parse.accept .comma then
        return .again x
      Parse.expect close
      return .stop y : Parse σ (Round α β)) s = .ok r t) :
    ∃ last s', s.LooksTo last s' ∧ t = s'.behind last ∧
      (last.token = .punctuator .comma ∧ r = .again x ∨
        last.token ≠ .punctuator .comma ∧ last.token = .punctuator close ∧ r = .stop y) := by
  obtain ⟨more, between, hmore, h⟩ := Parse.bind_eq_ok h
  obtain ⟨last, s', hlast, ⟨rfl, htoken, rfl⟩ | ⟨rfl, hcomma, rfl⟩⟩ := Parse.accept_eq_ok hmore
  · cases h
    exact ⟨last, s', hlast, rfl, .inl ⟨htoken, rfl⟩⟩
  · rw [if_neg Bool.false_ne_true] at h
    obtain ⟨_, between, hclose, h⟩ := Parse.bind_eq_ok h
    obtain ⟨again, s'', hagain, htoken, rfl⟩ := Parse.expect_eq_ok hclose
    obtain ⟨rfl, rfl⟩ := hlast.again.unique hagain
    cases h
    exact ⟨last, _, hlast, rfl, .inr ⟨hcomma, htoken, rfl⟩⟩

theorem separator_of_comma (hlast : s.LooksTo next s') (htoken : next.token = .punctuator .comma) :
    (do
      if ← Parse.accept .comma then
        return .again x
      Parse.expect close
      return .stop y : Parse σ (Round α β)) s = .ok (.again x) (s'.behind next) := by
  rw [Parse.bind_of_ok (hlast.accept htoken)]
  rfl

theorem separator_of_close (hlast : s.LooksTo next s') (hcomma : next.token ≠ .punctuator .comma)
    (htoken : next.token = .punctuator close) :
    (do
      if ← Parse.accept .comma then
        return .again x
      Parse.expect close
      return .stop y : Parse σ (Round α β)) s = .ok (.stop y) (s'.behind next) := by
  rw [Parse.bind_of_ok (hlast.declines hcomma), if_neg Bool.false_ne_true,
    Parse.bind_of_ok (hlast.again.expect htoken)]
  rfl

end

section

variable (below : g.IsBelow g') (hcovers : g.CoversTargets context)
  (hin : context.inForInit = false)

include below hcovers

/-- The argument of a rest element is that of a spread. -/
theorem assignment_of_restElement (hs : s.context = context) (h : g.restElement s = .ok p t)
    (hlook : t.LooksTo next t') (hcloses : next.token.closesPattern = true)
    (hassign : next.token ≠ .punctuator .assign) :
    ∃ first s' e argument, s.LooksTo first s' ∧ first.token = .punctuator .spread ∧
      g'.assignment (s'.behind first) = .ok e t' ∧ e.ReadsAs (g.rulesIn context) argument ∧
      t'.context = context ∧ p = .rest argument ⟨first.span.start, t'.lexer.lastSpan.stop⟩ := by
  obtain ⟨first, s', argument, hfirst, htoken, hargument, rfl⟩ := restElement_eq_ok h
  have hs' : (s'.behind first).context = context := hfirst.context_eq.trans hs
  obtain ⟨e, he, hreads⟩ := assignmentRule_of_bindingTarget hcovers hs' hargument hlook hcloses
    hassign
  refine ⟨first, s', e, argument, hfirst, htoken, by rwa [below.assignment], hreads,
    hlook.context_eq.trans ((below.context_bindingTarget hargument).trans hs'), ?_⟩
  rw [hlook.lastSpan_eq]

include hin

/-- A round of an array pattern is one of an array literal. -/
theorem exists_arrayLiteralRound {patterns : List (Option Pattern)}
    {elements : List (Option Expression)} {r : Round (List (Option Pattern)) (List (Option Pattern))}
    (hs : s.context = context) (hlead : ElementsLead (g.rulesIn context) patterns elements)
    (h : g.arrayPatternRound patterns s = .ok r t) :
    ∃ r', g'.arrayLiteralRound elements s = .ok r' t ∧
      RoundsRelated (Alongside context (ElementsLead (g.rulesIn context)))
        (Alongside context fun patterns elements =>
          ElementsRead (g.rulesIn context) patterns.reverse elements.reverse) r t r' t := by
  obtain ⟨first, s', hfirst⟩ : ∃ first s', s.LooksTo first s' := by
    obtain ⟨close, u, hclose, -⟩ := Parse.bind_eq_ok h
    obtain ⟨first, s', hfirst, -⟩ := Parse.accept_eq_ok hclose
    exact ⟨first, s', hfirst⟩
  have hs' : s'.context = context := hfirst.context_eq.trans hs
  unfold arrayPatternRound at h
  unfold arrayLiteralRound
  by_cases hclose : first.token = .punctuator .rBracket
  · rw [Parse.bind_of_ok (hfirst.accept hclose), if_pos rfl] at h ⊢
    cases h
    exact ⟨_, rfl, .stop ⟨rfl, hs', hlead.close⟩⟩
  rw [Parse.bind_of_ok (hfirst.declines hclose), if_neg Bool.false_ne_true] at h ⊢
  by_cases hcomma : first.token = .punctuator .comma
  · rw [Parse.bind_of_ok (hfirst.again.accept hcomma), if_pos rfl] at h ⊢
    cases h
    exact ⟨_, rfl, .again ⟨rfl, hs', hlead.push .hole⟩⟩
  rw [Parse.bind_of_ok (hfirst.again.declines hcomma), if_neg Bool.false_ne_true] at h ⊢
  rw [Parse.bind_of_ok (hfirst.again.nextIs .spread)] at h
  by_cases hspread : first.token = .punctuator .spread
  · rw [hspread, beq_self_eq_true, if_pos rfl] at h
    obtain ⟨rest, u, hrest, h⟩ := Parse.bind_eq_ok h
    obtain ⟨_, u', hend, h⟩ := Parse.bind_eq_ok h
    obtain ⟨last, u'', hlast, htoken, rfl⟩ := Parse.expect_eq_ok hend
    cases h
    obtain ⟨again, _, e, argument, hagain, -, he, hreads, hu, rfl⟩ := assignment_of_restElement below
      hcovers hs' hrest hlast (by rw [htoken]; rfl) (by rw [htoken]; decide)
    obtain ⟨rfl, rfl⟩ := hfirst.again.unique hagain
    have hargument : g'.spreadOrAssignment s' =
        .ok (.spread e ⟨first.span.start, u''.lexer.lastSpan.stop⟩) u'' := by
      unfold spreadOrAssignment
      rw [Parse.bind_of_ok (hfirst.again.nextIs .spread), hspread, beq_self_eq_true, if_pos rfl,
        Parse.bind_of_ok hfirst.again.startPosition, Parse.bind_of_ok hfirst.again.skip,
        Parse.bind_of_ok he]
      rfl
    rw [Parse.bind_of_ok hargument]
    exact ⟨_, separator_of_close hlast.again (by rw [htoken]; decide) htoken,
      .stop ⟨rfl, hu, hlead.closeRest hreads⟩⟩
  rw [beq_false_of_ne hspread, if_neg Bool.false_ne_true] at h
  obtain ⟨element, u, helement, h⟩ := Parse.bind_eq_ok h
  obtain ⟨last, u', hlast, rfl, hcases⟩ := separator_eq_ok h
  have hcloses : last.token.closesPattern = true := by
    obtain ⟨htoken, -⟩ | ⟨-, htoken, -⟩ := hcases <;> rw [htoken] <;> rfl
  obtain ⟨hu, e, he, hreads⟩ :=
    assignmentRule_of_bindingElement hcovers below hin hs' helement hlast hcloses
  have hu' : (u'.behind last).context = context := hlast.context_eq.trans hu
  have hmore := hlead.push (.cons hreads)
  have hargument : g'.spreadOrAssignment s' = .ok e u := by
    unfold spreadOrAssignment
    rw [Parse.bind_of_ok (hfirst.again.nextIs_false hspread), if_neg Bool.false_ne_true,
      below.assignment]
    exact he
  rw [Parse.bind_of_ok hargument]
  obtain ⟨htoken, rfl⟩ | ⟨hcomma, htoken, rfl⟩ := hcases
  · exact ⟨_, separator_of_comma hlast htoken, .again ⟨rfl, hu', hmore⟩⟩
  · exact ⟨_, separator_of_close hlast hcomma htoken, .stop ⟨rfl, hu', hmore.close⟩⟩

/-- A round of an object pattern is one of an object literal. -/
theorem exists_objectLiteralRound {patterns : List PatternProperty}
    {properties : List ObjectProperty}
    {r : Round (List PatternProperty) (List PatternProperty × Option Pattern)}
    (hs : s.context = context) (hlead : PropertiesLead (g.rulesIn context) patterns properties)
    (h : g.objectPatternRound patterns s = .ok r t) :
    ∃ r', g'.objectLiteralRound properties s = .ok r' t ∧
      RoundsRelated (Alongside context (PropertiesLead (g.rulesIn context)))
        (Alongside context fun patterns properties =>
          PropertiesRead (g.rulesIn context) patterns.1.reverse patterns.2 properties.reverse)
        r t r' t := by
  obtain ⟨first, s', hfirst⟩ : ∃ first s', s.LooksTo first s' := by
    obtain ⟨close, u, hclose, -⟩ := Parse.bind_eq_ok h
    obtain ⟨first, s', hfirst, -⟩ := Parse.accept_eq_ok hclose
    exact ⟨first, s', hfirst⟩
  have hs' : s'.context = context := hfirst.context_eq.trans hs
  unfold objectPatternRound at h
  unfold objectLiteralRound
  by_cases hclose : first.token = .punctuator .rBrace
  · rw [Parse.bind_of_ok (hfirst.accept hclose), if_pos rfl] at h ⊢
    cases h
    exact ⟨_, rfl, .stop ⟨rfl, hs', hlead.close⟩⟩
  rw [Parse.bind_of_ok (hfirst.declines hclose), if_neg Bool.false_ne_true] at h ⊢
  rw [Parse.bind_of_ok (hfirst.again.nextIs .spread)] at h
  by_cases hspread : first.token = .punctuator .spread
  · rw [hspread, beq_self_eq_true, if_pos rfl] at h
    obtain ⟨rest, u, hrest, h⟩ := Parse.bind_eq_ok h
    obtain ⟨_, u', hend, h⟩ := Parse.bind_eq_ok h
    obtain ⟨last, u'', hlast, htoken, rfl⟩ := Parse.expect_eq_ok hend
    cases h
    obtain ⟨again, _, e, argument, hagain, -, he, hreads, hu, rfl⟩ := assignment_of_restElement below
      hcovers hs' hrest hlast (by rw [htoken]; rfl) (by rw [htoken]; decide)
    obtain ⟨rfl, rfl⟩ := hfirst.again.unique hagain
    have hproperty : g'.objectProperty s' =
        .ok (.spread e ⟨first.span.start, u''.lexer.lastSpan.stop⟩) u'' := by
      unfold objectProperty
      rw [Parse.bind_of_ok hfirst.again.startPosition,
        Parse.bind_of_ok (hfirst.again.accept hspread), if_pos rfl, Parse.bind_of_ok he]
      rfl
    rw [Parse.bind_of_ok hproperty]
    exact ⟨_, separator_of_close hlast.again (by rw [htoken]; decide) htoken,
      .stop ⟨rfl, hu, hlead.closeRest hreads⟩⟩
  rw [beq_false_of_ne hspread, if_neg Bool.false_ne_true] at h
  obtain ⟨⟨key, pattern, shorthand⟩, u, hproperty, h⟩ := Parse.bind_eq_ok h
  obtain ⟨last, u', hlast, rfl, hcases⟩ := separator_eq_ok h
  obtain ⟨hu, value, computed, span, hliteral, hreads⟩ := objectProperty_of_patternProperty below
    hcovers hin hs' hproperty hlast
    (hcases.imp And.left fun hend => hend.2.1)
  have hu' : (u'.behind last).context = context := hlast.context_eq.trans hu
  have hmore := hlead.push hreads key shorthand computed span
  rw [Parse.bind_of_ok hliteral]
  obtain ⟨htoken, rfl⟩ | ⟨hcomma, htoken, rfl⟩ := hcases
  · exact ⟨_, separator_of_comma hlast htoken, .again ⟨rfl, hu', hmore⟩⟩
  · exact ⟨_, separator_of_close hlast hcomma htoken, .stop ⟨rfl, hu', hmore.close⟩⟩

/-! ## Whole patterns -/

/-- An array pattern is an array literal. -/
theorem exists_atom_of_arrayPattern {first : Lookahead} (hs : s.context = context)
    (hfirst : s.LooksTo first s) (htoken : first.token = .punctuator .lBracket)
    (h : g.arrayPattern s = .ok p t) : ∃ e, g'.atom s = .ok e t ∧ t.context = context ∧
      e.hasPatternForm = true ∧ e.ReadsAs (g.rulesIn context) p := by
  unfold arrayPattern at h
  rw [Parse.bind_of_ok hfirst.startPosition, Parse.bind_of_ok (hfirst.expect htoken)] at h
  obtain ⟨patterns, u, hpatterns, h⟩ := Parse.bind_eq_ok h
  cases h
  obtain ⟨elements, helements, ht, hread⟩ := exists_loop_of_alongside
    (ElementsLead (g.rulesIn context)) _ below.bound (exists_arrayLiteralRound below hcovers hin)
    (s := s.behind first) hs .nil hpatterns
  refine ⟨.array elements.reverse ⟨first.span.start, u.lexer.lastSpan.stop⟩, ?_, ht, rfl,
    .array hread⟩
  unfold atom
  rw [Parse.bind_of_ok hfirst.startPosition, Parse.bind_of_ok hfirst.peek, htoken]
  change g'.arrayLiteral _ s = _
  unfold arrayLiteral
  rw [Parse.bind_of_ok (hfirst.expect htoken), Parse.bind_of_ok (Parse.allowingIn_of_ok
    (s := s.behind first) (hs ▸ hin) helements (ht.trans hs.symm))]
  rfl

/-- An object pattern is an object literal. -/
theorem exists_atom_of_objectPattern {first : Lookahead} (hs : s.context = context)
    (hfirst : s.LooksTo first s) (htoken : first.token = .punctuator .lBrace)
    (h : g.objectPattern s = .ok p t) : ∃ e, g'.atom s = .ok e t ∧ t.context = context ∧
      e.hasPatternForm = true ∧ e.ReadsAs (g.rulesIn context) p := by
  unfold objectPattern at h
  rw [Parse.bind_of_ok hfirst.startPosition, Parse.bind_of_ok (hfirst.expect htoken)] at h
  obtain ⟨⟨patterns, rest⟩, u, hpatterns, h⟩ := Parse.bind_eq_ok h
  cases h
  obtain ⟨properties, hproperties, ht, hread⟩ := exists_loop_of_alongside
    (PropertiesLead (g.rulesIn context)) _ below.bound
    (exists_objectLiteralRound below hcovers hin) (s := s.behind first) hs .nil hpatterns
  refine ⟨.object properties.reverse ⟨first.span.start, u.lexer.lastSpan.stop⟩, ?_, ht, rfl,
    .object hread⟩
  unfold atom
  rw [Parse.bind_of_ok hfirst.startPosition, Parse.bind_of_ok hfirst.peek, htoken]
  change g'.objectLiteral _ s = _
  unfold objectLiteral
  rw [Parse.bind_of_ok (hfirst.expect htoken), Parse.bind_of_ok (Parse.allowingIn_of_ok
    (s := s.behind first) (hs ▸ hin) hproperties (ht.trans hs.symm))]
  rfl

end

end Grammar

end EcmaScript
