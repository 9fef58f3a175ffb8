import EcmaScript.Proofs.Script.Statement

/-!
Deeper grammars.

A rule of a grammar that recurs deeper does the same as before unless the rule has failed for want
of depth. What a rule returns does therefore not depend on the depth, only whether it returns.
-/

namespace EcmaScript

variable {σ α β : Type}

/-! ## Procedures that go on where others fail for want of depth -/

/-- The run has failed for want of steps. -/
def Observed.IsExhausted (o : Observed σ α) : Prop := ∃ s, o.1 = .error .exhausted s

/-- The second procedure does what the first one does wherever that one does not fail for want of
steps. -/
structure Procedure.Refines (procedure refined : Procedure α) : Prop where
  refines : ∀ {σ : Type} (hooks : Hooks σ) (options : Options) (s : ParserState σ),
    (procedure.observe hooks options s).IsExhausted ∨
      refined.observe hooks options s = procedure.observe hooks options s

namespace Procedure.Refines

theorem refl (procedure : Procedure α) : procedure.Refines procedure :=
  ⟨fun _ _ _ => .inr rfl⟩

theorem trans {first second third : Procedure α} (h : first.Refines second)
    (h' : second.Refines third) : first.Refines third := by
  refine ⟨fun {σ} hooks options s => ?_⟩
  rcases h.refines hooks options s with hfirst | hfirst
  · exact .inl hfirst
  · rcases h'.refines hooks options s with hsecond | hsecond
    · exact .inl (hfirst ▸ hsecond)
    · exact .inr (hsecond.trans hfirst)

theorem exhausted (procedure : Procedure α) : Procedure.exhaust.Refines procedure :=
  ⟨fun _ _ s => .inl ⟨s, rfl⟩⟩

theorem bind {first first' : Procedure β} {next next' : β → Procedure α}
    (hfirst : first.Refines first') (hnext : ∀ b, (next b).Refines (next' b)) :
    (Procedure.bind first next).Refines (.bind first' next') := by
  refine ⟨fun {σ} hooks options s => ?_⟩
  simp only [observe]
  rcases hfirst.refines hooks options s with ⟨s', hfailed⟩ | hsame
  · refine .inl ⟨s', ?_⟩
    rcases hrun : first.observe hooks options s with ⟨result, events⟩
    rw [hrun] at hfailed
    cases hfailed
    rfl
  · rw [hsame]
    rcases first.observe hooks options s with ⟨b | ⟨e, t⟩, events⟩
    · rename_i t
      rcases (hnext b).refines hooks options t with hfailed | hsame'
      · exact .inl hfailed
      · exact .inr (by simp only [Observed.andThen, hsame'])
    · exact .inr rfl

theorem within (region : Region) {body body' : Procedure α} (h : body.Refines body') :
    (Procedure.within region body).Refines (.within region body') := by
  refine ⟨fun {σ} hooks options s => ?_⟩
  simp only [observe]
  rcases h.refines hooks options { s with context := region.enter s.context } with
    ⟨s', hfailed⟩ | hsame
  · rcases hrun : body.observe hooks options { s with context := region.enter s.context } with
      ⟨result, events⟩
    rw [hrun] at hfailed
    cases hfailed
    exact .inl ⟨_, rfl⟩
  · exact .inr (by rw [hsame])

theorem arrow (isAsync : Bool) {body body' : Bool → Procedure α}
    (h : ∀ isBlock, (body isBlock).Refines (body' isBlock)) :
    (Procedure.arrow isAsync body).Refines (.arrow isAsync body') := by
  refine ⟨fun {σ} hooks options s => ?_⟩
  simp only [observe]
  cases Parse.nextIs .lBrace { s with context := Grammar.enterArrow isAsync s.context } with
  | error e inside => exact .inr rfl
  | ok isBlock inside =>
    rcases (h isBlock).refines hooks options inside with ⟨s', hfailed⟩ | hsame
    · rcases hrun : (body isBlock).observe hooks options inside with ⟨result, events⟩
      rw [hrun] at hfailed
      cases hfailed
      simp only [hrun]
      exact .inl ⟨_, rfl⟩
    · exact .inr (by simp only [hsame])

/-- No step behind the body hides that the body has failed. -/
theorem isExhausted_closedBy {o : Observed σ α} (h : o.IsExhausted) (close : Parse σ Unit)
    (event : ParserState σ → Event) : (o.closedBy close event).IsExhausted := by
  obtain ⟨s, hfailed⟩ := h
  obtain ⟨result, events⟩ := o
  cases hfailed
  exact ⟨_, rfl⟩

theorem inClass {body body' : Procedure α} (h : body.Refines body') :
    (Procedure.inClass body).Refines (.inClass body') := by
  refine ⟨fun {σ} hooks options s => ?_⟩
  simp only [observe]
  rcases h.refines hooks options { s with hooks := hooks.enterClass s.hooks } with hfailed | hsame
  · exact .inl (isExhausted_closedBy hfailed _ _)
  · exact .inr (by rw [hsame])

theorem inMethod (key : PropertyKey) {body body' : Procedure α} (h : body.Refines body') :
    (Procedure.inMethod key body).Refines (.inMethod key body') := by
  refine ⟨fun {σ} hooks options s => ?_⟩
  simp only [observe]
  rcases h.refines hooks options { s with hooks := (hooks.enterMethod key s.hooks).2 } with
    hfailed | hsame
  · exact .inl (isExhausted_closedBy hfailed _ _)
  · exact .inr (by rw [hsame])

theorem rounds {round round' : α → Procedure (Round α β)}
    (h : ∀ a, (round a).Refines (round' a)) (bound : Nat) (a : α) :
    (Procedure.rounds round bound a).Refines (.rounds round' bound a) := by
  induction bound generalizing a with
  | zero => exact .refl _
  | succ bound ih =>
    refine .bind (h a) fun r => ?_
    cases r with
    | again a' => exact ih a'
    | stop b => exact .refl _

end Procedure.Refines

/-! ## Grammars of different depth -/

/-- A script does the same with calls that go on where others fail for want of depth. -/
theorem Script.refines_plug {r r' : Routines} (hoptions : r'.options = r.options)
    (hbound : r'.bound = r.bound)
    (h : ∀ {α : Type} (callee : Recurring α), (r.call callee).Refines (r'.call callee))
    (script : Script α) : (script.plug r).Refines (script.plug r') := by
  induction script with
  | leaf procedure => exact .refl procedure
  | options =>
    rw [plug, plug, hoptions]
    exact .refl _
  | call callee => exact h callee
  | bind first next ihfirst ihnext => exact .bind ihfirst ihnext
  | loop round start ih =>
    rw [plug, plug, hbound]
    exact .rounds ih r.bound start
  | within region body ih => exact .within region ih
  | arrow isAsync body ih => exact .arrow isAsync ih
  | inClass body ih => exact .inClass ih
  | inMethod key body ih => exact .inMethod key ih

namespace Grammar

variable {options : Options} {hooks : Hooks σ} {bound depth depth' : Nat}

theorem routines_refines_succ (options : Options) (bound depth : Nat) (callee : Recurring α) :
    ((routines options bound depth).call callee).Refines
      ((routines options bound (depth + 1)).call callee) := by
  induction depth generalizing α with
  | zero => exact .exhausted _
  | succ depth ih => exact callee.script.refines_plug (by simp) (by simp) fun callee => ih callee

theorem routines_refines (options : Options) (bound : Nat) (hle : depth ≤ depth')
    (callee : Recurring α) :
    ((routines options bound depth).call callee).Refines
      ((routines options bound depth').call callee) := by
  induction hle with
  | refl => exact .refl _
  | step _ ih => exact ih.trans (routines_refines_succ options bound _ callee)

/-- A rule that a script denotes does the same in a deeper grammar, unless it fails for want of
depth. -/
theorem deepen (script : Script α) (hle : depth ≤ depth') (s : ParserState σ) :
    (∃ s', script.denote (.ofDepth options hooks bound depth) s = .error .exhausted s') ∨
      script.denote (.ofDepth options hooks bound depth') s =
        script.denote (.ofDepth options hooks bound depth) s := by
  rw [observe_plug, observe_plug]
  have hplug : (script.plug (routines options bound depth)).Refines
      (script.plug (routines options bound depth')) :=
    script.refines_plug (by simp) (by simp) (routines_refines options bound hle)
  exact (hplug.refines hooks options s).imp_right (congrArg Prod.fst)

/-- What a rule returns it returns in every deeper grammar. -/
theorem deepen_ok (script : Script α) (hle : depth ≤ depth') {s s' : ParserState σ} {a : α}
    (hok : script.denote (.ofDepth options hooks bound depth) s = .ok a s') :
    script.denote (.ofDepth options hooks bound depth') s = .ok a s' := by
  rcases deepen script hle s with ⟨t, hfailed⟩ | hsame
  · rw [hok] at hfailed
    cases hfailed
  · rw [hsame, hok]

end Grammar

end EcmaScript
