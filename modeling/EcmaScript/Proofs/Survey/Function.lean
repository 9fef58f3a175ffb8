import EcmaScript.Proofs.Survey.Binding

/-!
Statement lists, functions and classes, surveyed.

The parameters and the body of a function are read in a context of their own. So it is in the tree:
what is read inside of a function stands in surroundings that begin with it.
-/

namespace EcmaScript

namespace Survey

open Parse

variable {σ α β : Type} {S : Survey σ} {g : Grammar σ} {around : List Node.Step} {low : Nat}
  [Surveyed S g]

/-! ## Statement lists -/

/-- A directive changes nothing but strictness. -/
theorem Does.beStrict {P : Lexer → Prop} :
    S.Does around P (setContext ({ · with strict := true })) fun _ => P :=
  fun _ hs hP => ⟨rfl, ⟨hs.grants.kept rfl, fun _ => rfl, hs.fine, hs.tracks⟩, hP⟩

theorem Does.statementListRound {done : Parse σ Bool} [Observes S done] (list : Grammar.ListRead) :
    S.Does around (S.Before around low (many .statement list.statements.reverse))
      (g.statementListRound done list) fun r lexer =>
        r.Holds (fun list => S.Before around low (many .statement list.statements.reverse) lexer)
          fun l => S.Before around low (many .statement l) lexer := by
  unfold Grammar.statementListRound
  refine .observe fun c => .ite (fun _ => ?_) fun _ => .step fun statement _ => .relax ?_
  · exact .pure fun _ h => h
  · have hlist : many .statement (statement :: list.statements).reverse =
        many .statement list.statements.reverse ++ one .statement statement := by
      rw [List.reverse_cons, many_append]
      rfl
    rw [← hlist]
    exact .ite (fun _ => .bind .beStrict fun _ => .pure fun _ h => h) fun _ => .pure fun _ h => h

theorem Does.statementList {done : Parse σ Bool} [Observes S done] :
    S.Does around (S.Before around low []) (g.statementList done) fun l =>
      S.Before around low (many .statement l) :=
  .loop Does.statementListRound fun _ h => h

theorem Gathers.blockRound :
    S.Gathers around low [] .statement (fun _ => True) g.blockRound := by
  intro statements
  unfold Grammar.blockRound
  refine .observe fun c => .ite (fun _ => .pure fun _ h => h) fun _ => ?_
  exact .item fun statement => .pure fun _ h => h.cons

namespace Yields

instance block : Yields S g.block (many .statement) fun _ => True where
  yields around low := by
    unfold Grammar.block
    refine .advance fun _ => .after (.gather .blockRound) fun statements _ => ?_
    exact .advance fun _ => .pure fun _ h => ⟨trivial, h⟩

instance functionBody : Yields S g.functionBody (many .statement) fun _ => True where
  yields around low := by
    unfold Grammar.functionBody
    refine .advance fun _ => .bind (.relax .statementList) fun body => ?_
    exact .advance fun _ => .pure fun _ h => ⟨trivial, h⟩

end Yields

/-! ## Parameters -/

theorem isParameterList_of_elements {params : List Pattern}
    (h : ∀ p ∈ params, p.isRest = false ∧ p.Binds) : IsParameterList params where
  rest_last p hp := (h p (List.dropLast_subset _ hp)).1
  binds p hp := (h p hp).2

theorem isParameterList_snoc {params : List Pattern}
    (h : ∀ p ∈ params, p.isRest = false ∧ p.Binds) {last : Pattern} (hlast : last.Binds) :
    IsParameterList (params ++ [last]) where
  rest_last p hp := by
    rw [List.dropLast_concat] at hp
    exact (h p hp).1
  binds p hp := by
    rcases List.mem_append.1 hp with hp | hp
    · exact (h p hp).2
    · rw [List.mem_singleton.1 hp]
      exact hlast

/-- Parameters that have been read as such. -/
structure IsFormalList (params : List Pattern) : Prop extends IsParameterList params where
  rests : ∀ p ∈ params, p.RestsPlain

theorem isFormalList_of_elements {params : List Pattern} (h : ∀ p ∈ params, p.IsElement) :
    IsFormalList params where
  toIsParameterList := isParameterList_of_elements fun p hp => ⟨(h p hp).not_rest, (h p hp).binds⟩
  rests p hp := (h p hp).rests

theorem isFormalList_snoc {params : List Pattern} (h : ∀ p ∈ params, p.IsElement)
    {last : Pattern} (hlast : last.IsLast) : IsFormalList (params ++ [last]) where
  toIsParameterList :=
    isParameterList_snoc (fun p hp => ⟨(h p hp).not_rest, (h p hp).binds⟩) hlast.binds
  rests := by
    refine List.forall_mem_append.2 ⟨fun p hp => (h p hp).rests, ?_⟩
    exact List.forall_mem_singleton.2 hlast.rests

theorem Does.formalParametersRound (params : List Pattern) :
    S.Does around (S.Gathered around low [] .pattern Pattern.IsElement params.reverse)
      (g.formalParametersRound params) fun r lexer =>
        r.Holds (fun params => S.Gathered around low [] .pattern Pattern.IsElement params.reverse
            lexer)
          (S.Made around low (fun params => many .pattern params.reverse)
            (fun params => IsFormalList params.reverse) · lexer) := by
  unfold Grammar.formalParametersRound
  refine .proceed fun c => .ite (fun _ => ?_) fun _ => ?_
  · exact .pure fun _ h => ⟨isFormalList_of_elements h.1, h.2⟩
  refine .observe fun c => .ite (fun _ => ?_) fun _ => ?_
  · refine .assume (fun _ h => h.1) fun hparams => .step fun last hlast => .advance fun _ => ?_
    refine .pure fun _ h => ?_
    have hlist := isFormalList_snoc hparams hlast
    rw [← List.reverse_cons] at hlist
    refine ⟨hlist, ?_⟩
    change S.Past around low (many .pattern (last :: params).reverse) _
    rw [List.reverse_cons, many_append]
    exact h
  · refine .item fun param => .proceed fun c => .ite (fun _ => ?_) fun _ => .proceed fun _ => ?_
    · exact .pure fun _ h => h.cons
    · exact .pure fun _ h => ⟨isFormalList_of_elements h.cons.1, h.cons.2⟩

instance Yields.formalParameters :
    Yields S g.formalParameters (many .pattern) IsFormalList where
  yields around low := by
    unfold Grammar.formalParameters
    refine .advance fun _ => .after (.loop Does.formalParametersRound fun _ h => h.gathered)
      fun params hparams => ?_
    exact .pure fun _ h => ⟨hparams, h⟩

/-! ## Functions -/

abbrev functionPart (f : Function) : List Node.Part :=
  [⟨some (.code (.function f.isAsync f.isGenerator)), .ordinary, .function f⟩]

/-- A function of the given kind, whose span begins at `start` and whose parts lie behind `low`. -/
structure IsFunction (S : Survey σ) (start : Position) (low : Nat) (isAsync isGenerator : Bool)
    (f : Function) : Prop where
  isAsync_eq : f.isAsync = isAsync
  isGenerator_eq : f.isGenerator = isGenerator
  start_eq : f.span.start = start
  inOrder : S.positioned → InOrder low (Node.function f).children f.span.stop.offset

/-- A function whose span begins at `start`, with its parts behind `low`. -/
theorem Does.functionRest {start : Position} (hstart : S.Exact start)
    (hlow : S.positioned → start.offset ≤ low) (isAsync isGenerator isMethod : Bool) :
    S.Does around (S.Before around low []) (g.functionRest start isAsync isGenerator isMethod)
      (S.Made around start.offset functionPart
        (S.IsFunction start low isAsync isGenerator)) := by
  let inner : List Node.Step := .code (.function isAsync isGenerator) :: around
  unfold Grammar.functionRest
  have hinside : S.Does inner (S.Before inner low []) (do
        let params ← g.formalParameters
        let body ← g.functionBody
        return (params, body))
      (S.Made inner low (fun read => many .pattern read.1 ++ many .statement read.2)
        fun read => IsFormalList read.1) := by
    refine .step fun params hparams => .step fun body _ => ?_
    exact .pure fun _ h => ⟨hparams, h⟩
  have hread := hinside.weaken fun lexer _ (h : S.Before around low [] lexer) =>
    ⟨allFormed_nil, h.inOrder⟩
  refine .after (.within (.function isAsync isGenerator isMethod) hread)
    fun (params, body) hparams => ?_
  refine .madeWith .ordinary (fun span => .function ⟨params, body, isAsync, isGenerator, span⟩) hstart
    (fun _ h => h.mono hlow) (fun _ _ => ⟨rfl, List.map_append, rfl, rfl,
      hparams.toIsParameterList, ⟨trivial, hparams.rests⟩, trivial, trivial, fun _ => trivial⟩)
    fun span => ?_
  refine .pure fun lexer ⟨hmade, hpast, hspan⟩ => ⟨⟨rfl, rfl, ?_, fun hpositioned => ?_⟩, ?_⟩
  · rw [hspan]
  · have hinOrder := hpast.inOrder hpositioned
    rw [List.map_append, map_node_plain, map_node_plain] at hinOrder
    rw [hspan]
    exact hinOrder
  · exact hmade.enclosed [.function ⟨params, body, isAsync, isGenerator, span⟩]

instance Yields.methodFunction (isAsync isGenerator : Bool) :
    Yields S (g.methodFunction isAsync isGenerator) functionPart
      fun f => f.isAsync = isAsync ∧ f.isGenerator = isGenerator where
  yields around low := by
    unfold Grammar.methodFunction
    refine .start fun start hstart => ?_
    refine (Does.functionRest hstart (fun _ => Nat.le_refl _) _ _ _).mono (fun _ _ h => h) ?_
    exact fun f _ _ ⟨hf, hpast⟩ => ⟨⟨hf.isAsync_eq, hf.isGenerator_eq⟩, hpast⟩

variable (S) in
/-- The name, if there is one, is that of a function that begins at `start` and whose parts lie behind
`low`. -/
structure NameRead (around : List Node.Step) (start : Position) (low : Nat) (name : Option String) :
    Prop where
  le : S.positioned → start.offset ≤ low
  bears : ∀ n ∈ name, S.Fits around n ∧ S.Assigns around n ∧
    (S.positioned → ∃ offset, start.offset ≤ offset ∧ offset + 1 ≤ low ∧
      S.Escapes around n offset)

/-- A function bears the name that has been read in front of it. -/
theorem NameRead.bears_function {start : Position} {name : String} {isAsync isGenerator : Bool}
    {f : Function} (h : S.NameRead around start low (some name))
    (hf : S.IsFunction start low isAsync isGenerator f) :
    S.Bears around name f.span (Node.function f).children ∧ S.Assigns around name := by
  obtain ⟨hfits, hassigns, hplace⟩ := h.bears name rfl
  refine ⟨⟨hfits, fun hpositioned => ?_⟩, hassigns⟩
  obtain ⟨offset, hstart, hlow, hescapes⟩ := hplace hpositioned
  rw [hf.start_eq]
  exact ⟨offset, hstart, (hf.inOrder hpositioned).mono hlow (Nat.le_refl _), hescapes⟩

/-- The name of a function. -/
theorem Does.functionName {start : Position} {q : String × Span → Parse σ α} {Q : α → Lexer → Prop}
    (hq : ∀ x low, S.NameRead around start low (some x.1) →
      S.Does around (S.Before around low []) (q x) Q) :
    S.Does around (S.Past around start.offset []) (g.bindingIdentifier >>= q) Q := by
  refine .step fun x _ => .pointwise fun lexer htracks h => ?_
  obtain ⟨⟨hfits, hplace⟩, hassigns⟩ := Past.bears [] h
  have hlow : S.NameRead around start lexer.nextStart (some x.1) := by
    refine ⟨fun hpositioned => ?_, ?_⟩
    · exact Nat.le_of_lt (Nat.lt_of_lt_of_le (h.less hpositioned) (htracks hpositioned).last_le_nextStart)
    · rintro _ ⟨⟩
      refine ⟨hfits, hassigns, fun hpositioned => ?_⟩
      obtain ⟨offset, hstart, hinOrder, hescapes⟩ := hplace hpositioned
      exact ⟨offset, hstart, Nat.le_trans hinOrder.le (htracks hpositioned).last_le_nextStart,
        hescapes⟩
  refine (hq x lexer.nextStart hlow).weaken ?_
  rintro _ _ rfl
  exact ⟨allFormed_nil, fun _ => Nat.le_refl _⟩

/-- A function expression takes the place of its function. -/
theorem Past.functionExpression (ps : List Node.Part) {usage : Node.Usage} {lexer : Lexer}
    {f : Function} (h : S.Past around low (ps ++ functionPart f) lexer) (name : Option String)
    (hproper : S.Proper around usage (.expression (.function name f))) :
    S.Past around low (ps ++ [.here usage (.expression (.function name f))]) lexer := by
  refine Past.same ps (.expression (.function name f)) h rfl rfl rfl rfl rfl rfl ?_
    ⟨trivial, trivial⟩ hproper
  change ∀ c ∈ [Node.function f], c.isOrdinary
  simp

/-- A function expression whose span begins at `start`. -/
theorem Does.functionExpression {start : Position} (hstart : S.Exact start) {isAsync : Bool}
    (hasync : isAsync = true → S.positioned → BeginsAsync S.source start.offset) :
    S.Does around (S.Before around start.offset []) (g.functionExpression start isAsync)
      (S.Made around start.offset (one .expression) Expression.IsOperand) := by
  unfold Grammar.functionExpression
  have hfunction (isGenerator : Bool) (low : Nat) (name : Option String)
      (hname : S.NameRead around start low name) :
      S.Does around (S.Before around low []) (do
        return .function name (← g.functionRest start isAsync isGenerator false))
        (S.Made around start.offset (one .expression) Expression.IsOperand) := by
    refine .after (.functionRest hstart hname.le _ _ _) fun f hf => .pure fun _ h => ⟨rfl, ?_⟩
    refine Past.functionExpression [] h name ⟨?_, trivial, fun hpositioned _ hf' => ?_⟩
    · cases name with
      | none => trivial
      | some name => exact hname.bears_function hf
    · rw [hf.start_eq]
      exact hasync (hf.isAsync_eq ▸ hf') hpositioned
  refine .advance fun _ => .proceed fun isGenerator => .observe fun c => .ite (fun _ => ?_) fun _ => ?_
  · refine .map (.map (.functionName fun x low hname => ?_))
    exact hfunction isGenerator low (some x.1) hname
  · refine (hfunction isGenerator start.offset none ⟨fun _ => Nat.le_refl _, nofun⟩).weaken ?_
    exact fun _ htracks h => h.before htracks

/-! ## Arrow functions -/

/-- The body of an arrow function, with the look at its first token. -/
theorem Does.inArrow (isAsync : Bool) {P : Lexer → Prop} {Q : α → Lexer → Prop}
    {body : Bool → Parse σ α}
    (h : S.Does (.code (.arrow isAsync) :: around) P (nextIs .lBrace >>= body) Q) :
    S.Does around P (do
      let before ← Parse.context
      setContext (Grammar.enterArrow isAsync)
      let isBlock ← nextIs .lBrace
      Parse.closing (leaving (Grammar.leaveArrow before)) (body isBlock)) Q := by
  intro s hs hP
  have hinside := h { s with context := Grammar.enterArrow isAsync s.context }
    (hs.enter (.arrow isAsync)) hP
  change Ends S.Refuses (nextIs .lBrace >>= fun isBlock =>
    Parse.closing (leaving (Grammar.leaveArrow s.context)) (body isBlock))
      { s with context := Grammar.enterArrow isAsync s.context } _
  generalize hstart : ({ s with context := Grammar.enterArrow isAsync s.context } : ParserState σ) =
    inside at hinside ⊢
  unfold Ends at hinside ⊢
  simp only [Bind.bind, EStateM.bind] at hinside ⊢
  cases hnext : (nextIs .lBrace : Parse σ Bool) inside with
  | error e s' =>
    rw [hnext] at hinside
    exact hinside
  | ok isBlock between =>
    rw [hnext] at hinside
    dsimp only at hinside ⊢
    subst hstart
    refine Ends.closing hinside (fun a s' hdone => ?_) fun d s' hrefused => ?_
    · obtain ⟨hkept, hs', hQ⟩ := hdone
      exact hs.ends_leaving (.arrow isAsync) hkept hs' hQ
    · exact Refuses.ends_behind hrefused _

theorem parts_arrow (params : List Pattern) (body : ArrowBody) (isAsync : Bool) (span : Span)
    (usage : Node.Usage) : Node.parts usage (.expression (.arrow params body isAsync span)) =
      many .pattern params ++ [⟨some (.code (.arrow isAsync)), .ordinary, .arrowBody body⟩] := by
  simp [Node.parts, plain, Node.enclosure?]

/-- The body of an arrow function, behind the look at its first token. -/
theorem Yields.arrowBody : Yields S (nextIs .lBrace >>= fun isBlock =>
    if isBlock then ArrowBody.block <$> g.functionBody else ArrowBody.expression <$> g.assignment)
    (one .arrowBody) fun _ => True where
  yields around low := by
    refine .observe fun isBlock => .ite (fun _ => ?_) fun _ => ?_
    · rw [map_eq_pure_bind]
      refine .step fun body _ => .pure fun _ h => ⟨trivial, ?_⟩
      refine Past.wrap [] (.arrowBody (.block body)) h rfl rfl rfl ?_
      change ∀ c ∈ body.map Node.statement, c.isOrdinary
      simp
    · rw [map_eq_pure_bind]
      refine .step fun value hvalue => .pure fun _ h => ⟨trivial, ?_⟩
      refine Past.wrap [] (.arrowBody (.expression value)) h rfl rfl rfl ?_
      change ∀ c ∈ [Node.expression value], c.isOrdinary
      simp [hvalue]

/-- An arrow function behind its parameters, which lie behind `low`. -/
theorem Does.arrowFunction {start : Position} (hstart : S.Exact start) {params : List Pattern}
    (hparams : IsParameterList params) (isAsync : Bool)
    (hrests : isAsync = false → ∀ p ∈ params, p.isDefaultedRest = false)
    (hlow : S.positioned → start.offset ≤ low)
    (hasync : isAsync = true → S.positioned → BeginsAsync S.source start.offset ∨
      ∃ offset, start.offset < offset ∧ StandsAt S.source offset "(" ∧ offset + 1 ≤ low) :
    S.Does around (S.Past around low (many .pattern params))
      (g.arrowFunction start params isAsync)
      (S.Made around start.offset (one .expression) Expression.IsOperand) := by
  have hbinds (body : ArrowBody) (span : Span) :
      (Node.expression (.arrow params body isAsync span)).BindsPlainly := by
    cases isAsync with
    | true => trivial
    | false => exact hrests rfl
  have hend (body : ArrowBody) : S.Does around
      (S.Past around low
        (many .pattern params ++ [⟨some (.code (.arrow isAsync)), .ordinary, .arrowBody body⟩]))
      (do return .arrow params body isAsync (← spanFrom start))
      (S.Made around start.offset (one .expression) Expression.IsOperand) := by
    refine .doneWith hstart (fun _ h => h.mono hlow) (fun lexer h => ?_) fun _ => rfl
    refine ⟨rfl, parts_arrow params body isAsync _ _, rfl, rfl, hparams, ⟨trivial, hbinds body _⟩,
      trivial, trivial, fun hpositioned => ?_⟩
    cases isAsync with
    | false => trivial
    | true =>
      refine (hasync rfl hpositioned).imp id ?_
      rintro ⟨offset, hbehind, hopens, hle⟩
      have hinOrder := h.inOrder hpositioned
      rw [List.map_append, map_node_plain] at hinOrder
      exact ⟨offset, hbehind, hopens, hinOrder.mono hle (Nat.le_refl _)⟩
  unfold Grammar.arrowFunction
  refine .advance fun _ => .pointwise fun lexer htracks h => ?_
  -- The body is read behind the parameters, in surroundings of its own.
  let inner : List Node.Step := .code (.arrow isAsync) :: around
  have hempty : ∀ l, (S.positioned → l.Tracks S.source) → lexer = l →
      S.Before inner lexer.nextStart [] l := by
    rintro _ _ rfl
    exact ⟨allFormed_nil, fun _ => Nat.le_refl _⟩
  have hbody := (Yields.arrowBody (S := S) (g := g)).yields inner lexer.nextStart
  have hread := after (inArrow isAsync (hbody.weaken hempty)) fun body _ =>
    (hend body).weaken fun _ _ hpast =>
      Past.append (h.before htracks).fills (hpast.enclosed [.arrowBody body])
  simpa only [bind_assoc] using hread

end Survey

end EcmaScript
