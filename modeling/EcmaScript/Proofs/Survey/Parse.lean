import EcmaScript.Parser
import EcmaScript.Proofs.ClassScope.Tables
import EcmaScript.Proofs.PrivateNames
import EcmaScript.Proofs.Survey.Statement

/-!
Whole parses, surveyed.

The grammar yields its parts at every depth, so a parse from the start of a source ends with a tree
that is formed or fails at an exact position. Any hooks do where positions are not followed. Where
they are, the hooks must not make up positions of their own: the silent hooks report none, and the
private-name hooks report those that they were given, some of them later.
-/

namespace EcmaScript

theorem exists_ok_of_isOk {ε α : Type} {result : Except ε α} (h : result.isOk = true) :
    ∃ a, result = .ok a := by
  cases result with
  | error e => cases h
  | ok a => exact ⟨a, rfl⟩

namespace Survey

variable {σ α : Type} {S : Survey σ}

/-! ## The grammar -/

/-- Beyond the last depth no rule succeeds. -/
theorem Yields.exhausted {parts : α → List Node.Part} {fit : α → Prop} :
    Yields S (throw .exhausted : Parse σ α) parts fit :=
  ⟨fun _ _ _ _ _ _ => nofun⟩

/-- The rules yield their parts at every depth. -/
theorem surveyed_ofDepth {hooks : Hooks σ} (hsuits : S.Suits hooks) {options : Options}
    (hgoal : options.goal = S.goal) (bound depth : Nat) :
    Surveyed S (Grammar.ofDepth options hooks bound depth) := by
  -- The rules of one depth call those of the depth below, so each rule needs only that these yield
  -- their parts; at depth zero there is nothing to show of a rule that never succeeds.
  induction depth with
  | zero =>
    exact ⟨hsuits, hgoal, .exhausted, .exhausted, fun _ => .exhausted, .exhausted, .exhausted, .exhausted,
      .exhausted⟩
  | succ depth ih =>
    exact ⟨hsuits, hgoal, Yields.statementRule (g := Grammar.ofDepth options hooks bound depth),
      Yields.assignmentRule (g := Grammar.ofDepth options hooks bound depth),
      Yields.binaryRule (g := Grammar.ofDepth options hooks bound depth),
      Yields.unaryRule (g := Grammar.ofDepth options hooks bound depth),
      Yields.leftHandSideRule (g := Grammar.ofDepth options hooks bound depth),
      Yields.newExpressionRule (g := Grammar.ofDepth options hooks bound depth),
      Yields.bindingTargetRule (g := Grammar.ofDepth options hooks bound depth)⟩

/-- What a parse of the source may end with. -/
def Returns (S : Survey σ) (result : Except Failure Program) : Prop :=
  match result with
  | .ok p => S.Formed [] (.program p)
  | .error e => S.positioned → e.IsExact S.source

/-- A parse from the start of the source ends with a tree that is formed, or fails at an exact
position. -/
theorem returns_parseWith (source : String) {options : Options} (hgoal : options.goal = S.goal)
    {hooks : Hooks σ} {initial : σ} (hsuits : S.Suits hooks) (hinitial : S.fine initial)
    (htracks : S.positioned → (Lexer.ofSource source hooks.tokenRules).Tracks S.source) :
    S.Returns (parseWith source options hooks initial) := by
  let parser := Parser.ofSource source options hooks initial
  have hsurveyed : Surveyed S parser.grammar := surveyed_ofDepth hsuits hgoal _ _
  have hstrict (h : S.Strict []) : parser.state.context.strict = true := by
    obtain hmodule | hclass := h
    · change (options.goal == .module) = true
      rw [hgoal, hmodule]
      rfl
    · cases hclass
  have hstands : S.Stands [] parser.state := ⟨.initial _, hstrict, hinitial, htracks⟩
  have hends := Does.program (g := parser.grammar) parser.state hstands
    ⟨allFormed_nil, fun _ => Nat.zero_le _⟩
  change S.Returns parser.parse.1
  unfold Parser.parse
  cases hresult : parser.grammar.program parser.state with
  | ok p s => exact (hends.of_ok hresult).2.2
  | error e s => exact hends.of_error hresult

/-- All nodes of a program that is returned are lawful behind the steps to them. -/
theorem Returns.occurs {p : Program} (h : S.Returns (.ok p)) {path : List Node}
    {steps : List Node.Step} {usage : Node.Usage} {n : Node}
    (hn : Node.OccursAs (.program p) path steps usage n) : S.Lawful steps usage n := by
  have hlawful := (FormedAs.occurs h hn).lawful
  rwa [List.append_nil] at hlawful

/-! ## Hooks -/

/-- Sources read without regard to positions. -/
def unpositioned (goal : Goal) : Survey σ where
  source := []
  goal := goal
  positioned := False
  fine := fun _ => True

/-- Where positions are not followed, all hooks suit. -/
theorem suits_unpositioned (goal : Goal) (hooks : Hooks σ) :
    (unpositioned goal : Survey σ).Suits hooks := by
  have hanswers {β : Type} (action : Hook σ β) : (unpositioned goal : Survey σ).Answers action := by
    intro s _
    cases action s with
    | ok _ _ => trivial
    | error d _ => exact fun hpositioned => hpositioned.elim
  exact ⟨fun _ _ => trivial, fun _ _ => trivial, hanswers _, fun _ _ _ _ _ _ => hanswers _,
    fun _ _ _ => trivial, fun _ _ _ => trivial, fun _ _ _ => hanswers _, fun _ _ => hanswers _,
    fun _ _ _ => hanswers _⟩

/-- Any parse ends with a tree that is formed, positions apart. -/
theorem returns_unpositioned (source : String) (options : Options) (hooks : Hooks σ)
    (initial : σ) :
    (unpositioned options.goal : Survey σ).Returns (parseWith source options hooks initial) :=
  returns_parseWith source rfl (suits_unpositioned options.goal hooks) trivial False.elim

def stateless (source : String) (goal : Goal) : Survey Unit where
  source := source.toList
  goal := goal
  positioned := True
  fine := fun _ => True

/-- Hooks that add nothing report no position. -/
theorem suits_silent (source : String) (goal : Goal) (rules : List TokenRule) :
    (stateless source goal).Suits (.silent rules) :=
  ⟨fun _ _ => trivial, fun _ _ => trivial, fun _ _ => trivial, fun _ _ _ _ _ _ _ _ => trivial,
    fun _ _ _ => trivial, fun _ _ _ => trivial, fun _ _ _ _ _ => trivial, fun _ _ _ _ => trivial,
    fun _ _ _ _ _ => trivial⟩

theorem returns_parsePlain (source : String) (options : Options) :
    (stateless source options.goal).Returns (parsePlain source options) :=
  returns_parseWith source rfl (suits_silent source options.goal []) trivial fun _ =>
    Lexer.tracks_ofSource source nofun nofun nofun

end Survey

/-! ## Private names -/

/-- The uses that are still pending in the scope are at exact positions. -/
def ClassScope.IsExact (source : List Char) (scope : ClassScope) : Prop :=
  ∀ entry ∈ scope.pending, entry.2.IsExact source

/-- The uses that are still pending in any scope are at exact positions. -/
def ClassScopes.IsExact (source : List Char) (s : ClassScopes) : Prop :=
  ∀ scope ∈ s.scopes, scope.IsExact source

namespace ClassScope.IsExact

variable {source : List Char} {scope inner : ClassScope}

theorem await (h : scope.IsExact source) (name : String) {position : Position}
    (hposition : position.IsExact source) : (scope.await name position).IsExact source := by
  intro entry hentry
  rcases mem_putNew.1 hentry with hold | ⟨-, rfl⟩
  · exact h entry hold
  · exact hposition

theorem bind (h : scope.IsExact source) (name : String) (binding : Binding) :
    (scope.bind name binding).IsExact source :=
  fun entry hentry => h entry (mem_remove.1 hentry).1

/-- What is pending moves outward with its positions. -/
theorem inherit (h : scope.IsExact source) (hinner : inner.IsExact source) :
    (scope.inherit inner).IsExact source := by
  obtain ⟨parent, bound, pending⟩ := inner
  induction pending generalizing scope with
  | nil => exact h
  | cons entry entries ih =>
    have hpending := List.forall_mem_cons.1 hinner
    rw [inherit_cons]
    exact ih (h.await entry.1 hpending.1) hpending.2

end ClassScope.IsExact

namespace ClassScopes.IsExact

variable {source : List Char} {s : ClassScopes}

theorem push (h : s.IsExact source) : s.push.IsExact source :=
  List.forall_mem_cons.2 ⟨nofun, h⟩

theorem reference (h : s.IsExact source) (name : String) {position : Position}
    (hposition : position.IsExact source) :
    (s.reference name position).2.IsExact source := by
  obtain ⟨scopes⟩ := s
  unfold ClassScopes.reference
  split
  · exact h
  · cases scopes with
    | nil => exact h
    | cons scope outer =>
      have hscopes := List.forall_mem_cons.1 h
      exact List.forall_mem_cons.2 ⟨hscopes.1.await name hposition, hscopes.2⟩

theorem declare (h : s.IsExact source) (name : String) (kind : MemberKind) :
    match ClassScopes.declare name kind s with
    | .ok _ s' => s'.IsExact source
    | .error _ _ => True := by
  obtain ⟨scopes⟩ := s
  cases scopes with
  | nil => exact h
  | cons scope outer =>
    have hscopes := List.forall_mem_cons.1 h
    unfold ClassScopes.declare
    dsimp only
    cases scope.declared? name kind with
    | none => trivial
    | some binding => exact List.forall_mem_cons.2 ⟨hscopes.1.bind name binding, hscopes.2⟩

/-- What is undeclared when the outermost scope closes is reported at one of its uses. -/
theorem pop (h : s.IsExact source) :
    match ClassScopes.pop s with
    | .ok _ s' => s'.IsExact source
    | .error d _ => d.IsExact source := by
  obtain ⟨scopes⟩ := s
  rcases scopes with _ | ⟨inner, _ | ⟨outer, others⟩⟩
  · exact h
  · unfold ClassScopes.pop
    dsimp only
    cases hearliest : ClassScope.earliest? (inner.pending.map (·.2)) with
    | none => exact nofun
    | some position =>
      obtain ⟨entry, hentry, rfl⟩ := List.mem_map.1 (ClassScope.earliest?_spec hearliest).1
      exact Diagnostic.isExact_located _ (h inner List.mem_cons_self entry hentry)
  · have hscopes := List.forall_mem_cons.1 h
    have houter := List.forall_mem_cons.1 hscopes.2
    exact List.forall_mem_cons.2 ⟨houter.1.inherit hscopes.1, houter.2⟩

end ClassScopes.IsExact

namespace PrivateNames

theorem isExact_reservedError {source : List Char} {name : PrivateName} {options : Options}
    {d : Diagnostic} (hname : name.span.start.IsExact source)
    (h : reservedError? name options = some d) : d.IsExact source := by
  unfold reservedError? at h
  split at h
  · obtain ⟨rejection, -, rfl⟩ := Option.map_eq_some_iff.1 h
    exact Diagnostic.isExact_located _ hname
  · cases h

end PrivateNames

namespace Survey

/-- Sources read with the private-name hooks, which keep the positions of names that are not yet
declared. -/
def namesPrivate (source : String) (goal : Goal) : Survey PrivateNames where
  source := source.toList
  goal := goal
  positioned := True
  fine := fun s => s.scopes.IsExact source.toList

variable {source : String} {goal : Goal}

theorem answers_declareMember {name : PrivateName} (kind : MemberKind) {start : Position}
    (options : Options) (hname : (namesPrivate source goal).Exact name.span.start)
    (hstart : (namesPrivate source goal).Exact start) :
    (namesPrivate source goal).Answers (PrivateNames.declareMember name kind start options) := by
  intro s hs
  rw [PrivateNames.declareMember_eq]
  split
  · exact hs
  cases hreserved : PrivateNames.reservedError? name options with
  | some d => exact fun _ => PrivateNames.isExact_reservedError (hname trivial) hreserved
  | none =>
    dsimp only
    split
    · exact fun _ => Diagnostic.isExact_located _ (hstart trivial)
    · have hdeclare := ClassScopes.IsExact.declare hs name.name kind
      cases hresult : ClassScopes.declare name.name kind s.scopes with
      | ok _ scopes =>
        rw [hresult] at hdeclare
        exact hdeclare
      | error violation scopes =>
        exact fun _ => Diagnostic.isExact_located _ (hstart trivial)

theorem answers_referenceName {name : PrivateName} (options : Options)
    (hname : (namesPrivate source goal).Exact name.span.start) :
    (namesPrivate source goal).Answers (PrivateNames.referenceName name options) := by
  intro s hs
  rw [PrivateNames.referenceName_eq]
  split
  · exact hs
  cases hreserved : PrivateNames.reservedError? name options with
  | some d => exact fun _ => PrivateNames.isExact_reservedError (hname trivial) hreserved
  | none => exact ClassScopes.IsExact.reference hs name.name (hname trivial)

theorem answers_exitClass : (namesPrivate source goal).Answers PrivateNames.exitClass := by
  intro s hs
  have hpop := ClassScopes.IsExact.pop hs
  unfold PrivateNames.exitClass
  cases hresult : ClassScopes.pop s.scopes with
  | ok _ scopes =>
    rw [hresult] at hpop
    exact hpop
  | error d scopes =>
    rw [hresult] at hpop
    exact fun _ => hpop

/-- The private-name hooks report positions that they were given. -/
theorem suits_privateNames (source : String) (goal : Goal) :
    (namesPrivate source goal).Suits .privateNames where
  reset _ _ := nofun
  enterClass _ hs := ClassScopes.IsExact.push hs
  exitClass := answers_exitClass
  declareMember _ kind _ options := answers_declareMember kind options
  enterMethod _ _ hs := hs
  exitMethod _ _ hs := hs
  referenceName _ options := answers_referenceName options
  afterUnary e he s hs := by
    change (namesPrivate source goal).Answer (PrivateNames.afterUnary e s)
    rw [PrivateNames.afterUnary_eq]
    split
    · exact fun _ => Diagnostic.isExact_located _ (he trivial)
    · exact hs
  afterAtom e token he s hs := by
    change (namesPrivate source goal).Answer (PrivateNames.afterAtom e token s)
    rw [PrivateNames.afterAtom_eq]
    split
    · exact fun _ => Diagnostic.isExact_located _ (he trivial)
    · exact hs

theorem returns_parse (source : String) (options : Options) :
    (namesPrivate source options.goal).Returns (parse source options) := by
  refine returns_parseWith source rfl (suits_privateNames source options.goal) nofun fun _ => ?_
  exact Lexer.tracks_ofSource source (List.forall_mem_singleton.2 TokenRule.advances_privateName)
    (List.forall_mem_singleton.2 (TokenRule.isExact_privateName _))
    (List.forall_mem_singleton.2 TokenRule.isWordless_privateName)

end Survey

end EcmaScript
