import EcmaScript.Proofs.Survey.Parse
import EcmaScript.Proofs.Termination

/-!
What holds of every tree that a parse returns.

Whatever the hooks do, a node stands where the tree around it allows it, and what is not an ordinary
expression, key or pattern stands where one of its kind may; what is assigned to can be assigned to.
With hooks that make up no positions of their own, the spans lie like the tree, and all positions
belong to their offsets, those of errors included.
-/

namespace EcmaScript

variable {σ : Type}

/-- All nodes of a program that is returned are well formed in their surroundings. -/
theorem Survey.Returns.lawful {S : Survey σ} {p : Program} (h : S.Returns (.ok p))
    {path : List Node} {n : Node} (hn : Node.Occurs (.program p) path n) :
    S.WellFormed (Node.surroundings path n) n := by
  obtain ⟨steps, usage, hn⟩ := hn.as
  rw [← hn.enclosures_eq]
  exact (h.occurs hn).toWellFormed

/-! ## Surroundings -/

/-- In every program that is returned, `return`, jumps without a label, `yield`, `await` and `super`
stand only where the tree around them allows it. -/
theorem parse_isAllowed (source : String) (options : Options) (hooks : Hooks σ) (initial : σ)
    (p : Program) (h : parseWith source options hooks initial = .ok p) (path : List Node) (n : Node)
    (hn : Node.Occurs (.program p) path n) : n.isAllowedIn (Node.surroundings path n) := by
  have hreturns := Survey.returns_unpositioned source options hooks initial
  rw [h] at hreturns
  exact (hreturns.lawful hn).allowed

/-- A `break` in a loop that is in the body of an arrow function. -/
theorem parse_isAllowed_of_break :
    ∃ p path n, parse "x => \x7b for (;;) break \x7d" {} = .ok p ∧
      Node.Occurs (.program p) path n ∧ n.isAllowedIn [] = false ∧
      n.isAllowedIn (Node.surroundings path n) := by
  -- The statement, the arrow function, its body, the loop and the `break`.
  have hbreak : (parse "x => \x7b for (;;) break \x7d" {}).toOption.any (fun p =>
      (Node.program p).children.flatMap Node.children |>.flatMap Node.children
        |>.flatMap Node.children |>.flatMap Node.children
        |>.any fun n => !n.isAllowedIn []) = true := by
    decide +kernel
  cases hparse : parse "x => \x7b for (;;) break \x7d" {} with
  | error e =>
    rw [hparse] at hbreak
    cases hbreak
  | ok p =>
    rw [hparse] at hbreak
    simp only [Except.toOption, Option.any_some, List.any_eq_true, List.mem_flatMap,
      Bool.not_eq_eq_eq_not, Bool.not_true] at hbreak
    obtain ⟨n, ⟨loop, ⟨body, ⟨arrow, ⟨statement, hstatement, harrow⟩, hbody⟩, hloop⟩, hn⟩,
      hrestricted⟩ := hbreak
    have hoccurs := ((((Node.Occurs.here.child hstatement).child harrow).child hbody).child
      hloop).child hn
    exact ⟨p, _, n, rfl, hoccurs, hrestricted,
      parse_isAllowed _ _ .privateNames {} p hparse _ n hoccurs⟩

/-! ## Positions -/

/-- The positions that the result of a parse shows are exact: both ends of the spans of a tree, or
that of an error, which has one. A parse that is broken off shows none. -/
def ShowsExact (source : List Char) : Except Failure Program → Prop
  | .ok p => ∀ path n span, Node.Occurs (.program p) path n → n.span? = some span →
      span.start.IsExact source ∧ span.stop.IsExact source
  | .error (.error d) => ∃ position, d.position = some position ∧ position.IsExact source
  | .error .overrun => True
  | .error .exhausted => False

/-- A result shows exact positions if positions are followed and the source is not given up. -/
theorem Survey.Returns.showsExact {S : Survey σ} (hpositioned : S.positioned)
    {result : Except Failure Program} (h : S.Returns result)
    (hends : result ≠ .error .exhausted) : ShowsExact S.source result := by
  rcases result with (d | _ | _) | p
  · exact h hpositioned d rfl
  · trivial
  · exact hends rfl
  · intro path n span hn hspan
    have hexact := (h.lawful hn).exact span hspan
    exact ⟨hexact.1 hpositioned, hexact.2 hpositioned⟩

/-- A parse from the start of a source does not end for want of steps. -/
theorem ends_parseWith (source : String) (options : Options) (hooks : Hooks σ) (initial : σ)
    (hrules : ∀ rule ∈ hooks.tokenRules, rule.Advances) :
    parseWith source options hooks initial ≠ .error .exhausted :=
  ((Parser.ofSource source options hooks initial).ends_parse
    (Lexer.inSource_ofSource source hrules)).2

/-- Every position that a parse shows belongs to its offset: its line and column are those that are
reached by reading the source up to there. -/
theorem parse_positions_exact (source : String) (options : Options) :
    ShowsExact source.toList (parsePlain source options) ∧
      ShowsExact source.toList (parse source options) := by
  constructor
  · exact (Survey.returns_parsePlain source options).showsExact trivial
      (ends_parseWith source options (.silent []) () nofun)
  · exact (Survey.returns_parse source options).showsExact trivial
      (ends_parseWith source options .privateNames {}
        (List.forall_mem_singleton.2 TokenRule.advances_privateName))

/-! ## Spans -/

/-- The spans of the program lie like its tree. -/
structure Program.IsLaidOut (p : Program) : Prop where
  /-- No span is empty, that of the program apart. -/
  nonempty : ∀ path n span, Node.Occurs (.program p) path n → n.isProgram = false →
    n.span? = some span → span.start.offset < span.stop.offset
  /-- A span lies within the nearest span around it. -/
  within : ∀ path n span outer, Node.Occurs (.program p) path n → n.span? = some span →
    path.findSome? Node.span? = some outer →
      outer.start.offset ≤ span.start.offset ∧ span.stop.offset ≤ outer.stop.offset
  /-- Children stand one behind the other. -/
  inOrder : ∀ path n, Node.Occurs (.program p) path n → n.isShorthand = false →
    n.children.Pairwise Node.Precedes
  /-- The key and the value of a shorthand property begin together. -/
  shorthand : ∀ path n, Node.Occurs (.program p) path n → n.isShorthand = true →
    ∀ c ∈ n.children, ∀ d ∈ n.children, c.span?.map (·.start) = d.span?.map (·.start)

/-- Nodes that are laid out one by one are laid out as a program. -/
theorem Survey.Returns.isLaidOut {S : Survey σ} (hpositioned : S.positioned) {p : Program}
    (h : S.Returns (.ok p)) : p.IsLaidOut := by
  have hlaid : ∀ path n, Node.Occurs (.program p) path n → n.IsLaidOut :=
    fun path n hn => (h.lawful hn).laidOut hpositioned
  have harranged (path : List Node) (n : Node) (hn : Node.Occurs (.program p) path n) :
      ∃ low high, n.ArrangedIn low high := by
    have hn := hlaid path n hn
    unfold Node.IsLaidOut at hn
    split at hn
    · exact ⟨_, _, hn⟩
    · exact hn
  refine ⟨?_, ?_, ?_, ?_⟩
  · intro path n span hn hprogram
    exact (h.lawful hn).nonempty hpositioned hprogram span
  · intro path n span outer hn hspan houter
    have hwithin := Node.extents_liesIn_outer hlaid hn houter span
      (by rw [Node.extents_of_span hspan]; exact List.mem_singleton_self span)
    exact ⟨hwithin.low_le, hwithin.le_high⟩
  · intro path n hn hshorthand
    obtain ⟨low, high, hchildren⟩ := harranged path n hn
    exact (hchildren.inOrder hshorthand).pairwise
  · intro path n hn hshorthand
    obtain ⟨low, high, hchildren⟩ := harranged path n hn
    exact hchildren.same_start hshorthand

/-- In every program that is returned, the spans lie like the tree. -/
theorem parse_isLaidOut (source : String) (options : Options) (p : Program)
    (h : parsePlain source options = .ok p ∨ parse source options = .ok p) : p.IsLaidOut := by
  rcases h with h | h
  · have hreturns := Survey.returns_parsePlain source options
    rw [h] at hreturns
    exact hreturns.isLaidOut trivial
  · have hreturns := Survey.returns_parse source options
    rw [h] at hreturns
    exact hreturns.isLaidOut trivial

/-- Comments and line terminators between the parts, a sequence in parentheses, a shorthand property
with a default value that is re-read as a pattern, and a template. -/
theorem parse_isLaidOut_of_reread :
    ∃ p, parse "(a /* b */,\n \x7b c = 1 \x7d = `$\x7b d \x7d`) // e" {} = .ok p ∧
      p.IsLaidOut := by
  have hok : (parse "(a /* b */,\n \x7b c = 1 \x7d = `$\x7b d \x7d`) // e" {}).isOk = true := by
    decide +kernel
  cases hparse : parse "(a /* b */,\n \x7b c = 1 \x7d = `$\x7b d \x7d`) // e" {} with
  | error e =>
    rw [hparse] at hok
    cases hok
  | ok p => exact ⟨p, rfl, parse_isLaidOut _ _ p (.inr hparse)⟩

/-! ## Shapes -/

/-- What could stand in more places of the tree than it may, stands only where it may. -/
structure Program.IsShaped (p : Program) : Prop where
  /-- The children of every node are such as may stand in their places. -/
  nodes : ∀ path n, Node.Occurs (.program p) path n → n.IsShaped
  /-- Private names, `super`, spreads and rest elements stand in places of their own. -/
  places : ∀ path n, Node.Occurs (.program p) path n → ∀ c ∈ n.children, c.isOrdinary ∨ n.Place c
  /-- A member expression is a pattern only as a part of a pattern that is assigned to. -/
  members : ∀ path e, Node.Occurs (.program p) path (.pattern (.member e)) →
    (path.dropWhile Node.isPatternPart).head?.any Node.assignsPattern
  /-- What has a default value neither has another one nor is a rest element. -/
  defaults : ∀ path target default span,
    Node.Occurs (.program p) path (.pattern (.withDefault target default span)) →
      target.isDefault = false ∧ target.isRest = false

/-- In every program that is returned, private names, `super`, spreads, rest elements, default
values and member expressions stand only where they may. -/
theorem parse_isShaped (source : String) (options : Options) (hooks : Hooks σ) (initial : σ)
    (p : Program) (h : parseWith source options hooks initial = .ok p) : p.IsShaped := by
  have hreturns := Survey.returns_unpositioned source options hooks initial
  rw [h] at hreturns
  have hnodes : ∀ path n, Node.Occurs (.program p) path n → n.IsShaped :=
    fun path n hn => (hreturns.lawful hn).shaped
  refine ⟨hnodes, fun path n hn c hc => (hnodes path n hn).place hc, ?_, ?_⟩
  · intro path e he
    exact Node.assigned_of_member rfl hnodes he
  · intro path target default span htarget
    have hshaped := hnodes path _ htarget
    exact ⟨hshaped.2.1, hshaped.1⟩

/-- Private names, `super`, spreads, rest elements and a member expression in a pattern. -/
theorem parse_isShaped_of_special :
    ∃ p, parse "class A \x7b #b; c(...d) \x7b [this.#b = 1, ...d] = super.c(...d) \x7d \x7d" {} =
      .ok p ∧ p.IsShaped := by
  have hok : (parse "class A \x7b #b; c(...d) \x7b [this.#b = 1, ...d] = super.c(...d) \x7d \x7d"
      {}).isOk = true := by
    decide +kernel
  cases hparse : parse
      "class A \x7b #b; c(...d) \x7b [this.#b = 1, ...d] = super.c(...d) \x7d \x7d" {} with
  | error e =>
    rw [hparse] at hok
    cases hok
  | ok p => exact ⟨p, rfl, parse_isShaped _ _ .privateNames {} p hparse⟩

/-! ## Targets -/

/-- What the program assigns to can be assigned to. -/
structure Program.AssignsProperly (p : Program) : Prop where
  /-- The target of an assignment that is no pattern. -/
  targets : ∀ path e, Node.Occurs (.program p) path (.assignmentTarget (.simple e)) → e.IsAssignable
  /-- The operand of `++` and `--`. -/
  updates : ∀ path operator inFront e span,
    Node.Occurs (.program p) path (.expression (.update operator inFront e span)) → e.IsAssignable
  /-- What a loop assigns to, if it is no pattern. -/
  loops : ∀ path e, Node.Occurs (.program p) path (.forTarget (.expression e)) → e.IsAssignable
  /-- The member accesses in patterns. -/
  members : ∀ path e, Node.Occurs (.program p) path (.pattern (.member e)) →
    e.isMember ∧ e.IsAssignable
  /-- Only `=` assigns to a pattern. -/
  patterns : ∀ path operator target value span,
    Node.Occurs (.program p) path
      (.expression (.assignment operator (.pattern target) value span)) → operator = .assign

/-- In every program that is returned, what is assigned to is a name or a member access with no
optional link along its chain, and only `=` assigns to a pattern. -/
theorem parse_assignsProperly (source : String) (options : Options) (hooks : Hooks σ) (initial : σ)
    (p : Program) (h : parseWith source options hooks initial = .ok p) : p.AssignsProperly := by
  have hreturns := Survey.returns_unpositioned source options hooks initial
  rw [h] at hreturns
  have hassigns (path : List Node) (n : Node) (hn : Node.Occurs (.program p) path n) :
      n.AssignsProperly := (hreturns.lawful hn).settable.assigns
  exact ⟨fun path e he => hassigns path _ he,
    fun path operator inFront e span he => hassigns path _ he,
    fun path e he => hassigns path _ he, fun path e he => hassigns path _ he,
    fun path operator target value span ht => hassigns path _ ht⟩

/-- A shorthand property with a default value, a member access behind an optional chain in brackets,
a loop and updates. -/
theorem parse_assignsProperly_of_members :
    ∃ p, parse "[a[b?.c], \x7b d = 1 \x7d] = e; for (f().g of h) i.j++; --k; this.l **= 2" {} =
      .ok p ∧ p.AssignsProperly := by
  have hok : (parse "[a[b?.c], \x7b d = 1 \x7d] = e; for (f().g of h) i.j++; --k; this.l **= 2"
      {}).isOk = true := by
    decide +kernel
  cases hparse : parse
      "[a[b?.c], \x7b d = 1 \x7d] = e; for (f().g of h) i.j++; --k; this.l **= 2" {} with
  | error e =>
    rw [hparse] at hok
    cases hok
  | ok p => exact ⟨p, rfl, parse_assignsProperly _ _ .privateNames {} p hparse⟩

end EcmaScript
