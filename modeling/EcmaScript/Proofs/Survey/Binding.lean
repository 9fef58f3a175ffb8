import EcmaScript.Proofs.Survey.Parts

/-!
Names, keys and binding patterns, surveyed.

The rules that recur are taken to yield their parts; `Surveyed` lists them.
-/

namespace EcmaScript

abbrev Expression.IsOperand (e : Expression) : Prop := e.role = .operand

namespace Pattern

/-- The pattern has names as its leaves, and its rest elements have no default values. -/
structure IsPlain (p : Pattern) : Prop where
  binds : p.Binds
  rests : p.RestsPlain

theorem IsPlain.name (name : String) (span : Span) : (identifier name span).IsPlain :=
  ⟨.identifier name span, .identifier name span⟩

theorem IsPlain.withDefault {target : Pattern} (default : Expression) (span : Span)
    (h : target.IsPlain) : (withDefault target default span).IsPlain :=
  ⟨.withDefault default span h.binds, .withDefault default span h.rests⟩

/-- The pattern may be an element of a pattern or a parameter that is not the last one. -/
structure IsElement (p : Pattern) : Prop extends p.IsPlain where
  not_rest : p.isRest = false

/-- The pattern may be given a default value. -/
structure IsTarget (p : Pattern) : Prop extends p.IsElement where
  not_default : p.isDefault = false

structure IsLast (p : Pattern) : Prop extends p.IsPlain where
  rest : p.isRest

end Pattern

namespace Survey

variable {σ α β : Type}

/-- The hooks and the goal suit the survey, and the rules that recur yield their parts. -/
class Surveyed (S : Survey σ) (g : Grammar σ) : Prop where
  hooks : S.Suits g.hooks
  goal : g.options.goal = S.goal
  statement : Yields S g.statement (one .statement) fun _ => True
  assignment : Yields S g.assignment (one .expression) Expression.IsOperand
  binary : ∀ least, Yields S (g.binary least) (one .expression) Expression.IsOperand
  unary : Yields S g.unary (one .expression) Expression.IsOperand
  leftHandSide : Yields S g.leftHandSide (one .expression) Expression.IsOperand
  newExpression : Yields S g.newExpression (one .expression) Expression.IsOperand
  bindingTarget : Yields S g.bindingTarget (one .pattern) Pattern.IsTarget

attribute [instance] Surveyed.statement Surveyed.assignment Surveyed.binary Surveyed.unary
  Surveyed.leftHandSide Surveyed.newExpression Surveyed.bindingTarget

open Parse

variable {S : Survey σ} {g : Grammar σ} {around : List Node.Step}

/-! ## Names and keys -/

abbrev nameNode (x : String × Span) : Node := .expression (.identifier x.1 x.2)

abbrev patternNode (x : String × Span) : Node := .pattern (.identifier x.1 x.2)

/-- A word that is read as a token of its own is escaped where the name is that of an operator. -/
theorem escapes_of_identifier {name : String} {escaped : Bool} {start : Position}
    (hwritten : S.positioned → ∃ stop,
      (Token.identifier name escaped).IsWritten S.source start.offset stop) :
    S.Escapes around name start.offset := by
  intro hpositioned hoperator
  obtain ⟨stop, hwritten⟩ := hwritten hpositioned
  obtain ⟨hescape, hkeyword⟩ := hwritten.escape name escaped rfl
  rw [hescape]
  by_contra hplain
  have hnone := hkeyword (Bool.eq_false_iff.2 hplain)
  simp only [Enclosure.isOperator, Bool.or_eq_true, Bool.and_eq_true, beq_iff_eq] at hoperator
  obtain ⟨rfl, -⟩ | ⟨rfl, -⟩ := hoperator <;> cases hnone

/-- A keyword that is read as a name is not that of an operator. -/
theorem not_isOperator_of_isNameIn {context : Context} {word : Keyword}
    {enclosures : List Enclosure} (hgrants : context.Grants enclosures)
    (h : Grammar.isNameIn context word = true) :
    Enclosure.isOperator enclosures word.spelling = false := by
  refine Bool.eq_false_iff.2 fun hoperator => ?_
  simp only [Enclosure.isOperator, Bool.or_eq_true, Bool.and_eq_true, beq_iff_eq] at hoperator
  obtain ⟨hword, hyield⟩ | ⟨hword, hawait⟩ := hoperator
  · obtain rfl : word = .yield := by cases word <;> first | rfl | exact absurd hword (by decide)
    simp [Grammar.isNameIn, hgrants.inGenerator hyield] at h
  · obtain rfl : word = .await := by cases word <;> first | rfl | exact absurd hword (by decide)
    simp [Grammar.isNameIn, hgrants.inAsync hawait] at h

/-- A node without parts can be replaced by another one with the same span. -/
theorem Recasts.leaf {usage usage' : Node.Usage} {n m : Node} {span : Span}
    (h : S.FormedAs around usage n) (hspan : n.span? = some span) (hprogram : n.isProgram = false)
    (hspan' : m.span? = some span) (hparts : n.parts usage = []) (hparts' : m.parts usage' = [])
    (hshorthand : n.isShorthand = false) (hshorthand' : m.isShorthand = false)
    (hallowed : m.isAllowedIn (Node.enclosures around)) (hshaped : m.IsShaped)
    (hproper : S.Proper around usage' m) (hsettable : m.IsSettable := by exact ⟨trivial, trivial⟩) :
    S.Recasts around [.here usage n] [.here usage' m] := by
  refine .cons (Recasts.node h hspan hshorthand hprogram hspan' hshorthand' hallowed hshaped ?_
    hsettable hproper) (fun _ => liesIn_of_span_eq hspan hspan') .nil
  rw [hparts, hparts']
  exact .nil

/-- A key that is a name can be replaced by the name itself, if that is an identifier. -/
theorem recasts_key_name {name : String} {span : Span} (hfits : S.Fits around name)
    (h : S.Formed around (.propertyKey (.identifier name span))) :
    S.Recasts around (plain [.propertyKey (.identifier name span)])
      [.here .shorthand (.expression (.identifier name span))] :=
  .leaf h rfl rfl rfl rfl rfl rfl rfl rfl (by rintro _ ⟨⟩)
    ⟨fun _ => ⟨hfits, nofun⟩, trivial, fun _ => trivial⟩

/-- A key that is a name can be replaced by the pattern of that name, if it may be bound. -/
theorem recasts_key_pattern {name : String} {span : Span} (hfits : S.Fits around name)
    (hassigns : S.Assigns around name)
    (h : S.Formed around (.propertyKey (.identifier name span))) :
    S.Recasts around (plain [.propertyKey (.identifier name span)])
      [.here .shorthand (.pattern (.identifier name span))] :=
  .leaf h rfl rfl rfl rfl rfl rfl rfl rfl (by rintro _ ⟨⟩)
    ⟨⟨⟨hfits, nofun⟩, hassigns⟩, trivial, fun _ => trivial⟩

/-- A name can be replaced by the pattern of that name, if it may be bound. -/
theorem recasts_name_pattern {name : String} {span : Span} (hassigns : S.Assigns around name)
    (h : S.Formed around (.expression (.identifier name span))) :
    S.Recasts around (plain [.expression (.identifier name span)])
      (plain [.pattern (.identifier name span)]) :=
  .leaf h rfl rfl rfl rfl rfl rfl rfl rfl (by rintro _ ⟨⟩)
    ⟨⟨h.lawful.proper.named nofun, hassigns⟩, trivial, fun _ => trivial⟩

/-- A name that stands in front of other parts is borne by the node that they make. -/
theorem Past.bearsName {start : Position} {n : Node} {name : String} {span : Span}
    (ps : List Node.Part) {lexer : Lexer} (h : S.Past around start.offset (plain [n] ++ ps) lexer)
    (hspan : n.span? = some span) (hnamed : S.Named around .ordinary name span) :
    S.Bears around name ⟨start, lexer.lastSpan.stop⟩ (ps.map Node.Part.node) := by
  refine ⟨hnamed.fits, fun hpositioned => ?_⟩
  obtain ⟨middle, hname, hps⟩ := h.inOrder hpositioned
  have hplace : span.LiesIn start.offset middle := (Node.liesIn_iff_of_span hspan).1 hname
  exact ⟨_, hplace.low_le, hps.mono (Nat.lt_of_lt_of_le hplace.start_lt_stop hplace.le_high)
    (Nat.le_refl _), hnamed.escapes nofun⟩

/-- A name that has been read in front of other parts is borne by the node that they make, and may be
bound. -/
theorem Past.bears {start : Position} {x : String × Span} (ps : List Node.Part) {lexer : Lexer}
    (h : S.Past around start.offset (one patternNode x ++ ps) lexer) :
    S.Bears around x.1 ⟨start, lexer.lastSpan.stop⟩ (ps.map Node.Part.node) ∧
      S.Assigns around x.1 := by
  obtain ⟨hnamed, hassigns⟩ :=
    (FormedAs.lawful (h.formed (.here .ordinary (patternNode x)) List.mem_cons_self)).proper.named
  exact ⟨h.bearsName ps rfl hnamed, hassigns⟩

namespace Yields

instance identifierReference [hg : Surveyed S g] :
    Yields S g.identifierReference (one nameNode) fun _ => True where
  yields around low := by
    unfold Grammar.identifierReference
    refine .startToken (fun _ hstart => .unexpectedAt hstart) fun start token hstart hwritten => ?_
    have hnamed (name : String) (hescapes : S.Escapes around name start.offset) :
        S.Does around (S.Past around start.offset []) (do
          ensure ((← g.nameRules).checkWord name start)
          return (name, ← spanFrom start))
          (S.Made around start.offset (one nameNode) fun _ => True) := by
      refine .nameRules hg.goal fun rules hrules => ?_
      refine .ensure (.word hrules name hstart) fun _ hfits => ?_
      refine .done hstart (fun _ => .plain nofun ?_) fun _ => trivial
      exact ⟨fun _ => ⟨hfits, fun _ => hescapes⟩, trivial, fun _ => trivial⟩
    split
    · exact hnamed _ (escapes_of_identifier hwritten)
    · refine .context fun context hgrants => .required (fun _ => .unexpectedAt hstart) fun hname => ?_
      refine hnamed _ fun _ hoperator => ?_
      rw [not_isOperator_of_isNameIn hgrants hname] at hoperator
      cases hoperator
    · exact .haltThen (.unexpectedAt hstart)

instance bindingIdentifier [hg : Surveyed S g] :
    Yields S g.bindingIdentifier (one patternNode) fun _ => True where
  yields around low := by
    unfold Grammar.bindingIdentifier
    refine .step fun (name, span) _ => .formed fun hformed => ?_
    have hstart : S.Exact span.start := hformed.start rfl
    refine .nameRules hg.goal fun rules hrules => ?_
    refine .ensure (.binding hrules name hstart) fun _ ⟨_, hassigns⟩ => ?_
    exact .pure fun _ h => ⟨trivial, Past.recast [] h (recasts_name_pattern hassigns hformed)⟩

instance privateName :
    Yields S (Grammar.privateName : Parse σ PrivateName) (one (.expression ∘ .privateName))
      fun _ => True where
  yields around low := by
    unfold Grammar.privateName
    refine .start fun start hstart => .token (.unexpectedAt hstart) fun token => ?_
    split
    · refine .guarded (fun _ => inferInstance) fun _ => ?_
      exact .done hstart (fun _ => .plain nofun) fun _ => trivial
    · exact .halt (.unexpectedAt hstart)

instance propertyKey [Surveyed S g] :
    Yields S g.propertyKey (one fun x => .propertyKey x.1) fun x => x.1.isPrivate = false where
  yields around low := by
    unfold Grammar.propertyKey
    refine .start fun start hstart => .token (.unexpectedAt hstart) fun token => ?_
    split
    case _ | _ | _ | _ | _ =>
      exact .done hstart (fun _ => .plain nofun) fun _ => rfl
    · refine .step fun expression hexpression => .advance fun _ => ?_
      exact .done hstart (fun _ => .plain (by simp [hexpression])) fun _ => rfl
    · exact .halt (.unexpectedAt hstart)

/-! ## Patterns -/

variable [hg : Surveyed S g]

instance bindingElement : Yields S g.bindingElement (one .pattern) Pattern.IsElement where
  yields around low := by
    unfold Grammar.bindingElement
    refine .start fun start hstart => .step fun target htarget => .proceed fun c => ?_
    refine .ite (fun _ => .step fun default hdefault => ?_) fun _ => ?_
    · refine .done hstart (fun _ => ⟨rfl, rfl, rfl, rfl, ?_, ⟨trivial, trivial⟩, trivial, trivial,
        fun _ => trivial⟩) fun span => ⟨?_, rfl⟩
      · exact ⟨htarget.not_rest, htarget.not_default, hdefault⟩
      · exact .withDefault default span htarget.toIsPlain
    · exact .pure fun _ h => ⟨htarget.toIsElement, h⟩

instance restElement : Yields S g.restElement (one .pattern) Pattern.IsLast where
  yields around low := by
    unfold Grammar.restElement
    refine .start fun start hstart => .advance fun _ => .step fun argument hargument => ?_
    refine .done hstart (fun _ => .plain (by simp [hargument.not_rest])) fun span =>
      ⟨⟨?_, ?_⟩, rfl⟩
    · exact .rest span hargument.binds
    · exact .rest span hargument.not_default hargument.rests

end Yields

/-! ## Array patterns -/

/-- What stands in a list with holes that is read last one first. -/
def present (elements : List (Option β)) : List β := elements.reverse.filterMap id

@[simp] theorem present_none (elements : List (Option β)) :
    present (none :: elements) = present elements := by
  simp [present]

@[simp] theorem present_some (b : β) (elements : List (Option β)) :
    present (some b :: elements) = present elements ++ [b] := by
  simp [present]

theorem mem_present {b : β} {elements : List (Option β)} :
    b ∈ present elements ↔ some b ∈ elements := by
  simp [present]

/-- The elements of an array pattern, last one first: they are plain, and only the last one may be a
rest element. -/
structure IsElementList (elements : List (Option Pattern)) : Prop where
  rest_last : ∀ p, some p ∈ elements.tail → p.isRest = false
  plain : ∀ p, some p ∈ elements → p.IsPlain

theorem isElementList_of_elements {elements : List (Option Pattern)}
    (h : ∀ p ∈ present elements, p.IsElement) : IsElementList elements where
  rest_last p hp := (h p (mem_present.2 (List.mem_of_mem_tail hp))).not_rest
  plain p hp := (h p (mem_present.2 hp)).toIsPlain

theorem isElementList_of_last {elements : List (Option Pattern)}
    (h : ∀ p ∈ present elements, p.IsElement) {last : Pattern} (hlast : last.IsLast) :
    IsElementList (some last :: elements) where
  rest_last p hp := (h p (mem_present.2 hp)).not_rest
  plain p hp := by
    rcases List.mem_cons.1 hp with heq | hp
    · cases heq
      exact hlast.toIsPlain
    · exact (h p (mem_present.2 hp)).toIsPlain

variable [hg : Surveyed S g]

theorem Does.arrayPatternRound {low : Nat} (elements : List (Option Pattern)) :
    S.Does around (S.Gathered around low [] .pattern Pattern.IsElement (present elements))
      (g.arrayPatternRound elements) fun r lexer =>
        r.Holds (fun elements => S.Gathered around low [] .pattern Pattern.IsElement
            (present elements) lexer)
          (S.Made around low (fun elements => many .pattern (present elements)) IsElementList ·
            lexer) := by
  unfold Grammar.arrayPatternRound
  refine .proceed fun c => .ite (fun _ => ?_) fun _ => .proceed fun c => .ite (fun _ => ?_) fun _ =>
    .observe fun c => .ite (fun _ => ?_) fun _ => ?_
  · exact .pure fun _ h => ⟨isElementList_of_elements h.1, h.2⟩
  · exact .pure fun _ h => by simpa [Round.Holds] using h
  · refine .assume (fun _ h => h.1) fun helements => .step fun last hlast => .advance fun _ => ?_
    refine .pure fun _ h => ⟨isElementList_of_last helements hlast, ?_⟩
    simpa [plain] using h
  · refine .item fun element => .proceed fun c => .ite (fun _ => ?_) fun _ => .proceed fun _ => ?_
    · exact .pure fun _ h => by simpa [Round.Holds] using h
    · refine .pure fun lexer h => ?_
      rw [← present_some] at h
      exact ⟨isElementList_of_elements h.1, h.2⟩

instance Yields.arrayPattern : Yields S g.arrayPattern (one .pattern) Pattern.IsTarget where
  yields around low := by
    unfold Grammar.arrayPattern
    refine .start fun start hstart => .advance fun _ => ?_
    refine .after (.loop Does.arrayPatternRound fun _ h => h.gathered) fun elements helements => ?_
    have hplain (p : Pattern) (hp : some p ∈ elements.reverse) : p.IsPlain :=
      helements.plain p (List.mem_reverse.1 hp)
    refine .done hstart (fun _ => ⟨rfl, rfl, rfl, rfl, fun p hp => ?_, ⟨trivial, trivial⟩, trivial,
        trivial, fun _ => trivial⟩)
      fun span => ⟨⟨⟨.array fun p hp => (hplain p hp).binds,
        .array fun p hp => (hplain p hp).rests⟩, rfl⟩, rfl⟩
    rw [List.dropLast_reverse, List.mem_reverse] at hp
    exact helements.rest_last p hp

/-! ## Properties that are a name alone -/

/-- The key and the value of a property that is a name alone begin together, behind `low`. -/
structure Shorthand (S : Survey σ) (around : List Node.Step) (low : Nat) (key value : Node)
    (lexer : Lexer) : Prop where
  key_formed : S.Formed around key
  value_formed : S.FormedAs around .shorthand value
  liesIn : S.positioned → ∀ c ∈ [key, value], c.LiesIn low lexer.lastSpan.stop.offset
  same_start : key.span?.map (·.start) = value.span?.map (·.start)
  less : S.positioned → low < lexer.lastSpan.stop.offset

section Shorthand

variable {low : Nat} {key value n : Node} {span : Span} {lexer : Lexer} {ps : List Node.Part}

/-- A value with the span of the key. -/
theorem Past.shorthand (h : S.Past around low (plain [key]) lexer) (hkey : key.span? = some span)
    (hvalue : value.span? = some span)
    (hrecasts : S.Recasts around (plain [key]) [.here .shorthand value]) :
    S.Shorthand around low key value lexer where
  key_formed := allFormed_plain.1 h.formed key List.mem_cons_self
  value_formed := hrecasts.formed _ List.mem_cons_self
  liesIn hpositioned := by
    have hinOrder := h.inOrder hpositioned
    have hliesIn := InOrder.singleton.1 (hrecasts.inOrder hpositioned hinOrder)
    exact List.forall_mem_cons.2 ⟨InOrder.singleton.1 hinOrder, List.forall_mem_singleton.2 hliesIn⟩
  same_start := by rw [hkey, hvalue]
  less := h.less

/-- A value that begins with the key and ends behind what has been read since. -/
theorem Does.shorthand {first : Node} (make : Span → Node) {q : Span → Parse σ α}
    {Q : α → Lexer → Prop} (hkey : key.span? = some span)
    (hrecasts : S.Formed around key →
      S.Recasts around (plain [key]) [.here .shorthand first])
    (hmake : ∀ span, S.Composed around .shorthand (make span) span (.here .shorthand first :: ps))
    (hq : ∀ span, S.Does around (S.Shorthand around low key (make span)) (q span) Q) :
    S.Does around (S.Past around low (plain [key] ++ ps)) (spanFrom span.start >>= q) Q := by
  intro s hs h
  have hformed : S.Formed around key := h.formed _ List.mem_cons_self
  have hvalue := (h.fromFirst hkey (hrecasts hformed)).compose hs.tracks (hformed.start hkey)
    (hmake _)
  have hkeyIn (hpositioned : S.positioned) :
      (key.LiesIn low s.lexer.lastSpan.stop.offset ∧ low ≤ span.start.offset) := by
    obtain ⟨middle, hfirst, hrest⟩ := h.inOrder hpositioned
    exact ⟨hfirst.mono (Nat.le_refl _) hrest.le, ((Node.liesIn_iff_of_span hkey).1 hfirst).low_le⟩
  refine hq _ s hs ⟨hformed, hvalue.formed _ List.mem_cons_self, ?_, ?_, h.less⟩
  · intro hpositioned
    obtain ⟨hliesIn, hlow⟩ := hkeyIn hpositioned
    have hvalueIn := InOrder.singleton.1 (hvalue.inOrder hpositioned)
    exact List.forall_mem_cons.2
      ⟨hliesIn, List.forall_mem_singleton.2 (hvalueIn.mono hlow (Nat.le_refl _))⟩
  · rw [hkey, (hmake _).span]
    rfl

namespace Shorthand

theorem arranged (h : S.Shorthand around low key value lexer)
    (hchildren : n.children = [key, value]) (hshorthand : n.isShorthand = true) :
    S.positioned → n.ArrangedIn low lexer.lastSpan.stop.offset := by
  intro hpositioned
  refine ⟨?_, fun hno => ?_, fun _ => ?_⟩
  · rw [hchildren]
    exact h.liesIn hpositioned
  · rw [hshorthand] at hno
    cases hno
  · have hsame := h.same_start
    rw [hchildren]
    simp only [List.forall_mem_cons, List.not_mem_nil, false_implies, implies_true, and_true]
    exact ⟨⟨trivial, hsame⟩, hsame.symm⟩

theorem parts (h : S.Shorthand around low key value lexer)
    (hparts : n.parts .ordinary = [.here .ordinary key, .here .shorthand value]) :
    S.AllFormed around (n.parts .ordinary) := by
  rw [hparts]
  exact List.forall_mem_cons.2 ⟨h.key_formed, List.forall_mem_singleton.2 h.value_formed⟩

/-- A property of a pattern, which has no span of its own. -/
theorem patternProperty {name : String} {p : Pattern}
    (h : S.Shorthand around low (.propertyKey (.identifier name span)) (.pattern p) lexer)
    (hrest : p.isRest = false) (habbreviates : p.Abbreviates name span) :
    S.Past around low (plain [.patternProperty ⟨.identifier name span, p, true⟩]) lexer := by
  have harranged := h.arranged (n := .patternProperty ⟨.identifier name span, p, true⟩) rfl rfl
  have hshaped : (Node.patternProperty ⟨.identifier name span, p, true⟩).IsShaped := by
    change ∀ c ∈ [Node.propertyKey (.identifier name span), Node.pattern p], c.isOrdinary
    simp [hrest, PropertyKey.isPrivate]
  have hlawful : S.Lawful around .ordinary (.patternProperty ⟨.identifier name span, p, true⟩) :=
    ⟨⟨rfl, hshaped, nofun, nofun, fun hpositioned => ⟨_, _, harranged hpositioned⟩,
      ⟨trivial, trivial⟩⟩, trivial, ⟨name, span, rfl, habbreviates⟩, fun _ => trivial⟩
  have hformed := FormedAs.mk hlawful (h.parts rfl)
  refine ⟨allFormed_plain.2 (List.forall_mem_singleton.2 hformed), fun hpositioned => ?_, h.less⟩
  refine InOrder.singleton.2 ⟨Nat.le_of_lt (h.less hpositioned), fun other hother => ?_⟩
  rw [Node.extents_of_no_span rfl] at hother
  obtain ⟨c, hc, hother⟩ := List.mem_flatMap.1 hother
  exact ((harranged hpositioned).liesIn c hc).extents other hother

end Shorthand

end Shorthand

namespace Yields

instance patternProperty :
    Yields S g.patternProperty (one .patternProperty) fun x => x.value.IsPlain where
  yields around low := by
    unfold Grammar.patternProperty
    refine .step fun (key, computed) hkey => .proceed fun c => .ite (fun _ => ?_) fun _ => ?_
    · refine .step fun value hvalue => .pure fun _ h => ⟨hvalue.toIsPlain, ?_⟩
      refine Past.wrap [] (.patternProperty ⟨key, value, false⟩) h rfl rfl rfl ?_
      change ∀ c ∈ [Node.propertyKey key, Node.pattern value], c.isOrdinary
      simpa [hvalue.not_rest] using hkey
    · split
      · next name span =>
        refine .formed fun hformed => ?_
        have hstart : S.Exact span.start := hformed.start rfl
        refine .nameRules hg.goal fun rules hrules => ?_
        refine .ensure (.binding hrules name hstart) fun _ ⟨hfits, hassigns⟩ => ?_
        refine .proceed fun c => .ite (fun _ => .step fun default hdefault => ?_) fun _ => ?_
        · refine .shorthand
            (fun span' => .pattern (.withDefault (.identifier name span) default span')) rfl
            (recasts_key_pattern hfits hassigns)
            (fun _ => ⟨rfl, rfl, rfl, rfl, ⟨rfl, rfl, hdefault⟩, ⟨trivial, trivial⟩, trivial, trivial,
              fun _ => trivial⟩) fun span' => ?_
          exact .pure fun _ h => ⟨.withDefault _ _ (.name name span),
            h.patternProperty rfl (.inr ⟨default, span', rfl⟩)⟩
        · refine .pure fun _ h => ⟨.name name span, Shorthand.patternProperty ?_ rfl (.inl rfl)⟩
          exact Past.shorthand h rfl rfl (recasts_key_pattern hfits hassigns hformed)
      · exact .halt inferInstance

end Yields

/-! ## Object patterns -/

theorem Does.objectPatternRound {low : Nat} (properties : List PatternProperty) :
    S.Does around
      (S.Gathered around low [] .patternProperty (·.value.IsPlain) properties.reverse)
      (g.objectPatternRound properties) fun r lexer =>
        r.Holds (fun properties => S.Gathered around low [] .patternProperty (·.value.IsPlain)
            properties.reverse lexer)
          (S.Made around low
            (fun read => many .patternProperty read.1.reverse ++ many .pattern read.2.toList)
            (fun read => (∀ property ∈ read.1, property.value.IsPlain) ∧ ∀ p ∈ read.2, p.IsLast) ·
            lexer) := by
  have hend {properties : List PatternProperty} {lexer : Lexer}
      (h : S.Gathered around low [] .patternProperty (·.value.IsPlain) properties.reverse lexer) :
      (∀ property ∈ properties, property.value.IsPlain) ∧
        S.Past around low (many .patternProperty properties.reverse ++ []) lexer := by
    rw [List.append_nil]
    exact ⟨fun property hmem => h.1 property (List.mem_reverse.2 hmem), h.2⟩
  unfold Grammar.objectPatternRound
  refine .proceed fun c => .ite (fun _ => ?_) fun _ => ?_
  · exact .pure fun _ h => ⟨⟨(hend h).1, nofun⟩, (hend h).2⟩
  refine .observe fun c => .ite (fun _ => ?_) fun _ => ?_
  · refine .assume (fun _ h => (hend h).1) fun hproperties => .step fun last hlast => ?_
    refine .advance fun _ => .pure fun _ h => ⟨⟨hproperties, ?_⟩, h⟩
    rintro _ ⟨⟩
    exact hlast
  · refine .item fun property => .proceed fun c => .ite (fun _ => ?_) fun _ => .proceed fun _ => ?_
    · exact .pure fun _ h => h.cons
    · exact .pure fun _ h => ⟨⟨(hend h.cons).1, nofun⟩, (hend h.cons).2⟩

namespace Yields

instance objectPattern : Yields S g.objectPattern (one .pattern) Pattern.IsTarget where
  yields around low := by
    unfold Grammar.objectPattern
    refine .start fun start hstart => .advance fun _ => ?_
    refine .after (.loop Does.objectPatternRound fun _ h => h.gathered)
      fun (properties, last) ⟨hproperties, hlast⟩ => ?_
    refine .done hstart (fun _ => ⟨rfl, List.map_append, rfl, rfl, fun p hp => (hlast p hp).rest,
      ⟨trivial, trivial⟩, trivial, trivial, fun _ => trivial⟩)
      fun span => ⟨⟨⟨.object (fun property hmem => ?_) fun p hp => (hlast p hp).binds,
        .object (fun property hmem => ?_) fun p hp => (hlast p hp).rests⟩, rfl⟩, rfl⟩
    · exact (hproperties property (List.mem_reverse.1 hmem)).binds
    · exact (hproperties property (List.mem_reverse.1 hmem)).rests

instance bindingTargetRule : Yields S g.bindingTargetRule (one .pattern) Pattern.IsTarget where
  yields around low := by
    unfold Grammar.bindingTargetRule
    refine .observe fun token => ?_
    split
    · exact arrayPattern.yields around low
    · exact objectPattern.yields around low
    · refine .step fun (name, span) _ => .pure fun lexer h => ?_
      refine ⟨⟨⟨.name name span, rfl⟩, rfl⟩, ?_⟩
      exact h

end Yields

end Survey

end EcmaScript
