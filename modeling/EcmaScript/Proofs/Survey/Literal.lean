import EcmaScript.Proofs.Survey.Class

/-!
Sequences, arguments, and array, object and template literals, surveyed.

A spread stands among arguments and array elements only. The text of a template is read on behind
the brace of a substitution, so the end of the last token moves while the next token is another one.
-/

namespace EcmaScript

/-- The expression may be an argument of a call or an element of an array. -/
def Expression.IsArgument (e : Expression) : Prop := e.role = .operand ∨ e.role = .spread

namespace Survey

open Parse

variable {σ α β : Type} {S : Survey σ} {g : Grammar σ} {around : List Node.Step} {low : Nat}
  [hg : Surveyed S g]

/-! ## Sequences -/

theorem Gathers.expressionRound :
    S.Gathers around low [] .expression Expression.IsOperand g.expressionRound := by
  intro expressions
  unfold Grammar.expressionRound
  refine .proceed fun c => .ite (fun _ => ?_) fun _ => .pure fun _ h => h
  exact .item fun value => .pure fun _ h => h.cons

namespace Yields

instance expression : Yields S g.expression (one .expression) Expression.IsOperand where
  yields around low := by
    unfold Grammar.expression
    refine .start fun start hstart => .step fun first hfirst => .observe fun c => ?_
    refine .ite (fun _ => ?_) fun _ => .pure fun _ h => ⟨hfirst, h⟩
    refine .weaken (P := S.Gathered around start.offset [] .expression Expression.IsOperand
      [first].reverse) ?_ fun _ _ h => ⟨List.forall_mem_singleton.2 hfirst, h⟩
    refine .after (.gatherFrom .expressionRound [first]) fun expressions hexpressions => ?_
    refine .done hstart (fun _ => .plain ?_) fun _ => rfl
    simpa using hexpressions

instance headExpression : Yields S g.headExpression (one .expression) Expression.IsOperand where
  yields around low := by
    unfold Grammar.headExpression
    refine .advance fun _ => .step fun value hvalue => .advance fun _ => ?_
    exact .pure fun _ h => ⟨hvalue, h⟩

/-! ## Arguments -/

instance spreadOrAssignment :
    Yields S g.spreadOrAssignment (one .expression) Expression.IsArgument where
  yields around low := by
    unfold Grammar.spreadOrAssignment
    refine .ifNext (.startFacing fun start hstart => ?_) ?_
    · refine .skipping ?_ (.step fun argument hargument => ?_)
      · rintro _ hspread rfl
        cases hspread
      · exact .done hstart (fun _ => .plain (by simp [hargument])) fun _ => .inr rfl
    · exact Does.yield.mono (fun _ _ h => h) fun _ _ _ ⟨hargument, h⟩ => ⟨.inl hargument, h⟩

end Yields

theorem Does.argumentsRound (arguments : List Expression) :
    S.Does around (S.Listed around low .expression Expression.IsArgument arguments.reverse)
      (g.argumentsRound arguments) fun r lexer =>
        r.Holds (fun l => S.Listed around low .expression Expression.IsArgument l.reverse lexer)
          fun l => S.Gathered around low [] .expression Expression.IsArgument l.reverse lexer := by
  refine .assume (fun _ h => h.1) fun hothers => ?_
  refine .weaken (P := S.Before around low (many .expression arguments.reverse)) ?_ fun _ _ h => h.2
  unfold Grammar.argumentsRound
  refine .ifAccepted (.pure fun _ h => ⟨hothers, h⟩) (.step fun argument hargument => ?_)
  refine .weaken (P := S.Gathered around low [] .expression Expression.IsArgument
    (argument :: arguments).reverse) ?_ fun _ _ h => .cons (.snoc hothers hargument h)
  refine .proceed fun c => .ite (fun _ => ?_) fun _ => .proceed fun _ => .pure fun _ h => h
  exact .weaken (.pure fun _ h => h) fun _ htracks h => Gathered.listed htracks h

/-- Arguments stand behind an opening parenthesis. -/
theorem Does.arguments (lexer : Lexer) :
    S.Does around (lexer = ·) g.arguments fun arguments lexer' =>
      (S.positioned → StandsAt S.source lexer.nextStart "(") ∧
        S.Made around (lexer.nextStart + 1) (many .expression)
          (fun arguments => ∀ e ∈ arguments, e.IsArgument) arguments lexer' := by
  unfold Grammar.arguments
  refine .weaken (P := S.Worded lexer.nextStart []) ?_ fun _ _ h => .nil fun _ => by rw [h]
  refine .bind (.expectWorded .lParen) fun _ => .pointwise fun lexer' htracks' hworded => ?_
  have hparen : S.positioned → StandsAt S.source lexer.nextStart "(" ∧
      lexer.nextStart + 1 ≤ lexer'.nextStart := by
    intro hpositioned
    obtain ⟨hstands, hstop⟩ := hworded.single hpositioned
    have hlast := (htracks' hpositioned).last_le_nextStart
    rw [hstop] at hlast
    exact ⟨hstands, hlast⟩
  refine .after (.allowingIn (.weaken (.loop Does.argumentsRound fun _ h => ⟨nofun, h⟩) ?_))
    fun arguments harguments => .pure fun _ h => ⟨fun hpositioned => (hparen hpositioned).1, harguments, h⟩
  rintro _ _ rfl
  exact ⟨allFormed_nil, fun hpositioned => (hparen hpositioned).2⟩

instance Yields.arguments :
    Yields S g.arguments (many .expression) fun arguments => ∀ e ∈ arguments, e.IsArgument where
  yields around low := by
    refine .pointwise fun lexer _ h => (Does.arguments lexer).mono (fun _ _ h => h) ?_
    refine fun arguments lexer' _ ⟨_, harguments, hpast⟩ => ⟨harguments, hpast.mono ?_⟩
    exact fun hpositioned => Nat.le_succ_of_le (h.inOrder hpositioned)

/-! ## Array literals -/

theorem Does.arrayLiteralRound (elements : List (Option Expression)) :
    S.Does around (S.Gathered around low [] .expression Expression.IsArgument (present elements))
      (g.arrayLiteralRound elements) fun r lexer =>
        r.Holds (fun elements => S.Gathered around low [] .expression Expression.IsArgument
            (present elements) lexer)
          fun elements => S.Gathered around low [] .expression Expression.IsArgument
            (present elements) lexer := by
  unfold Grammar.arrayLiteralRound
  refine .proceed fun c => .ite (fun _ => .pure fun _ h => h) fun _ => ?_
  refine .proceed fun c => .ite (fun _ => ?_) fun _ => .item fun element => ?_
  · exact .pure fun _ h => by simpa [Round.Holds] using h
  refine .proceed fun c => .ite (fun _ => ?_) fun _ => .proceed fun _ => ?_
  · exact .pure fun _ h => by simpa [Round.Holds] using h
  · exact .pure fun _ h => by simpa [Round.Holds] using h

instance Continues.arrayLiteral (start : Position) :
    Continues S start (g.arrayLiteral start) (one .expression) Expression.IsOperand where
  continues around hstart := by
    unfold Grammar.arrayLiteral
    refine .advance fun _ => ?_
    refine .bind (.allowingIn (.loop Does.arrayLiteralRound fun _ h => h.gathered))
      fun elements => .assume (fun _ h => h.1) fun helements => ?_
    refine .weaken (.done hstart
      (fun _ => ⟨rfl, rfl, rfl, rfl, fun e he => ?_, ⟨trivial, trivial⟩, trivial, trivial,
        fun _ => trivial⟩) fun _ => rfl)
      fun _ _ h => h.2
    exact helements e (mem_present.2 (List.mem_reverse.1 he))

/-! ## Object literals -/

/-- A property that is a name alone, perhaps with a default value. -/
theorem Shorthand.objectProperty {name : String} {span : Span} {value : Expression}
    {start : Position} {lexer : Lexer} (htracks : S.positioned → lexer.Tracks S.source)
    (hstart : S.Exact start)
    (h : S.Shorthand around start.offset (.propertyKey (.identifier name span)) (.expression value)
      lexer) (hvalue : value.IsOperand) (habbreviates : value.Abbreviates name span) :
    S.Past around start.offset (one .objectProperty
      (.property (.identifier name span) value .init false true false
        ⟨start, lexer.lastSpan.stop⟩)) lexer := by
  let property : ObjectProperty := .property (.identifier name span) value .init false true false
    ⟨start, lexer.lastSpan.stop⟩
  have harranged := h.arranged (n := .objectProperty property) rfl rfl
  have hshaped : (Node.objectProperty property).IsShaped := by
    change ∀ c ∈ [Node.propertyKey (.identifier name span), Node.expression value], c.isOrdinary
    simp [hvalue, PropertyKey.isPrivate]
  have hformed : S.Formed around (.objectProperty property) := by
    refine .mk ⟨⟨rfl, hshaped, ?_, ?_, harranged, ⟨trivial, trivial⟩⟩, trivial,
      ⟨rfl, rfl, rfl, name, span, rfl, habbreviates⟩, ?_⟩ (h.parts rfl)
    · rintro _ ⟨⟩
      exact ⟨hstart, fun hpositioned => (htracks hpositioned).last_stop⟩
    · rintro hpositioned _ _ ⟨⟩
      exact h.less hpositioned
    · rintro - ⟨⟩
  refine ⟨allFormed_plain.2 (List.forall_mem_singleton.2 hformed), fun hpositioned => ?_, h.less⟩
  refine InOrder.singleton.2 ((Node.liesIn_iff_of_span rfl).2 ?_)
  exact ⟨Nat.le_refl _, h.less hpositioned, Nat.le_refl _⟩

/-- A key that is a name can be replaced by the assignment target of that name. -/
theorem recasts_key_target {name : String} {span : Span} (hfits : S.Fits around name)
    (h : S.Formed around (.propertyKey (.identifier name span))) :
    S.Recasts around (plain [.propertyKey (.identifier name span)])
      [.here .shorthand (.assignmentTarget (.simple (.identifier name span)))] := by
  have hname := recasts_key_name hfits h
  refine hname.trans ?_
  exact .wrapped (hname.formed _ List.mem_cons_self) rfl rfl rfl rfl rfl rfl rfl
    ⟨.name name span, trivial⟩

theorem Does.shorthandProperty {start : Position} (hstart : S.Exact start) (key : PropertyKey) :
    S.Does around (S.Past around start.offset (one .propertyKey key))
      (g.shorthandProperty start key)
      (S.Made around start.offset (one .objectProperty) fun _ => True) := by
  unfold Grammar.shorthandProperty
  cases key with
  | identifier name span =>
    have hend (value : Expression) (hvalue : value.IsOperand)
        (habbreviates : value.Abbreviates name span) :
        S.Does around (S.Shorthand around start.offset (.propertyKey (.identifier name span))
            (.expression value))
          (do
            return .property (.identifier name span) value .init false true false
              (← spanFrom start))
          (S.Made around start.offset (one .objectProperty) fun _ => True) :=
      fun _ hs h => ⟨.refl _, hs, trivial, h.objectProperty hs.tracks hstart hvalue habbreviates⟩
    refine .formed fun hformed => ?_
    have hkey : S.Exact span.start := hformed.start rfl
    refine .nameRules hg.goal fun rules hrules => .ensure (.word hrules name hkey) fun _ hfits => ?_
    refine .proceed fun c => .ite (fun _ => .step fun default hdefault => ?_) fun _ => ?_
    · refine .shorthand (fun span' => .expression (.assignment .assign
        (.simple (.identifier name span)) default span')) rfl (recasts_key_target hfits)
        (fun _ => .plain (by simp [hdefault])) fun span' =>
          hend _ rfl (.inr ⟨default, span', rfl⟩)
    · refine (hend (.identifier name span) rfl (.inl rfl)).weaken fun _ _ h => ?_
      exact Past.shorthand h rfl rfl (recasts_key_name hfits hformed)
  | _ => exact .halt inferInstance

/-- The value of a method or accessor is used as such. -/
theorem usageOfValue_accessor {accessor : Option MethodKind}
    (h : ∀ kind ∈ accessor, kind.word?.isSome) :
    Node.usageOfValue (Grammar.propertyKind accessor) accessor.isNone false = .method := by
  cases accessor with
  | none => rfl
  | some kind =>
    have hkind := h kind rfl
    cases kind with
    | get | set => rfl
    | _ => cases hkind

theorem word?_propertyKind (accessor : Option MethodKind) :
    (Grammar.propertyKind accessor).word? = accessor.bind MethodKind.word? := by
  unfold Grammar.propertyKind
  split
  · rfl
  · rfl
  · next hget hset =>
    cases accessor with
    | none => rfl
    | some kind =>
      cases kind with
      | get => exact absurd rfl hget
      | set => exact absurd rfl hset
      | _ => rfl

/-- A method or accessor of an object literal behind its key. -/
theorem Does.objectMethod {start : Position} (hstart : S.Exact start) {key : PropertyKey}
    (hkey : key.isPrivate = false) (computed : Bool) {m : Grammar.Modifiers}
    (haccessor : ∀ kind ∈ m.accessor, kind.word?.isSome)
    (hwords : S.positioned → Words S.source start.offset (modifierWords false m.isAsync
      m.isGenerator (m.accessor.bind MethodKind.word?)) key.start.offset) :
    S.Does around (S.Past around start.offset (one .propertyKey key)) (do
      let function ← g.methodFunction m.isAsync m.isGenerator
      return .property key (.function none function) (Grammar.propertyKind m.accessor)
        m.accessor.isNone false computed (← spanFrom start))
      (S.Made around start.offset (one .objectProperty) fun _ => True) := by
  have husage := usageOfValue_accessor haccessor
  refine .step fun f ⟨hasync, hgenerator⟩ => ?_
  refine .weaken (P := S.Past around start.offset (one .propertyKey key ++
    [.here .method (.expression (.function none f))])) (.done hstart (fun stop => ?_) fun _ => trivial)
    fun _ _ h => h.functionExpression (one .propertyKey key) none ⟨trivial, trivial, fun _ hno => ?_⟩
  · refine .plain ?_ ⟨trivial, trivial, fun hpositioned _ _ _ heq => ?_⟩ ?_
    · simpa [Expression.role] using hkey
    · cases heq
      rw [hasync, hgenerator, word?_propertyKind]
      exact hwords hpositioned
    · change [_, _] = [_, _]
      rw [husage]
  · exact absurd rfl hno

instance Yields.objectProperty :
    Yields S g.objectProperty (one .objectProperty) fun _ => True where
  yields around low := by
    unfold Grammar.objectProperty
    refine .startWorded fun start hstart => .ifAccepted ?_ ?_
    · refine .step fun argument hargument => ?_
      exact .done hstart (fun _ => .plain (by simp [hargument])) fun _ => trivial
    refine .weaken (P := Also (S.Before around start.offset []) (S.Worded start.offset [])) ?_
      fun _ _ h => h.1
    refine .bind (.besides .modifiers) fun m => ?_
    refine .assume (fun _ h => h.2.1) fun haccessor => .weaken
      (.key .propertyKey fun (key, computed) hkey hwords => .observe fun c => ?_)
      fun _ _ h => ⟨h.1, h.2.2⟩
    refine .ite (fun _ => .objectMethod hstart hkey computed haccessor hwords) fun _ => ?_
    refine .guarded (fun _ => inferInstance) fun _ => .proceed fun c => ?_
    refine .ite (fun _ => .step fun value hvalue => ?_) fun _ => .shorthandProperty hstart key
    refine .done hstart (fun _ => .plain (by simpa [hvalue] using hkey)
      ⟨trivial, trivial, fun _ => nofun⟩) fun _ => trivial

theorem Gathers.objectLiteralRound :
    S.Gathers around low [] .objectProperty (fun _ => True) g.objectLiteralRound := by
  intro properties
  unfold Grammar.objectLiteralRound
  refine .proceed fun c => .ite (fun _ => .pure fun _ h => h) fun _ => .item fun property => ?_
  refine .proceed fun c => .ite (fun _ => .pure fun _ h => h.cons) fun _ => ?_
  exact .proceed fun _ => .pure fun _ h => h.cons

instance Continues.objectLiteral (start : Position) :
    Continues S start (g.objectLiteral start) (one .expression) Expression.IsOperand where
  continues around hstart := by
    unfold Grammar.objectLiteral
    refine .advance fun _ => .after (.allowingIn (.gather .objectLiteralRound)) ?_
    exact fun properties _ => .done hstart (fun _ => .plain (by simp)) fun _ => rfl

/-! ## Template literals -/

/-- Reading on in a template moves the end of the last token. -/
theorem Does.templateContinuation {ps : List Node.Part} {make : β → Node} {fit : β → Prop}
    {items : List β} {q : Token → Parse σ α} {Q : α → Lexer → Prop}
    (hq : ∀ token, S.Does around (S.Gathered around low ps make fit items) (q token) Q) :
    S.Does around (S.Gathered around low ps make fit items)
      (Parse.lexing Lexing.readTemplateContinuation >>= q) Q := by
  have hread (lexer : Lexer) :
      S.Does around (lexer = ·) (Parse.lexing Lexing.readTemplateContinuation) fun _ lexer' =>
        S.positioned → lexer.lastSpan.stop.offset ≤ lexer'.lastSpan.stop.offset := by
    refine (Does.lexing (Q := fun _ _ => True) ?_ ?_).mono (fun _ _ h => h) fun _ _ _ h => h.2
    · intro _ _
      unfold Ends
      split <;> trivial
    · rintro hpositioned _ htracks rfl
      refine (Lexing.readTemplateContinuation_tracks htracks).mono ?_ fun _ _ he => he
      exact fun _ _ h => ⟨h.1, h.2.2⟩
  exact .via hread (fun _ _ _ _ _ h hle => ⟨h.1, h.2.behind hle⟩) hq

theorem Does.templateRound {start : Position} (hstart : S.Exact start)
    (template : Grammar.TemplateRead) :
    S.Does around
      (S.Gathered around low [] .expression Expression.IsOperand template.expressions.reverse)
      (g.templateRound start template) fun r lexer =>
        r.Holds (fun template => S.Gathered around low [] .expression Expression.IsOperand
            template.expressions.reverse lexer)
          fun template => S.Gathered around low [] .expression Expression.IsOperand
            template.expressions.reverse lexer := by
  unfold Grammar.templateRound
  refine .item fun value => .observe fun c => .required (fun _ => inferInstance) fun _ => ?_
  refine .proceed fun _ => .templateContinuation fun token => ?_
  split
  · exact .pure fun _ h => h.cons
  · exact .pure fun _ h => h.cons
  · exact .halt (.unexpectedAt hstart)

instance Yields.templateLiteral :
    Yields S g.templateLiteral (one .expression) Expression.IsOperand where
  yields around low := by
    have hend {start : Position} (hstart : S.Exact start) (template : Grammar.TemplateRead) :
        S.Does around (S.Gathered around start.offset [] .expression Expression.IsOperand
            template.expressions.reverse)
          (do
            return .template template.quasis.reverse template.expressions.reverse
              (← spanFrom start))
          (S.Made around start.offset (one .expression) Expression.IsOperand) := by
      refine .assume (fun _ h => h.1) fun hexpressions => ?_
      refine .weaken (.done hstart (fun _ => .plain ?_) fun _ => rfl) fun _ _ h => h.2
      simpa using hexpressions
    unfold Grammar.templateLiteral
    refine .start fun start hstart => .token (.unexpectedAt hstart) fun token => ?_
    split
    · exact (hend hstart _).weaken fun _ _ h => h.gathered
    · exact .bind (.loop (.templateRound hstart) fun _ h => h.gathered) fun template =>
        hend hstart template
    · exact .haltThen (.unexpectedAt hstart)

end Survey

end EcmaScript
