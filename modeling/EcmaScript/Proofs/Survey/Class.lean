import EcmaScript.Proofs.Survey.Modifier

/-!
Classes, surveyed.

The initializer of a field and the body of a static block stand in surroundings of their own; keys
belong to what surrounds the class, and what stands behind its name is class code. A class calls the
hooks, which keep their state fine and refuse the source at exact positions only.
-/

namespace EcmaScript

namespace Survey

open Parse

variable {σ α β : Type} {S : Survey σ} {g : Grammar σ} {around : List Node.Step} {low : Nat}
  [hg : Surveyed S g]

/-! ## Keys -/

/-- A private name can be replaced by the key that it is. -/
theorem recasts_privateName_key {name : PrivateName}
    (h : S.Formed around (.expression (.privateName name))) :
    S.Recasts around (plain [.expression (.privateName name)])
      (plain [.propertyKey (.privateName name)]) :=
  .leaf h rfl rfl rfl rfl rfl rfl rfl rfl (by rintro _ ⟨⟩) ⟨trivial, trivial, fun _ => trivial⟩

instance Yields.classKey : Yields S g.classKey (one fun x => .propertyKey x.1) fun _ => True where
  yields around low := by
    unfold Grammar.classKey
    refine .observe fun c => .ite (fun _ => ?_) fun _ => ?_
    · refine .step fun name _ => .pure fun _ h => ⟨trivial, ?_⟩
      exact Past.recast [] h (recasts_privateName_key (h.formed _ List.mem_cons_self))
    · have hkey := (Yields.propertyKey (S := S) (g := g)).yields around low
      exact hkey.mono (fun _ _ h => h) fun _ _ _ h => ⟨trivial, h.2⟩

/-! ## Checks -/

/-- The kind of a method is that of its accessor, if it has one. -/
theorem Checks.methodKind {key : PropertyKey} (h : S.Exact key.span.start)
    (computed isStatic : Bool) (m : Grammar.Modifiers) :
    S.Checks (Grammar.methodKind key computed isStatic m) fun kind =>
      kind.word? = m.accessor.bind MethodKind.word? := by
  unfold Grammar.methodKind
  dsimp only
  split
  · split
    · exact fail _ h
    split
    · exact fail _ h
    split
    · exact fail _ h
    · next hplain _ _ =>
      rw [Option.not_isSome_iff_eq_none] at hplain
      rw [hplain]
      rfl
  split
  · exact fail _ h
  · change (m.accessor.getD .method).word? = _
    cases m.accessor <;> rfl

theorem Checks.accessor (kind : MethodKind) {f : Function} (h : S.Exact f.span.start) :
    S.Checks (Grammar.checkAccessor kind f) fun _ => True := by
  unfold Grammar.checkAccessor
  split
  · trivial
  · exact fail _ h
  · split
    · exact fail _ h
    · trivial
  · exact fail _ h
  · trivial

/-! ## Elements -/

theorem Does.declarePrivate {P : Lexer → Prop} {name : PrivateName} (kind : MemberKind)
    {start : Position} (hname : S.Exact name.span.start) (hstart : S.Exact start) :
    S.Does around P (g.declarePrivate name kind start) fun _ => P := by
  unfold Grammar.declarePrivate
  refine .bind (.hook (hg.hooks.declareMember name kind start g.options hname hstart)) fun c => ?_
  exact .ite (fun _ => .pure fun _ h => h) fun _ => .halt (.unexpectedAt hname)

theorem Does.classMethod {start : Position} (hstart : S.Exact start) {key : PropertyKey}
    (hkey : S.Exact key.span.start) (computed : Bool) {isStatic : Bool} {m : Grammar.Modifiers}
    (hwords : S.positioned → Words S.source start.offset (modifierWords isStatic m.isAsync
      m.isGenerator (m.accessor.bind MethodKind.word?)) key.start.offset) :
    S.Does around (S.Past around start.offset (one .propertyKey key))
      (g.classMethod start key computed isStatic m)
      (S.Made around start.offset (one .classElement) fun _ => True) := by
  unfold Grammar.classMethod
  refine .ensure (.methodKind hkey computed isStatic m) fun kind hkind => ?_
  refine .bind (.update fun s hs => hg.hooks.enterMethod key s hs) fun saved => ?_
  have : Yields S (Parse.closing (Parse.update fun s => ((), g.hooks.exitMethod saved s))
      (g.methodFunction m.isAsync m.isGenerator)) functionPart
      fun f => f.isAsync = m.isAsync ∧ f.isGenerator = m.isGenerator :=
    .closing fun _ _ => .update fun s hs => hg.hooks.exitMethod saved s hs
  refine .step fun f ⟨hasync, hgenerator⟩ =>
    .assume (fun _ h => (allFormed_append.1 h.formed).2) fun hformed => ?_
  have hf : S.Exact f.span.start := (hformed _ List.mem_cons_self).start rfl
  refine .ensure (.accessor kind hf) fun _ _ => ?_
  have hmodified (stop : Position) (hpositioned : S.positioned) : S.IsModified .ordinary
      (.classElement (.method key kind f isStatic computed ⟨start, stop⟩)) := by
    change Words _ _ (modifierWords isStatic f.isAsync f.isGenerator kind.word?) _
    rw [hasync, hgenerator, hkind]
    exact hwords hpositioned
  refine .weaken
    (P := S.Past around start.offset (one .propertyKey key ++ plain [.methodValue key f]))
    (.done hstart (fun stop => ⟨rfl, rfl, rfl, rfl, trivial, ⟨trivial, trivial⟩, trivial, trivial,
      hmodified stop⟩) fun _ => trivial)
    fun _ _ h => ?_
  refine Past.wrap _ (.methodValue key f) h rfl rfl rfl ?_
  change ∀ c ∈ [Node.function f], c.isOrdinary
  simp

/-- The initializer of a field, behind the step into it. -/
abbrev initializerPart (e : Expression) : List Node.Part :=
  [⟨some (.code .fieldInitializer), .ordinary, .expression e⟩]

instance Yields.inFieldInitializer {p : Parse σ Expression} {fit : Expression → Prop}
    [Yields S p (one .expression) fit] :
    Yields S (Grammar.inFieldInitializer p) initializerPart fit :=
  Yields.within .fieldInitializer (fun e => [.expression e]) rfl (p := Parse.allowingIn p)

theorem Does.classField {start : Position} (hstart : S.Exact start) {key : PropertyKey}
    (hkey : S.Exact key.span.start) (computed : Bool) {isStatic : Bool}
    (hwords : S.positioned →
      Words S.source start.offset (modifierWords isStatic false false none) key.start.offset) :
    S.Does around (S.Past around start.offset (one .propertyKey key))
      (g.classField start key computed isStatic)
      (S.Made around start.offset (one .classElement) fun _ => True) := by
  have hend (value : Option Expression) (hvalue : ∀ e ∈ value, e.IsOperand) :
      S.Does around
        (S.Past around start.offset (one .propertyKey key ++ value.toList.flatMap initializerPart))
        (do
          endStatement
          return .field key value isStatic computed (← spanFrom start))
        (S.Made around start.offset (one .classElement) fun _ => True) := by
    refine .proceed fun _ => .done hstart
      (fun _ => ⟨rfl, ?_, rfl, rfl, hvalue, ⟨trivial, trivial⟩, trivial, trivial, hwords⟩)
      fun _ => trivial
    cases value <;> rfl
  unfold Grammar.classField
  refine .guarded (fun _ => .fail _ hkey) fun _ => .proceed fun c => .ite (fun _ => ?_) fun _ => ?_
  · refine .map (.step fun value hvalue => hend (some value) ?_)
    rintro _ ⟨⟩
    exact hvalue
  · exact hend none nofun

instance Continues.staticBlock (start : Position) :
    Continues S start (g.staticBlock start) (one .classElement) fun _ => True where
  continues around hstart := by
    have : Yields S (Parse.within Grammar.enterStaticBlock Grammar.leaveStaticBlock g.block)
        (fun body => (body.map .statement).map fun n => ⟨some (.code .staticBlock), .ordinary, n⟩)
        fun _ => True :=
      Yields.within .staticBlock (List.map Node.statement) rfl
    unfold Grammar.staticBlock
    refine .step fun body _ => .done hstart
      (fun _ => ⟨rfl, rfl, rfl, rfl, ?_, ⟨trivial, trivial⟩, trivial, trivial, fun _ => trivial⟩)
      fun _ => trivial
    change ∀ c ∈ body.map Node.statement, c.isOrdinary
    simp

instance Yields.classElement : Yields S g.classElement (one .classElement) fun _ => True where
  yields around low := by
    unfold Grammar.classElement
    refine .startWorded fun start hstart => .bind (.besides .staticRole) fun role => ?_
    refine .ite (fun _ => ?_) fun hrole => ?_
    · exact ((Continues.staticBlock start).continues around hstart).weaken fun _ _ h => h.1
    refine .weaken (P := Also (S.Before around start.offset [])
      (S.Worded start.offset (if role == .modifier then ["static"] else []))) ?_
      fun _ _ h => ⟨h.1, h.2 (by simpa using hrole)⟩
    refine .bind (.besides .modifiers) fun m => ?_
    refine .weaken (P := Also (S.Before around start.offset []) (S.Worded start.offset
      (modifierWords (role == .modifier) m.isAsync m.isGenerator
        (m.accessor.bind MethodKind.word?)))) ?_ fun _ _ h => ⟨h.1, ?_⟩
    · refine .key .classKey fun (key, computed) _ hwords => .observe fun isMethod => ?_
      refine .guarded (fun _ => inferInstance) fun hmethod => .formed fun hformed => ?_
      have hkey : S.Exact key.span.start := hformed.start rfl
      have hend : S.Does around (S.Past around start.offset (one .propertyKey key))
          (if isMethod then g.classMethod start key computed (role == .modifier) m
            else g.classField start key computed (role == .modifier))
          (S.Made around start.offset (one .classElement) fun _ => True) := by
        refine .ite (fun _ => .classMethod hstart hkey computed hwords) fun hfield => ?_
        refine .classField hstart hkey computed ?_
        have hplain : m.needMethod = false := by
          simpa [hfield] using hmethod
        simp only [Grammar.Modifiers.needMethod, Bool.or_eq_false_iff, Option.isSome_eq_false_iff,
          Option.isNone_iff_eq_none] at hplain
        rwa [hplain.1.1, hplain.1.2, hplain.2] at hwords
      cases key with
      | privateName name => exact .bind (.declarePrivate _ hkey hstart) fun _ => hend
      | _ => exact hend
    · have hworded := h.2.2
      simpa [modifierWords] using hworded

/-! ## Bodies and definitions -/

theorem Gathers.classElementsRound :
    S.Gathers around low [] .classElement (fun _ => True) g.classElementsRound := by
  intro elements
  unfold Grammar.classElementsRound
  refine .proceed fun c => .ite (fun _ => .pure fun _ h => h) fun _ => ?_
  refine .proceed fun c => .ite (fun _ => .pure fun _ h => h) fun _ => .item fun element => ?_
  have hstart {lexer : Lexer} (h : S.Gathered around low [] .classElement (fun _ => True)
      (elements.reverse ++ [element]) lexer) : S.Exact (Grammar.elementSpan element).start := by
    have hformed := allFormed_plain.1 h.2.formed (.classElement element) (by simp)
    exact hformed.start rfl
  refine .assume (fun _ h => hstart h) fun hstart => .guarded (fun _ => .fail _ hstart) fun _ => ?_
  exact .pure fun _ h => h.cons

theorem Does.classElements :
    S.Does around (S.Past around low []) g.classElements
      (S.Made around low (many .classElement) fun _ => True) := by
  unfold Grammar.classElements
  exact .after (.gather .classElementsRound) fun elements _ => .pure fun _ h => ⟨trivial, h⟩

instance Yields.classBody : Yields S g.classBody (one .classBody) fun _ => True where
  yields around low := by
    unfold Grammar.classBody
    refine .start fun start hstart => .advance fun _ => ?_
    refine .bind (.update fun s hs => hg.hooks.enterClass s hs) fun _ => ?_
    refine .after (.closing (fun _ => .hook hg.hooks.exitClass) .classElements) fun elements _ => ?_
    exact .done hstart (fun _ => .plain (by simp)) fun _ => trivial

variable (S) in
/-- The name, if there is one, is an identifier in the code of the class, which bears it. -/
def NamesClass (around : List Node.Step) (x : Option String × Class) : Prop :=
  ∀ name ∈ x.1, S.Bears (.classCode :: around) name x.2.span (Node.class_ x.2).children ∧
    S.Assigns (.classCode :: around) name

/-- A class is class code from its name on, but stands in what surrounds it. -/
theorem Does.classDefinition {start : Position} (hstart : S.Exact start) (isDeclaration : Bool) :
    S.Does around (S.Before around start.offset []) (g.classDefinition start isDeclaration)
      (S.Made around start.offset (one fun x => .class_ x.2) (S.NamesClass around)) := by
  let inner : List Node.Step := .classCode :: around
  have hend (name : Option String) (front : List Node.Part)
      (hname : ∀ rest lexer, S.Past inner start.offset (front ++ rest) lexer → ∀ n ∈ name,
        S.Bears inner n ⟨start, lexer.lastSpan.stop⟩ (rest.map Node.Part.node) ∧
          S.Assigns inner n) :
      S.Does inner (S.Past inner start.offset front) (do
        let superClass ← if ← acceptWord .extends_ then some <$> g.leftHandSide
          else Pure.pure none
        let body ← g.classBody
        return (name, ⟨superClass, body, ← Parse.spanFrom start⟩))
        (S.Made around start.offset (one fun x => .class_ x.2) (S.NamesClass around)) := by
    refine .proceed fun c => .optional fun superClass hsuperClass => .step fun body _ => ?_
    let rest : List Node := superClass.toList.map .expression ++ [.classBody body]
    have hrest (lexer : Lexer) (h : S.Past inner start.offset
        (front ++ many .expression superClass.toList ++ one .classBody body) lexer) :
        S.Past inner start.offset (front ++ plain rest) lexer := by
      rwa [plain, List.map_append, ← List.append_assoc]
    have hinside (lexer : Lexer) (h : S.Past inner start.offset
        (front ++ many .expression superClass.toList ++ one .classBody body) lexer) :
        S.Past around start.offset (rest.map fun n => ⟨some .classCode, .ordinary, n⟩) lexer :=
      (hrest lexer h).last.enclosed rest
    refine .madeWith .ordinary (fun span => .class_ ⟨superClass, body, span⟩) hstart hinside
      (fun lexer h => .plain ?_) fun span => .pure fun lexer h => ?_
    · simpa [or_imp, forall_and] using hsuperClass
    · obtain ⟨hmade, hpast, hspan⟩ := h
      have hbears := hname (plain rest) lexer (hrest lexer hpast)
      rw [map_node_plain] at hbears
      refine ⟨?_, hmade⟩
      rw [hspan]
      exact hbears
  unfold Grammar.classDefinition
  refine .advance fun _ => .within .classCode ?_
  change S.Does inner _ _ _
  refine .weaken (P := S.Past inner start.offset []) ?_ fun _ _ h => ⟨allFormed_nil, h.inOrder, h.less⟩
  refine .observe fun c => .ite (fun _ => ?_) fun _ => ?_
  · refine .map (.map (.step fun x _ => hend (some x.1) _ fun rest lexer h => ?_))
    rintro _ ⟨⟩
    exact Past.bears rest h
  · refine .ite (fun _ => .haltThen inferInstance) fun _ => hend none [] ?_
    rintro _ _ _ _ ⟨⟩

end Survey

end EcmaScript
