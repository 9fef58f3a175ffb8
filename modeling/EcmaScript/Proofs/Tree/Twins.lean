import EcmaScript.Grammar
import EcmaScript.Proofs.Tree.Bare
import Mathlib.Logic.Basic

/-!
Values that are the same up to positions.

Two values are twins if nothing but the positions in them tells them apart. The rules of the grammar
build twins from twins, and what they ask of a value does not depend on its positions; that is what
the instances here say, for constructors, for questions, and for the readings of expressions as
patterns and targets.
-/

namespace EcmaScript

/-! ## Types -/

instance : Bare Position := ⟨fun _ => .start⟩
instance : Bare Span := ⟨fun _ => .empty .start⟩

instance : Bare Unit := ⟨id⟩
instance : Bare Bool := ⟨id⟩
instance : Bare String := ⟨id⟩
instance : Bare Token := ⟨id⟩
instance : Bare Options := ⟨id⟩
instance : Bare Context := ⟨id⟩
instance : Bare NameRules := ⟨id⟩
instance : Bare MethodKind := ⟨id⟩
instance : Bare VariableKind := ⟨id⟩
instance : Bare TemplateElement := ⟨id⟩
instance : Bare Grammar.StaticRole := ⟨id⟩
instance : Bare Grammar.Modifiers := ⟨id⟩

instance : Exact Unit := ⟨fun _ => rfl⟩
instance : Exact Bool := ⟨fun _ => rfl⟩
instance : Exact String := ⟨fun _ => rfl⟩
instance : Exact Token := ⟨fun _ => rfl⟩
instance : Exact Options := ⟨fun _ => rfl⟩
instance : Exact Context := ⟨fun _ => rfl⟩
instance : Exact NameRules := ⟨fun _ => rfl⟩
instance : Exact MethodKind := ⟨fun _ => rfl⟩
instance : Exact VariableKind := ⟨fun _ => rfl⟩
instance : Exact TemplateElement := ⟨fun _ => rfl⟩
instance : Exact Grammar.StaticRole := ⟨fun _ => rfl⟩
instance : Exact Grammar.Modifiers := ⟨fun _ => rfl⟩

instance : Bare PrivateName := ⟨PrivateName.bare⟩
instance : Bare Expression := ⟨Expression.bare⟩
instance : Bare AssignmentTarget := ⟨AssignmentTarget.bare⟩
instance : Bare ObjectProperty := ⟨ObjectProperty.bare⟩
instance : Bare PropertyKey := ⟨PropertyKey.bare⟩
instance : Bare Pattern := ⟨Pattern.bare⟩
instance : Bare PatternProperty := ⟨PatternProperty.bare⟩
instance : Bare ArrowBody := ⟨ArrowBody.bare⟩
instance : Bare Function := ⟨Function.bare⟩
instance : Bare Class := ⟨Class.bare⟩
instance : Bare ClassBody := ⟨ClassBody.bare⟩
instance : Bare ClassElement := ⟨ClassElement.bare⟩
instance : Bare Declarator := ⟨Declarator.bare⟩
instance : Bare ForInit := ⟨ForInit.bare⟩
instance : Bare ForTarget := ⟨ForTarget.bare⟩
instance : Bare CatchClause := ⟨CatchClause.bare⟩
instance : Bare SwitchCase := ⟨SwitchCase.bare⟩
instance : Bare Statement := ⟨Statement.bare⟩
instance : Bare Program := ⟨Program.bare⟩

section

variable {α β : Type} [Bare α] [Bare β]

instance : Bare (Option α) := ⟨Option.map bare⟩
instance : Bare (List α) := ⟨List.map bare⟩
instance : Bare (α × β) := ⟨Prod.map bare bare⟩

instance : Bare (Round α β) where
  bare
    | .again a => .again (bare a)
    | .stop b => .stop (bare b)

instance [Exact α] : Exact (Option α) where
  bare_eq a := by cases a <;> simp [bare, Exact.bare_eq]

instance [Exact α] : Exact (List α) where
  bare_eq l := (List.map_congr_left fun a _ => Exact.bare_eq a).trans (List.map_id l)

instance [Exact α] [Exact β] : Exact (α × β) where
  bare_eq _ := Prod.ext (Exact.bare_eq _) (Exact.bare_eq _)

end

instance : Bare Grammar.ListRead := ⟨fun list => ⟨bare list.statements, list.inPrologue⟩⟩

instance : Bare Grammar.TemplateRead := ⟨fun list => ⟨list.quasis, bare list.expressions⟩⟩

instance : Bare Grammar.ParenRead :=
  ⟨fun list => ⟨bare list.items, bare list.rest, list.trailingComma⟩⟩

/-! ## Lists in trees -/

theorem bareExpressions_eq : ∀ list, bareExpressions list = bare list
  | [] => rfl
  | e :: rest => congrArg (e.bare :: ·) (bareExpressions_eq rest)

theorem bareOptional_eq (e : Option Expression) : bareOptional e = bare e := by cases e <;> rfl

theorem bareElements_eq : ∀ list, bareElements list = bare list
  | [] => rfl
  | none :: rest => congrArg (none :: ·) (bareElements_eq rest)
  | some e :: rest => congrArg (some e.bare :: ·) (bareElements_eq rest)

theorem bareProperties_eq : ∀ list, bareProperties list = bare list
  | [] => rfl
  | p :: rest => congrArg (p.bare :: ·) (bareProperties_eq rest)

theorem barePatterns_eq : ∀ list, barePatterns list = bare list
  | [] => rfl
  | p :: rest => congrArg (p.bare :: ·) (barePatterns_eq rest)

theorem bareOptionalPattern_eq (p : Option Pattern) : bareOptionalPattern p = bare p := by
  cases p <;> rfl

theorem barePatternElements_eq : ∀ list, barePatternElements list = bare list
  | [] => rfl
  | none :: rest => congrArg (none :: ·) (barePatternElements_eq rest)
  | some p :: rest => congrArg (some p.bare :: ·) (barePatternElements_eq rest)

theorem barePatternProperties_eq : ∀ list, barePatternProperties list = bare list
  | [] => rfl
  | p :: rest => congrArg (p.bare :: ·) (barePatternProperties_eq rest)

theorem bareClassElements_eq : ∀ list, bareClassElements list = bare list
  | [] => rfl
  | e :: rest => congrArg (e.bare :: ·) (bareClassElements_eq rest)

theorem bareDeclarators_eq : ∀ list, bareDeclarators list = bare list
  | [] => rfl
  | d :: rest => congrArg (d.bare :: ·) (bareDeclarators_eq rest)

theorem bareCases_eq : ∀ list, bareCases list = bare list
  | [] => rfl
  | c :: rest => congrArg (c.bare :: ·) (bareCases_eq rest)

theorem bareStatements_eq : ∀ list, bareStatements list = bare list
  | [] => rfl
  | s :: rest => congrArg (s.bare :: ·) (bareStatements_eq rest)

theorem bareOptionalInit_eq (init : Option ForInit) : bareOptionalInit init = bare init := by
  cases init <;> rfl

theorem bareOptionalHandler_eq (handler : Option CatchClause) :
    bareOptionalHandler handler = bare handler := by
  cases handler <;> rfl

theorem bareOptionalStatement_eq (s : Option Statement) : bareOptionalStatement s = bare s := by
  cases s <;> rfl

theorem bareOptionalStatements_eq : ∀ body, bareOptionalStatements body = bare body
  | none => rfl
  | some body => congrArg some (bareStatements_eq body)

/-! ## Twins -/

/-- The values are the same up to positions. -/
class Twins {α : Type} [Bare α] (a a' : α) : Prop where
  bare_eq : bare a = bare a'

/-- Two values that are the same up to positions. -/
structure TwinPair (α : Type) [Bare α] where
  left : α
  right : α
  twins : Twins left right

export Twins (bare_eq)

namespace Twins

/-- The counterpart of `congrArg₂` for three arguments. -/
theorem congr₃ {α β γ δ : Type} (f : α → β → γ → δ) {a a' : α} {b b' : β} {c c' : γ}
    (ha : a = a') (hb : b = b') (hc : c = c') : f a b c = f a' b' c' := by
  rw [ha, hb, hc]

section

variable {α β : Type} [Bare α] [Bare β] {a a' : α} {b b' : β} {l l' m m' : List α}

instance refl (a : α) : Twins a a := ⟨rfl⟩

theorem symm (h : Twins a a') : Twins a' a := ⟨h.bare_eq.symm⟩

instance pair (x : TwinPair α) : Twins x.left x.right := x.twins

theorem eq [Exact α] (h : Twins a a') : a = a' := by
  rw [← Exact.bare_eq a, ← Exact.bare_eq a', h.bare_eq]

instance position (p p' : Position) : Twins p p' := ⟨rfl⟩

instance span (s s' : Span) : Twins s s' := ⟨rfl⟩

instance prod [Twins a a'] [Twins b b'] : Twins (a, b) (a', b') :=
  ⟨congrArg₂ Prod.mk bare_eq bare_eq⟩

instance fst {p p' : α × β} [h : Twins p p'] : Twins p.1 p'.1 := ⟨congrArg Prod.fst h.bare_eq⟩

instance snd {p p' : α × β} [h : Twins p p'] : Twins p.2 p'.2 := ⟨congrArg Prod.snd h.bare_eq⟩

instance ofSome [Twins a a'] : Twins (some a) (some a') := ⟨congrArg Option.some bare_eq⟩

instance cons [Twins a a'] [Twins l l'] : Twins (a :: l) (a' :: l') :=
  ⟨congrArg₂ List.cons bare_eq bare_eq⟩

instance append [hl : Twins l l'] [hm : Twins m m'] : Twins (l ++ m) (l' ++ m') := by
  have hl := hl.bare_eq
  have hm := hm.bare_eq
  refine ⟨?_⟩
  simp only [bare, List.map_append] at hl hm ⊢
  rw [hl, hm]

instance reverse [h : Twins l l'] : Twins l.reverse l'.reverse := by
  have h := h.bare_eq
  refine ⟨?_⟩
  simp only [bare, List.map_reverse] at h ⊢
  rw [h]

instance toList {o o' : Option α} [h : Twins o o'] : Twins o.toList o'.toList := by
  have h := h.bare_eq
  cases o <;> cases o'
  · infer_instance
  · cases h
  · cases h
  · exact ⟨congrArg Option.toList h⟩

instance again [Twins a a'] : Twins (Round.again a : Round α β) (.again a') :=
  ⟨congrArg Round.again bare_eq⟩

instance stop [Twins b b'] : Twins (Round.stop b : Round α β) (.stop b') :=
  ⟨congrArg Round.stop bare_eq⟩

/-- Twin options are both there or both not. -/
theorem isSome_eq {o o' : Option α} (h : Twins o o') : o.isSome = o'.isSome := by
  have h := congrArg Option.isSome h.bare_eq
  simpa [bare] using h

instance isSome {o o' : Option α} [h : Twins o o'] : Twins o.isSome o'.isSome := ⟨h.isSome_eq⟩

instance isNone {o o' : Option α} [h : Twins o o'] : Twins o.isNone o'.isNone := by
  refine ⟨?_⟩
  change o.isNone = o'.isNone
  rw [← Option.not_isSome, ← Option.not_isSome, h.isSome_eq]

instance and {p p' q q' : Bool} [hp : Twins p p'] [hq : Twins q q'] :
    Twins (p && q) (p' && q') := by
  rw [hp.eq, hq.eq]
  infer_instance

instance or {p p' q q' : Bool} [hp : Twins p p'] [hq : Twins q q'] :
    Twins (p || q) (p' || q') := by
  rw [hp.eq, hq.eq]
  infer_instance

instance not {p p' : Bool} [hp : Twins p p'] : Twins (!p) (!p') := by
  rw [hp.eq]
  infer_instance

instance beq [Exact α] [BEq α] (c : α) [h : Twins a a'] : Twins (a == c) (a' == c) := by
  rw [h.eq]
  infer_instance

instance ite {p p' : Bool} [hp : Twins p p'] [ha : Twins a a'] {c c' : α} [hc : Twins c c'] :
    Twins (if p then a else c) (if p' then a' else c') := by
  rw [hp.eq]
  cases p' <;> assumption

end

/-! ### What has been read -/

section

open Grammar

variable {l l' : ListRead} {t t' : TemplateRead} {p p' : ParenRead}

instance listRead {b b' : List Statement} {d d' : Bool} [Twins b b'] [Twins d d'] :
    Twins (ListRead.mk b d) ⟨b', d'⟩ :=
  ⟨congrArg₂ ListRead.mk bare_eq bare_eq⟩

instance listStatements [h : Twins l l'] : Twins l.statements l'.statements :=
  ⟨congrArg ListRead.statements h.bare_eq⟩

instance inPrologue [h : Twins l l'] : Twins l.inPrologue l'.inPrologue :=
  ⟨(congrArg ListRead.inPrologue h.bare_eq :)⟩

theorem quasis_eq (h : Twins t t') : t.quasis = t'.quasis :=
  (congrArg TemplateRead.quasis h.bare_eq :)

instance templateRead {q q' : List TemplateElement} {es es' : List Expression} [hq : Twins q q']
    [Twins es es'] : Twins (TemplateRead.mk q es) ⟨q', es'⟩ :=
  ⟨congrArg₂ TemplateRead.mk hq.eq bare_eq⟩

instance quasis [h : Twins t t'] : Twins t.quasis t'.quasis := ⟨congrArg bare h.quasis_eq⟩

instance templateExpressions [h : Twins t t'] : Twins t.expressions t'.expressions :=
  ⟨congrArg TemplateRead.expressions h.bare_eq⟩

instance parenRead {es es' : List Expression} {r r' : Option Pattern} {c c' : Bool} [Twins es es']
    [Twins r r'] [Twins c c'] : Twins (ParenRead.mk es r c) ⟨es', r', c'⟩ :=
  ⟨congr₃ ParenRead.mk bare_eq bare_eq bare_eq⟩

instance parenItems [h : Twins p p'] : Twins p.items p'.items :=
  ⟨congrArg ParenRead.items h.bare_eq⟩

instance parenRest [h : Twins p p'] : Twins p.rest p'.rest :=
  ⟨congrArg ParenRead.rest h.bare_eq⟩

instance trailingComma [h : Twins p p'] : Twins p.trailingComma p'.trailingComma :=
  ⟨(congrArg ParenRead.trailingComma h.bare_eq :)⟩

end

/-! ### Lists in trees -/

section

theorem expressions {l l' : List Expression} [h : Twins l l'] :
    bareExpressions l = bareExpressions l' := by
  simpa only [bareExpressions_eq] using h.bare_eq

theorem optional {e e' : Option Expression} [h : Twins e e'] :
    bareOptional e = bareOptional e' := by
  simpa only [bareOptional_eq] using h.bare_eq

theorem elements {l l' : List (Option Expression)} [h : Twins l l'] :
    bareElements l = bareElements l' := by
  simpa only [bareElements_eq] using h.bare_eq

theorem properties {l l' : List ObjectProperty} [h : Twins l l'] :
    bareProperties l = bareProperties l' := by
  simpa only [bareProperties_eq] using h.bare_eq

theorem patterns {l l' : List Pattern} [h : Twins l l'] : barePatterns l = barePatterns l' := by
  simpa only [barePatterns_eq] using h.bare_eq

theorem optionalPattern {p p' : Option Pattern} [h : Twins p p'] :
    bareOptionalPattern p = bareOptionalPattern p' := by
  simpa only [bareOptionalPattern_eq] using h.bare_eq

theorem patternElements {l l' : List (Option Pattern)} [h : Twins l l'] :
    barePatternElements l = barePatternElements l' := by
  simpa only [barePatternElements_eq] using h.bare_eq

theorem patternProperties {l l' : List PatternProperty} [h : Twins l l'] :
    barePatternProperties l = barePatternProperties l' := by
  simpa only [barePatternProperties_eq] using h.bare_eq

theorem classElements {l l' : List ClassElement} [h : Twins l l'] :
    bareClassElements l = bareClassElements l' := by
  simpa only [bareClassElements_eq] using h.bare_eq

theorem declarators {l l' : List Declarator} [h : Twins l l'] :
    bareDeclarators l = bareDeclarators l' := by
  simpa only [bareDeclarators_eq] using h.bare_eq

theorem cases {l l' : List SwitchCase} [h : Twins l l'] : bareCases l = bareCases l' := by
  simpa only [bareCases_eq] using h.bare_eq

theorem statements {l l' : List Statement} [h : Twins l l'] :
    bareStatements l = bareStatements l' := by
  simpa only [bareStatements_eq] using h.bare_eq

theorem optionalInit {i i' : Option ForInit} [h : Twins i i'] :
    bareOptionalInit i = bareOptionalInit i' := by
  simpa only [bareOptionalInit_eq] using h.bare_eq

theorem optionalHandler {c c' : Option CatchClause} [h : Twins c c'] :
    bareOptionalHandler c = bareOptionalHandler c' := by
  simpa only [bareOptionalHandler_eq] using h.bare_eq

theorem optionalStatement {s s' : Option Statement} [h : Twins s s'] :
    bareOptionalStatement s = bareOptionalStatement s' := by
  simpa only [bareOptionalStatement_eq] using h.bare_eq

theorem optionalStatements {b b' : Option (List Statement)} [h : Twins b b'] :
    bareOptionalStatements b = bareOptionalStatements b' := by
  simpa only [bareOptionalStatements_eq] using h.bare_eq

end

/-! ### Expressions -/

section

variable {e e' f f' h h' : Expression} {es es' : List Expression} {o o' : Option Expression}
  {s s' : Span}

instance identifier (name : String) :
    Twins (Expression.identifier name s) (.identifier name s') := ⟨rfl⟩

instance privateName {n n' : PrivateName} [Twins n n'] :
    Twins (Expression.privateName n) (.privateName n') :=
  ⟨congrArg Expression.privateName bare_eq⟩

instance literal (value : Literal) : Twins (Expression.literal value s) (.literal value s') := ⟨rfl⟩

instance binary (operator : BinaryOperator) [Twins e e'] [Twins f f'] :
    Twins (Expression.binary operator e f s) (.binary operator e' f' s') :=
  ⟨congrArg₂ (Expression.binary operator · · (.empty .start)) bare_eq bare_eq⟩

instance logical (operator : LogicalOperator) [Twins e e'] [Twins f f'] :
    Twins (Expression.logical operator e f s) (.logical operator e' f' s') :=
  ⟨congrArg₂ (Expression.logical operator · · (.empty .start)) bare_eq bare_eq⟩

instance unary (operator : UnaryOperator) [Twins e e'] :
    Twins (Expression.unary operator e s) (.unary operator e' s') :=
  ⟨congrArg (Expression.unary operator · (.empty .start)) bare_eq⟩

instance update (operator : UpdateOperator) (inFront : Bool) [Twins e e'] :
    Twins (Expression.update operator inFront e s) (.update operator inFront e' s') :=
  ⟨congrArg (Expression.update operator inFront · (.empty .start)) bare_eq⟩

instance assignment (operator : AssignmentOperator) {t t' : AssignmentTarget} [Twins t t']
    [Twins e e'] : Twins (Expression.assignment operator t e s) (.assignment operator t' e' s') :=
  ⟨congrArg₂ (Expression.assignment operator · · (.empty .start)) bare_eq bare_eq⟩

instance conditional [Twins e e'] [Twins f f'] [Twins h h'] :
    Twins (Expression.conditional e f h s) (.conditional e' f' h' s') :=
  ⟨congr₃ (Expression.conditional · · · (.empty .start)) bare_eq bare_eq bare_eq⟩

instance call (optional : Bool) [Twins e e'] [Twins es es'] :
    Twins (Expression.call e es optional s) (.call e' es' optional s') :=
  ⟨congrArg₂ (Expression.call · · optional (.empty .start)) bare_eq expressions⟩

instance member (computed optional : Bool) [Twins e e'] [Twins f f'] :
    Twins (Expression.member e f computed optional s) (.member e' f' computed optional s') :=
  ⟨congrArg₂ (Expression.member · · computed optional (.empty .start)) bare_eq bare_eq⟩

instance new [Twins e e'] [Twins es es'] : Twins (Expression.new e es s) (.new e' es' s') :=
  ⟨congrArg₂ (Expression.new · · (.empty .start)) bare_eq expressions⟩

instance array {l l' : List (Option Expression)} [Twins l l'] :
    Twins (Expression.array l s) (.array l' s') :=
  ⟨congrArg (Expression.array · (.empty .start)) elements⟩

instance object {l l' : List ObjectProperty} [Twins l l'] :
    Twins (Expression.object l s) (.object l' s') :=
  ⟨congrArg (Expression.object · (.empty .start)) properties⟩

instance arrow (isAsync : Bool) {params params' : List Pattern} {body body' : ArrowBody}
    [Twins params params'] [Twins body body'] :
    Twins (Expression.arrow params body isAsync s) (.arrow params' body' isAsync s') :=
  ⟨congrArg₂ (Expression.arrow · · isAsync (.empty .start)) patterns bare_eq⟩

instance function (name : Option String) {k k' : Function} [Twins k k'] :
    Twins (Expression.function name k) (.function name k') :=
  ⟨congrArg (Expression.function name) bare_eq⟩

instance class_ (name : Option String) {k k' : Class} [Twins k k'] :
    Twins (Expression.class_ name k) (.class_ name k') :=
  ⟨congrArg (Expression.class_ name) bare_eq⟩

instance this : Twins (Expression.this s) (.this s') := ⟨rfl⟩

instance super : Twins (Expression.super s) (.super s') := ⟨rfl⟩

instance await [Twins e e'] : Twins (Expression.await e s) (.await e' s') :=
  ⟨congrArg (Expression.await · (.empty .start)) bare_eq⟩

instance yield (delegate : Bool) [Twins o o'] :
    Twins (Expression.yield o delegate s) (.yield o' delegate s') :=
  ⟨congrArg (Expression.yield · delegate (.empty .start)) optional⟩

instance template {q q' : List TemplateElement} [hq : Twins q q'] [Twins es es'] :
    Twins (Expression.template q es s) (.template q' es' s') :=
  ⟨congrArg₂ (Expression.template · · (.empty .start)) hq.eq expressions⟩

instance taggedTemplate [Twins e e'] [Twins f f'] :
    Twins (Expression.taggedTemplate e f s) (.taggedTemplate e' f' s') :=
  ⟨congrArg₂ (Expression.taggedTemplate · · (.empty .start)) bare_eq bare_eq⟩

instance spread [Twins e e'] : Twins (Expression.spread e s) (.spread e' s') :=
  ⟨congrArg (Expression.spread · (.empty .start)) bare_eq⟩

instance sequence [Twins es es'] : Twins (Expression.sequence es s) (.sequence es' s') :=
  ⟨congrArg (Expression.sequence · (.empty .start)) expressions⟩

instance join (operator : InfixOperator) [Twins e e'] [Twins f f'] :
    Twins (operator.join e f s) (operator.join e' f' s') := by
  cases operator <;> dsimp only [InfixOperator.join] <;> infer_instance

/-! ### Parts of expressions -/

instance name (text : String) : Twins (PrivateName.mk text s) ⟨text, s'⟩ := ⟨rfl⟩

instance simple [Twins e e'] : Twins (AssignmentTarget.simple e) (.simple e') :=
  ⟨congrArg AssignmentTarget.simple bare_eq⟩

instance property (kind : PropertyKind) (method shorthand computed : Bool) {k k' : PropertyKey}
    [Twins k k'] [Twins e e'] :
    Twins (ObjectProperty.property k e kind method shorthand computed s)
      (.property k' e' kind method shorthand computed s') :=
  ⟨congrArg₂ (ObjectProperty.property · · kind method shorthand computed (.empty .start))
    bare_eq bare_eq⟩

instance spreadProperty [Twins e e'] : Twins (ObjectProperty.spread e s) (.spread e' s') :=
  ⟨congrArg (ObjectProperty.spread · (.empty .start)) bare_eq⟩

instance identifierKey (name : String) :
    Twins (PropertyKey.identifier name s) (.identifier name s') := ⟨rfl⟩

instance privateKey {n n' : PrivateName} [Twins n n'] :
    Twins (PropertyKey.privateName n) (.privateName n') :=
  ⟨congrArg PropertyKey.privateName bare_eq⟩

instance stringKey (value : String) :
    Twins (PropertyKey.string value s) (.string value s') := ⟨rfl⟩

instance numberKey (value : Binary64) :
    Twins (PropertyKey.number value s) (.number value s') := ⟨rfl⟩

instance computedKey [Twins e e'] : Twins (PropertyKey.computed e s) (.computed e' s') :=
  ⟨congrArg (PropertyKey.computed · (.empty .start)) bare_eq⟩

instance expressionBody [Twins e e'] : Twins (ArrowBody.expression e) (.expression e') :=
  ⟨congrArg ArrowBody.expression bare_eq⟩

instance blockBody {b b' : List Statement} [Twins b b'] :
    Twins (ArrowBody.block b) (.block b') :=
  ⟨congrArg ArrowBody.block statements⟩

end

/-! ### Patterns -/

section

variable {p p' : Pattern} {e e' : Expression} {s s' : Span}

instance identifierPattern (name : String) :
    Twins (Pattern.identifier name s) (.identifier name s') := ⟨rfl⟩

instance objectPattern {l l' : List PatternProperty} {rest rest' : Option Pattern} [Twins l l']
    [Twins rest rest'] : Twins (Pattern.object l rest s) (.object l' rest' s') :=
  ⟨congrArg₂ (Pattern.object · · (.empty .start)) patternProperties optionalPattern⟩

instance arrayPattern {l l' : List (Option Pattern)} [Twins l l'] :
    Twins (Pattern.array l s) (.array l' s') :=
  ⟨congrArg (Pattern.array · (.empty .start)) patternElements⟩

instance withDefault [Twins p p'] [Twins e e'] :
    Twins (Pattern.withDefault p e s) (.withDefault p' e' s') :=
  ⟨congrArg₂ (Pattern.withDefault · · (.empty .start)) bare_eq bare_eq⟩

instance rest [Twins p p'] : Twins (Pattern.rest p s) (.rest p' s') :=
  ⟨congrArg (Pattern.rest · (.empty .start)) bare_eq⟩

instance memberPattern [Twins e e'] : Twins (Pattern.member e) (.member e') :=
  ⟨congrArg Pattern.member bare_eq⟩

instance patternTarget [Twins p p'] : Twins (AssignmentTarget.pattern p) (.pattern p') :=
  ⟨congrArg AssignmentTarget.pattern bare_eq⟩

instance patternProperty (shorthand : Bool) {k k' : PropertyKey} [Twins k k'] [Twins p p'] :
    Twins (PatternProperty.mk k p shorthand) ⟨k', p', shorthand⟩ :=
  ⟨congrArg₂ (PatternProperty.mk · · shorthand) bare_eq bare_eq⟩

end

/-! ### Functions and classes -/

section

variable {s s' : Span} {k k' : PropertyKey}

instance functionMk (isAsync isGenerator : Bool) {params params' : List Pattern}
    {body body' : List Statement} [Twins params params'] [Twins body body'] :
    Twins (Function.mk params body isAsync isGenerator s)
      ⟨params', body', isAsync, isGenerator, s'⟩ :=
  ⟨congrArg₂ (Function.mk · · isAsync isGenerator (.empty .start)) patterns statements⟩

instance classMk {superClass superClass' : Option Expression} {body body' : ClassBody}
    [Twins superClass superClass'] [Twins body body'] :
    Twins (Class.mk superClass body s) ⟨superClass', body', s'⟩ :=
  ⟨congrArg₂ (Class.mk · · (.empty .start)) optional bare_eq⟩

instance classBody {l l' : List ClassElement} [Twins l l'] :
    Twins (ClassBody.mk l s) ⟨l', s'⟩ :=
  ⟨congrArg (ClassBody.mk · (.empty .start)) classElements⟩

instance method (kind : MethodKind) (isStatic computed : Bool) {f f' : Function} [Twins k k']
    [Twins f f'] : Twins (ClassElement.method k kind f isStatic computed s)
      (.method k' kind f' isStatic computed s') :=
  ⟨congrArg₂ (ClassElement.method · kind · isStatic computed (.empty .start)) bare_eq bare_eq⟩

instance field (isStatic computed : Bool) {v v' : Option Expression} [Twins k k'] [Twins v v'] :
    Twins (ClassElement.field k v isStatic computed s) (.field k' v' isStatic computed s') :=
  ⟨congrArg₂ (ClassElement.field · · isStatic computed (.empty .start)) bare_eq optional⟩

instance staticBlock {b b' : List Statement} [Twins b b'] :
    Twins (ClassElement.staticBlock b s) (.staticBlock b' s') :=
  ⟨congrArg (ClassElement.staticBlock · (.empty .start)) statements⟩

end

/-! ### Statements -/

section

variable {e e' f f' : Expression} {o o' u u' : Option Expression} {t t' v v' : Statement}
  {b b' c c' : List Statement} {s s' : Span}

instance declarator {p p' : Pattern} [Twins p p'] [Twins o o'] :
    Twins (Declarator.mk p o) ⟨p', o'⟩ :=
  ⟨congrArg₂ Declarator.mk bare_eq optional⟩

instance variableStatement (kind : VariableKind) {l l' : List Declarator} [Twins l l'] :
    Twins (Statement.variables kind l s) (.variables kind l' s') :=
  ⟨congrArg (Statement.variables kind · (.empty .start)) declarators⟩

instance functionStatement (name : String) {k k' : Function} [Twins k k'] :
    Twins (Statement.function name k) (.function name k') :=
  ⟨congrArg (Statement.function name) bare_eq⟩

instance classStatement (name : String) {k k' : Class} [Twins k k'] :
    Twins (Statement.class_ name k) (.class_ name k') :=
  ⟨congrArg (Statement.class_ name) bare_eq⟩

instance expressionStatement [Twins e e'] : Twins (Statement.expression e s) (.expression e' s') :=
  ⟨congrArg (Statement.expression · (.empty .start)) bare_eq⟩

instance return_ [Twins o o'] : Twins (Statement.return_ o s) (.return_ o' s') :=
  ⟨congrArg (Statement.return_ · (.empty .start)) optional⟩

instance if_ {w w' : Option Statement} [Twins e e'] [Twins t t'] [Twins w w'] :
    Twins (Statement.if_ e t w s) (.if_ e' t' w' s') :=
  ⟨congr₃ (Statement.if_ · · · (.empty .start)) bare_eq bare_eq optionalStatement⟩

instance while_ [Twins e e'] [Twins t t'] : Twins (Statement.while e t s) (.while e' t' s') :=
  ⟨congrArg₂ (Statement.while · · (.empty .start)) bare_eq bare_eq⟩

instance doWhile [Twins t t'] [Twins e e'] : Twins (Statement.doWhile t e s) (.doWhile t' e' s') :=
  ⟨congrArg₂ (Statement.doWhile · · (.empty .start)) bare_eq bare_eq⟩

instance for_ {i i' : Option ForInit} [Twins i i'] [Twins o o'] [Twins u u'] [Twins t t'] :
    Twins (Statement.for_ i o u t s) (.for_ i' o' u' t' s') :=
  ⟨(congr₃ (Statement.for_ · · · _ _) optionalInit optional optional).trans <|
    congrArg (Statement.for_ _ _ _ · (.empty .start)) bare_eq⟩

instance forIn {i i' : ForTarget} [Twins i i'] [Twins e e'] [Twins t t'] :
    Twins (Statement.forIn i e t s) (.forIn i' e' t' s') :=
  ⟨congr₃ (Statement.forIn · · · (.empty .start)) bare_eq bare_eq bare_eq⟩

instance forOf {i i' : ForTarget} [Twins i i'] [Twins e e'] [Twins t t'] :
    Twins (Statement.forOf i e t s) (.forOf i' e' t' s') :=
  ⟨congr₃ (Statement.forOf · · · (.empty .start)) bare_eq bare_eq bare_eq⟩

instance block [Twins b b'] : Twins (Statement.block b s) (.block b' s') :=
  ⟨congrArg (Statement.block · (.empty .start)) statements⟩

instance empty : Twins (Statement.empty s) (.empty s') := ⟨rfl⟩

instance break_ (label : Option String) : Twins (Statement.break_ label s) (.break_ label s') :=
  ⟨rfl⟩

instance continue_ (label : Option String) :
    Twins (Statement.continue_ label s) (.continue_ label s') := ⟨rfl⟩

instance throw [Twins e e'] : Twins (Statement.throw e s) (.throw e' s') :=
  ⟨congrArg (Statement.throw · (.empty .start)) bare_eq⟩

instance try_ {k k' : Option CatchClause} {d d' : Option (List Statement)} [Twins b b']
    [Twins k k'] [Twins d d'] : Twins (Statement.try_ b k d s) (.try_ b' k' d' s') :=
  ⟨congr₃ (Statement.try_ · · · (.empty .start)) statements optionalHandler optionalStatements⟩

instance switch {l l' : List SwitchCase} [Twins e e'] [Twins l l'] :
    Twins (Statement.switch e l s) (.switch e' l' s') :=
  ⟨congrArg₂ (Statement.switch · · (.empty .start)) bare_eq cases⟩

instance debugger : Twins (Statement.debugger s) (.debugger s') := ⟨rfl⟩

instance labeled (label : String) [Twins t t'] :
    Twins (Statement.labeled label t s) (.labeled label t' s') :=
  ⟨congrArg (Statement.labeled label · (.empty .start)) bare_eq⟩

instance forVariables (kind : VariableKind) {l l' : List Declarator} [Twins l l'] :
    Twins (ForInit.variables kind l) (.variables kind l') :=
  ⟨congrArg (ForInit.variables kind) declarators⟩

instance forExpression [Twins e e'] : Twins (ForInit.expression e) (.expression e') :=
  ⟨congrArg ForInit.expression bare_eq⟩

instance forVariable (kind : VariableKind) {p p' : Pattern} [Twins p p'] :
    Twins (ForTarget.variable kind p) (.variable kind p') :=
  ⟨congrArg (ForTarget.variable kind) bare_eq⟩

instance forSimple [Twins e e'] : Twins (ForTarget.expression e) (.expression e') :=
  ⟨congrArg ForTarget.expression bare_eq⟩

instance forPattern {p p' : Pattern} [Twins p p'] :
    Twins (ForTarget.pattern p) (.pattern p') :=
  ⟨congrArg ForTarget.pattern bare_eq⟩

instance catchClause {p p' : Option Pattern} [Twins p p'] [Twins b b'] :
    Twins (CatchClause.mk p b) ⟨p', b'⟩ :=
  ⟨congrArg₂ CatchClause.mk optionalPattern statements⟩

instance switchCase [Twins o o'] [Twins b b'] : Twins (SwitchCase.mk o b) ⟨o', b'⟩ :=
  ⟨congrArg₂ SwitchCase.mk optional statements⟩

instance program [Twins b b'] : Twins (Program.mk b s) ⟨b', s'⟩ :=
  ⟨congrArg (Program.mk · (.empty .start)) statements⟩

end

end Twins

end EcmaScript
