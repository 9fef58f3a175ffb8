import EcmaScript.Proofs.Script.Statement
import EcmaScript.Proofs.Tree.Questions

/-!
Orderly scripts.

A script is orderly if every step of it fits to what is known in front of it: which token comes next,
what braces and substitutions are open, and whether a token or a private name has been consumed. It
looks two tokens ahead only where it faces a word, and reads again only a slash or the closing brace
of a substitution that it has looked at; a round of a loop that goes on has consumed a token and has
closed what it has opened; rules that recur are called behind a token, and a statement never directly
in the head of a loop; hooks are asked about private names behind private names only.

Orderliness relates two scripts that take the same steps wherever they get the same answers up to
positions, so that no decision of a rule depends on a position. Each rule is shown to be orderly once;
what follows from it is proved by induction on the relation.
-/

namespace EcmaScript

/-! ## What is known at a step -/

/-- What is known of the next token. -/
inductive View where
  | any
  /-- It has been looked at. -/
  | facing (token : Token)

/-- What a closing brace may close. -/
inductive Opening where
  | brace
  | substitution
deriving DecidableEq

/-- A change of what is open, innermost first. -/
abbrev Nesting := List Opening → List Opening

namespace Token

/-- Whether the token is a word, which is never read again. -/
def isWord : Token → Bool
  | .identifier _ _ | .keyword _ => true
  | _ => false

/-- Whether the token is one that a regular expression may begin with. -/
def isSlash (token : Token) : Bool :=
  token == .punctuator .slash || token == .punctuator .slashEq

@[reducible] def isEnd : Token → Bool
  | .endOfInput => true
  | _ => false

@[reducible] def isPrivateName : Token → Bool
  | .privateName _ => true
  | _ => false

@[reducible] def nest : Token → Nesting
  | .punctuator .lBrace, opened => .brace :: opened
  | .punctuator .rBrace, opened => opened.tail
  | .templateHead _, opened | .templateMiddle _, opened => .substitution :: opened
  | _, opened => opened

/-- There is such a token, and it opens and closes nothing. -/
structure IsPlain (token : Token) : Prop where
  nest_eq : ∀ opened, token.nest opened = opened
  isEnd_eq : token.isEnd = false

end Token

/-- What is known in front of a step. -/
structure Known where
  view : View
  /-- What is open, given what is open around the script. -/
  opened : Nesting
  /-- Whether a token has been consumed, in a loop by this round. -/
  moved : Bool
  /-- Whether a private name has been consumed. -/
  named : Bool

namespace Known

variable (known : Known)

/-- Behind a look at the next token. -/
@[reducible] def facing (token : Token) : Known := { known with view := .facing token }

@[reducible] def blind : Known := { known with view := .any }

@[reducible] def past (token : Token) : Known where
  view := .any
  opened around := token.nest (known.opened around)
  moved := !token.isEnd || known.moved
  named := known.named

/-- Behind a private name, if the condition holds. -/
@[reducible] def naming (named : Bool) : Known := { known with named := named || known.named }

/-- Behind tokens that leave open what was open. -/
@[reducible] def further : Known := { known with view := .any, moved := true }

@[reducible] def braced : Known :=
  ⟨.any, fun around => .brace :: known.opened around, true, known.named⟩

@[reducible] def substituted : Known :=
  ⟨.any, fun around => .substitution :: known.opened around, true, known.named⟩

/-- In front of a round of a loop. -/
@[reducible] def inRound : Known := { known with view := .any, moved := false }

@[reducible] def nothing : Known := ⟨.any, id, false, false⟩

/-- Where the first is known, so is the second. -/
structure Implies (known known' : Known) : Prop where
  view : known'.view = .any ∨ known'.view = known.view
  opened : known.opened = known'.opened
  moved : known'.moved = true → known.moved = true
  named : known'.named = true → known.named = true

namespace Implies

variable {known} {view : View} {opened : Nesting} {moved named : Bool}

theorem refl : known.Implies known := ⟨.inr rfl, rfl, id, id⟩

/-- The next token may be forgotten. -/
theorem forget : Implies ⟨view, opened, moved, named⟩ ⟨.any, opened, moved, named⟩ :=
  ⟨.inl rfl, rfl, id, id⟩

/-- What has been consumed may be forgotten. -/
theorem behind : Implies ⟨view, opened, true, named⟩ ⟨.any, opened, moved, named⟩ :=
  ⟨.inl rfl, rfl, fun _ => rfl, id⟩

/-- A round that stops need not have consumed anything. -/
theorem stopped : Implies ⟨view, opened, moved, named⟩ ⟨.any, opened, false, named⟩ :=
  ⟨.inl rfl, rfl, fun h => Bool.noConfusion h, id⟩

/-- That a private name has been consumed may be forgotten. -/
theorem unnamed {named' : Bool} :
    Implies ⟨view, opened, moved, named' || named⟩ ⟨view, opened, moved, named⟩ :=
  ⟨.inr rfl, rfl, id, fun h => Bool.or_eq_true_iff.2 (.inr h)⟩

end Implies

/-- Behind a round of a loop: one that goes on has closed what it has opened. -/
@[reducible] def round {α β : Type} (known : Known) (stop : Nesting) : Round α β → Known
  | .again _ => known.further
  | .stop _ => ⟨.any, stop, false, known.named⟩

end Known

/-! ## Where a script stands -/

/-- Whether what stands inside the region stands directly in the head of a loop: functions, blocks
of static code and brackets stand between. -/
@[reducible] def Region.headInside : Region → Bool → Bool
  | .function _ _ _, _ | .arrow _, _ | .staticBlock, _ | .brackets, _ => false
  | .loopHead, _ => true
  | .loopBody, head | .switchBody, head | .fieldInitializer, head | .classCode, head => head

@[reducible] def Region.restoresStrict : Region → Bool
  | .function _ _ _ | .arrow _ | .classCode => true
  | _ => false

/-- Where a script stands. -/
structure Setting where
  /-- Directly in the head of a loop. -/
  inHead : Bool
  /-- In a region behind which strictness is put back. -/
  lax : Bool
  /-- Behind a token that has been consumed in front of the innermost round of a loop. -/
  begun : Bool
  /-- Where an expression may be called for in front of the first token. -/
  leads : Bool

namespace Setting

variable (place : Setting)

@[reducible] def enter (region : Region) : Setting :=
  { place with
    inHead := region.headInside place.inHead
    lax := region.restoresStrict || place.lax }

@[reducible] def inRound (moved : Bool) : Setting :=
  { place with begun := moved || place.begun, leads := false }

/-- A token has been consumed in front of the step. -/
def IsReady (known : Known) : Prop := (known.moved || place.begun) = true

theorem IsReady.behind {place : Setting} {view : View} {opened : Nesting} {named : Bool} :
    place.IsReady ⟨view, opened, true, named⟩ := rfl

theorem IsReady.begun {place : Setting} {known : Known} (h : place.begun = true) :
    place.IsReady known := by
  rw [IsReady, h, Bool.or_true]

/-- The rule may be called: behind a token, and a statement not directly in the head of a loop. -/
def Allows (known : Known) : {α : Type} → Recurring α → Prop
  | _, .statement => place.inHead = false ∧ place.IsReady known
  | _, .assignment => place.IsReady known ∨ place.leads = true
  | _, _ => place.IsReady known

end Setting

/-! ## The relation -/

/-- How the answer of a call is compared. -/
@[reducible] def Recurring.bare : {α : Type} → Recurring α → Bare α
  | _, .statement => inferInstance
  | _, .assignment => inferInstance
  | _, .binary _ => inferInstance
  | _, .unary => inferInstance
  | _, .leftHandSide => inferInstance
  | _, .newExpression => inferInstance
  | _, .bindingTarget => inferInstance

/-- The scripts are the same up to positions, and every step of them fits to what is known in front
of it; `after` is known behind an answer. -/
inductive Script.Orderly : Setting → Known → {α : Type} → [Bare α] → Script α → Script α →
    (α → Known) → Prop where
  | pure {place : Setting} {α : Type} [Bare α] {after : α → Known} {a a' : α} (h : Twins a a') :
    Orderly place (after a) (.leaf (.pure a)) (.leaf (.pure a')) after
  | raise {place : Setting} {known : Known} {α : Type} [Bare α] {after : α → Known}
      (d : Diagnostic) (script : Script α) : Orderly place known (.leaf (.raise d)) script after
  | options {place : Setting} {known : Known} :
    Orderly place known .options .options fun _ => known
  | context {place : Setting} {known : Known} :
    Orderly place known (.leaf .context) (.leaf .context) fun _ => known
  /-- The code becomes strict only where that ends with a region around it. -/
  | beStrict {place : Setting} {known : Known} (h : place.lax = true) :
    Orderly place known (.leaf .beStrict) (.leaf .beStrict) fun _ => known
  | peek {place : Setting} {known : Known} :
    Orderly place known (.leaf (.lex .peek)) (.leaf (.lex .peek)) fun token => known.facing token
  /-- A question about a token that has been looked at, which is the next one. -/
  | askAgain {place : Setting} {known : Known} {α : Type} [Bare α] {after : α → Known}
      {token : Token} {f : Token → α} (h : after (f token) = known.facing token) :
    Orderly place (known.facing token) (.bind (.leaf (.lex .peek)) fun seen => .leaf (.pure (f seen)))
      (.bind (.leaf (.lex .peek)) fun seen => .leaf (.pure (f seen))) after
  | newlineBefore {place : Setting} {known : Known} :
    Orderly place known (.leaf (.lex .newlineBefore)) (.leaf (.lex .newlineBefore)) fun _ => known
  | peekSecond {place : Setting} {known : Known} {token : Token} (h : token.isWord = true) :
    Orderly place (known.facing token) (.leaf (.lex .peekSecond)) (.leaf (.lex .peekSecond))
      fun _ => known.facing token
  | peekStart {place : Setting} {known : Known} :
    Orderly place known (.leaf (.lex .peekStart)) (.leaf (.lex .peekStart)) fun _ => known
  | lastEnd {place : Setting} {known : Known} :
    Orderly place known (.leaf (.lex .lastEnd)) (.leaf (.lex .lastEnd)) fun _ => known
  | next {place : Setting} {known : Known} :
    Orderly place known (.leaf (.lex .next)) (.leaf (.lex .next))
      fun token => (known.past token).naming token.isPrivateName
  /-- The token that is consumed is the one that has been looked at. -/
  | skip {place : Setting} {known : Known} (token : Token) :
    Orderly place (known.facing token) (.leaf (.lex .next)) (.leaf (.lex .next))
      fun _ => known.past token
  | regExp {place : Setting} {known : Known} {token : Token} (h : token.isSlash = true) :
    Orderly place (known.facing token) (.leaf (.lex .regExp)) (.leaf (.lex .regExp))
      fun token => known.further.past token
  /-- The text of a template is read where the brace closes a substitution. -/
  | templateContinuation {place : Setting} {known : Known} :
    Orderly place (known.substituted.facing (.punctuator .rBrace))
      (.leaf (.lex .templateContinuation)) (.leaf (.lex .templateContinuation))
      fun token => known.further.past token
  | declareMember {place : Setting} {known : Known} {name name' : PrivateName}
      (hnamed : known.named = true) (h : Twins name name') (kind : MemberKind)
      (start start' : Position) :
    Orderly place known (.leaf (.declareMember name kind start))
      (.leaf (.declareMember name' kind start')) fun _ => known
  | referenceName {place : Setting} {known : Known} {name name' : PrivateName}
      (hnamed : known.named = true) (h : Twins name name') :
    Orderly place known (.leaf (.referenceName name)) (.leaf (.referenceName name'))
      fun _ => known
  | afterAtom {place : Setting} {known : Known} {atom atom' : Expression} (h : Twins atom atom')
      (next : Token) :
    Orderly place known (.leaf (.afterAtom atom next)) (.leaf (.afterAtom atom' next))
      fun _ => known
  | call {place : Setting} {known : Known} {α : Type} (callee : Recurring α)
      (h : place.Allows known callee) :
    @Script.Orderly place known α callee.bare (.call callee) (.call callee) fun _ => known.further
  /-- A unary expression is reported behind its last token. -/
  | unaryRule {place : Setting} {known : Known} {after : Expression → Known}
      (h : Orderly place known unaryBody unaryBody after) :
    Orderly place known unaryRule unaryRule after
  | bind {place : Setting} {known : Known} {α β : Type} [Bare α] [Bare β] {first first' : Script β}
      {next next' : β → Script α} {between : β → Known} {after : α → Known}
      (hfirst : Orderly place known first first' between)
      (hnext : ∀ b b', Twins b b' → Orderly place (between b) (next b) (next' b') after) :
    Orderly place known (.bind first next) (.bind first' next') after
  | loop {place : Setting} {known : Known} {α β : Type} [Bare α] [Bare β] {stop : Nesting}
      {round round' : α → Script (Round α β)} {start start' : α}
      (hround : ∀ a a', Twins a a' →
        Orderly (place.inRound known.moved) known.inRound (round a) (round' a') (known.round stop))
      (hstart : Twins start start') :
    Orderly place known (.loop round start) (.loop round' start')
      fun _ => ⟨.any, stop, known.moved, known.named⟩
  | within {place : Setting} {known : Known} {α : Type} [Bare α] {after : α → Known}
      (region : Region) {body body' : Script α}
      (h : Orderly (place.enter region) known body body' after) :
    Orderly place known (.within region body) (.within region body') after
  | arrow {place : Setting} {known : Known} {α : Type} [Bare α] {after : α → Known}
      (isAsync : Bool) {body body' : Bool → Script α}
      (h : ∀ isBlock, Orderly (place.enter (.arrow isAsync)) known.blind (body isBlock)
        (body' isBlock) after) :
    Orderly place known (.arrow isAsync body) (.arrow isAsync body') after
  | inClass {place : Setting} {known : Known} {α : Type} [Bare α] {after : α → Known}
      {body body' : Script α} (h : Orderly place known body body' after) :
    Orderly place known (.inClass body) (.inClass body') after
  | inMethod {place : Setting} {known : Known} {α : Type} [Bare α] {after : α → Known}
      {key key' : PropertyKey} {body body' : Script α}
      (hnamed : key.isPrivate = true → known.named = true) (hkey : Twins key key')
      (h : Orderly place known body body' after) :
    Orderly place known (.inMethod key body) (.inMethod key' body') after
  | weaken {place : Setting} {known known' : Known} {α : Type} [Bare α] {after after' : α → Known}
      {script script' : Script α} (hknown : known.Implies known')
      (h : Orderly place known' script script' after')
      (hafter : ∀ a, (after' a).Implies (after a)) :
    Orderly place known script script' after

end EcmaScript
