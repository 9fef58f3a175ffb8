import EcmaScript.Proofs.Trivia
import Mathlib.Tactic.IntervalCases
import Mathlib.Tactic.Tauto

/-!
What a token depends on.

A token is read in the same way wherever it stands, and whatever stands behind it, as long as that
does not go on with the token. `Same` compares two scans from places where the next characters are
the same up to some place, behind which the texts differ: if the first scan stays in front of that
place, the other one returns the same and stops at the same place.
-/

namespace EcmaScript

variable {α β : Type}

namespace Scan

/-! ## Parts of scans -/

theorem templateStep_plain {start : Position} {read : List Char} {x : Char}
    {second : Option Char} (hclose : x ≠ '\x60') (hescape : x ≠ '\\')
    (hsubstitution : ¬(x = '$' ∧ second = some '\x7b')) :
    templateStep start read (some x) second = (do
      skip 1
      return .again (x :: read)) := by
  unfold templateStep
  split
  · next hx => cases hx
  · next hx => exact absurd (Option.some.inj hx) hclose
  · next hx => exact absurd ⟨Option.some.inj hx, rfl⟩ hsubstitution
  · next hx => exact absurd (Option.some.inj hx) hescape
  · next hx _ =>
    cases hx
    rfl

def plainToken (first : Char) (start : Position) : Scan Token := do
  if isDecimalDigit first then
    skip 1
    numericLiteral first start
  else if first == '"' || first == '\'' then
    skip 1
    stringLiteral first start
  else if first == '\x60' then
    skip 1
    templateStart start
  else if isIdStart first || first == '\\' then
    identifier first start
  else
    skip 1
    fail (.unexpectedCharacter first) start

def tokenOf (first : Char) (start : Position) (rest : List Char) : Scan Token := do
  if first == '.' && rest.tail.head?.any isDecimalDigit then
    skip 1
    numericLiteral '.' start
  else match Punctuator.ofText? rest with
    | some symbol => do
      skip symbol.spelling.length
      return .punctuator symbol
    | none => plainToken first start

theorem languageToken_eq (first : Char) (start : Position) (c : Cursor) :
    languageToken first start c = tokenOf first start c.rest c := by
  change (if (first == '.' && c.rest.tail.head?.any isDecimalDigit) = true then _ else _ :
    Scan Token) c = _
  unfold tokenOf
  split
  · rfl
  · cases Punctuator.ofText? c.rest <;> rfl

/-! ## Scans go forward -/

/-- What the scan leaves is the end of what it was in front of. -/
class Forward (p : Scan α) : Prop where
  suffix : ∀ {c a d}, Returns p c a d → d.rest <:+ c.rest

namespace Forward

instance pure (a : α) : Forward (Pure.pure a : Scan α) :=
  ⟨by rintro c _ _ ⟨⟩; exact List.suffix_refl _⟩

instance refuse (failure : Failure) : Forward (throw failure : Scan α) := ⟨by rintro c _ _ ⟨⟩⟩

instance fail (cause : ScanCause) (position : Position) :
    Forward (Scan.fail cause position : Scan α) := refuse _

instance bind {p : Scan α} {q : α → Scan β} [hp : Forward p] [hq : ∀ a, Forward (q a)] :
    Forward (p >>= q) where
  suffix h := by
    obtain ⟨a, middle, hfirst, hsecond⟩ := h.of_bind
    exact ((hq a).suffix hsecond).trans (hp.suffix hfirst)

/-- Sequencing, for a second scan that needs a choice. -/
theorem step {p : Scan α} {q : α → Scan β} [Forward p] (hq : ∀ a, Forward (q a)) :
    Forward (p >>= q) :=
  bind

instance map (f : α → β) {p : Scan α} [Forward p] : Forward (f <$> p) := by
  rw [map_eq_pure_bind]
  exact step fun _ => pure _

/-- A choice between scans that need choices themselves. -/
theorem either {c : Prop} [Decidable c] {p q : Scan α} (hp : Forward p) (hq : Forward q) :
    Forward (if c then p else q) := by
  by_cases h : c
  · rwa [if_pos h]
  · rwa [if_neg h]

instance ite (c : Prop) [Decidable c] {p q : Scan α} [hp : Forward p] [hq : Forward q] :
    Forward (if c then p else q) :=
  either hp hq

/-- A check in front of the rest, which fails if it does not hold. -/
theorem required {c : Prop} [Decidable c] {bad : Scan Unit} {rest : Unit → Scan α} [Forward bad]
    (hrest : ∀ u, Forward (rest u)) : Forward (if c then rest () else bad >>= rest) :=
  either (hrest ()) (step hrest)

/-- A step in front of the rest, which is taken if the condition holds. -/
theorem provided {c : Prop} [Decidable c] {taken : Scan Unit} {rest : Unit → Scan α}
    [Forward taken] (hrest : ∀ u, Forward (rest u)) :
    Forward (if c then taken >>= rest else rest ()) :=
  either (step hrest) (hrest ())

instance here : Forward Scan.here := ⟨by rintro c _ _ ⟨⟩; exact List.suffix_refl _⟩

instance peek : Forward Scan.peek := ⟨by rintro c _ _ ⟨⟩; exact List.suffix_refl _⟩

instance peekSecond : Forward Scan.peekSecond := ⟨by rintro c _ _ ⟨⟩; exact List.suffix_refl _⟩

instance nextIs (p : Char → Bool) : Forward (Scan.nextIs p) :=
  ⟨by rintro c _ _ ⟨⟩; exact List.suffix_refl _⟩

instance advance : Forward Scan.advance where
  suffix {c a d} h := by
    obtain ⟨_ | ⟨x, rest⟩, position⟩ := c
    · cases h
    · cases h
      exact List.suffix_cons _ _

instance revisit : Forward Scan.revisit where
  suffix h := by
    cases eq_of_revisit h
    exact List.suffix_refl _

instance skip (n : Nat) : Forward (Scan.skip n) := by
  induction n with
  | zero => exact pure ()
  | succ n ih => exact step fun _ => ih

instance bump : Forward Scan.bump := by
  unfold Scan.bump
  refine step fun next => ?_
  cases next with
  | none => exact pure none
  | some _ => exact map some

instance accept (expected : Char) : Forward (Scan.accept expected) := by
  unfold Scan.accept
  exact step fun _ => either (step fun _ => pure true) (pure false)

instance rounds {round : α → Scan (Round α β)} [hround : ∀ a, Forward (round a)] (bound : Nat)
    (a : α) : Forward (repeatRounds round bound a) := by
  induction bound generalizing a with
  | zero => exact refuse _
  | succ bound ih =>
    refine step fun next => ?_
    cases next with
    | again a' => exact ih a'
    | stop b => exact pure b

theorem loop {round : α → Scan (Round α β)} (hround : ∀ a, Forward (round a)) (a : α) :
    Forward (Scan.loop round a) where
  suffix {c b d} h := by
    change repeatAlong round c.rest a c = _ at h
    rw [repeatAlong_eq] at h
    exact Forward.suffix h

instance takeWhile (p : Char → Bool) : Forward (Scan.takeWhile p) := by
  unfold Scan.takeWhile
  exact loop (fun _ => step fun _ => either (step fun _ => pure _) (pure _)) []

instance digitStep (read : List Char) (first second : Option Char) :
    Forward (Scan.digitStep read first second) := by
  cases first with
  | none => exact pure _
  | some c => exact either (step fun _ => pure _) (either (step fun _ => pure _) (pure _))

instance decimalDigits : Forward Scan.decimalDigits := by
  rw [decimalDigits_eq]
  exact loop (fun _ => step fun _ => step fun _ => inferInstance) []

instance exponentDigits (start : Position) (negative : Bool) :
    Forward (Scan.exponentDigits start negative) := by
  unfold Scan.exponentDigits
  exact step fun _ => required fun _ => step fun _ => pure _

instance signedExponent (start : Position) : Forward (Scan.signedExponent start) := by
  unfold Scan.signedExponent
  exact step fun _ => step fun _ => provided fun _ => inferInstance

instance exponent? (start : Position) : Forward (Scan.exponent? start) := by
  rw [exponent?_eq]
  exact step fun _ => either (step fun _ => inferInstance) (pure none)

instance radixNumeral (radix : Nat) (start : Position) :
    Forward (Scan.radixNumeral radix start) := by
  unfold Scan.radixNumeral
  exact step fun _ => either (step fun _ => pure _) (pure _)

instance numeral (first : Char) (start : Position) : Forward (Scan.numeral first start) := by
  unfold Scan.numeral
  refine step fun next => ?_
  split
  · exact step fun _ => inferInstance
  · refine step fun _ => either (step fun _ => pure _) (step fun _ => either ?_ ?_)
    · exact step fun _ => step fun _ => pure _
    · exact step fun _ => step fun _ => pure _

instance closeNumber (literal : Numeral) (start : Position) :
    Forward (Scan.closeNumber literal start) := by
  have hend (token : Token) : Forward (do
      if ← Scan.nextIs isIdStart then Scan.fail .identifierAfterNumber (← Scan.here)
      return token) :=
    step fun _ => either (step fun _ => step fun _ => pure _) (pure _)
  refine step fun big => either ?_ ?_
  · cases literal.integerText? with
    | none => exact step hend
    | some text => exact step fun _ => hend (.bigInt text)
  · cases literal.value? with
    | none => exact step hend
    | some value => exact hend (.number value)

instance numericLiteral (first : Char) (start : Position) :
    Forward (Scan.numericLiteral first start) := by
  rw [numericLiteral_eq]
  exact step fun _ => inferInstance

instance hexDigits {bad : Scan Unit} [Forward bad] (n : Nat) : Forward (Scan.hexDigits bad n) := by
  induction n with
  | zero => exact pure []
  | succ n ih =>
    unfold Scan.hexDigits
    exact step fun _ => required fun _ => step fun _ => step fun _ => pure _

instance escapedCode (start : Position) : Forward (Scan.escapedCode start) := by
  refine step fun _ => either (step fun digits => provided fun _ => step fun _ => ?_) ?_
  · exact required fun _ => provided fun _ => pure _
  · exact step fun _ => provided fun _ => pure _

instance unicodeEscape : Forward Scan.unicodeEscape := by
  rw [unicodeEscape_eq]
  exact step fun _ => step fun _ => step fun _ => required fun _ => inferInstance

instance scalarEscape : Forward Scan.scalarEscape := by
  unfold Scan.scalarEscape
  refine step fun start => step fun code => ?_
  cases scalar? code with
  | none => exact fail _ _
  | some c => exact pure c

/-- A second escape that does not complete a pair is given back. -/
theorem secondEscape {code : Nat} : Forward (do
    let second ← MonadState.get
    let low ← Scan.unicodeEscape
    if isLowSurrogate low then
      return (scalar? (joinSurrogates code low)).getD '\uFFFD'
    set second
    return '\uFFFD') where
  suffix {c a d} h := by
    obtain ⟨low, middle, hlow, hrest⟩ := Returns.of_bind (p := Scan.unicodeEscape)
      (show Returns (Scan.unicodeEscape >>= fun _ => _) c a d from h)
    by_cases hpair : isLowSurrogate low = true
    · rw [if_pos hpair] at hrest
      obtain ⟨-, rfl⟩ := hrest.of_pure
      exact unicodeEscape.suffix hlow
    · rw [if_neg hpair] at hrest
      obtain ⟨_, middle', hset, hrest⟩ := Returns.of_bind hrest
      cases hset
      obtain ⟨-, rfl⟩ := hrest.of_pure
      exact List.suffix_refl _

instance textUnicodeEscape : Forward Scan.textUnicodeEscape := by
  unfold Scan.textUnicodeEscape
  refine step fun code => ?_
  cases scalar? code with
  | some x => exact pure x
  | none => exact step fun _ => step fun _ => either secondEscape inferInstance

instance plainEscape (x : Char) (inTemplate : Bool) (start : Position) :
    Forward (Scan.plainEscape x inTemplate start) := by
  unfold Scan.plainEscape
  cases simpleEscape? x with
  | some denoted => exact pure _
  | none =>
    refine step fun _ => either (pure _) (provided fun _ => either ?_ (either ?_ ?_))
    · exact step fun _ => pure _
    · exact step fun _ => pure _
    · exact either (pure _) (pure _)

instance textEscape (x : Char) (inTemplate : Bool) (start : Position) :
    Forward (Scan.textEscape x inTemplate start) := by
  rw [textEscape_eq]
  exact either (step fun _ => step fun _ => pure _) (step fun _ => inferInstance)

instance pattern (start : Position) : Forward (Scan.pattern start) := by
  unfold Scan.pattern
  refine loop (fun _ => step fun _ => required fun _ => step fun _ => either ?_ ?_) _
  · exact step fun _ => either (step fun _ => pure _) (pure _)
  · exact either (pure _) (pure _)

instance escapeStep {γ : Type} (unclosed : ScanCause) (inTemplate : Bool) (start : Position)
    (read : List Char) (next : Option Char) :
    Forward (Scan.escapeStep (γ := γ) unclosed inTemplate start read next) := by
  cases next with
  | none => exact fail _ _
  | some x => exact step fun _ => pure _

instance stringStep (quote : Char) (start : Position) (read : List Char) (next : Option Char) :
    Forward (Scan.stringStep quote start read next) := by
  cases next with
  | none => exact fail _ _
  | some c =>
    refine either (step fun _ => pure _) (either (step fun _ => step fun _ => ?_) ?_)
    · exact escapeStep _ _ _ _ _
    · exact either (fail _ _) (step fun _ => pure _)

instance stringSteps (quote : Char) (start : Position) : Forward (Scan.loop (fun read => do
    Scan.stringStep quote start read (← Scan.peek)) []) :=
  loop (fun _ => step fun _ => inferInstance) []

instance stringLiteral (quote : Char) (start : Position) :
    Forward (Scan.stringLiteral quote start) := by
  rw [stringLiteral_eq]
  exact step fun _ => pure _

instance templateStep (start : Position) (read : List Char) (next second : Option Char) :
    Forward (Scan.templateStep start read next second) := by
  unfold Scan.templateStep
  split
  · exact fail _ _
  · exact step fun _ => pure _
  · exact step fun _ => pure _
  · exact step fun _ => step fun _ => inferInstance
  · exact step fun _ => pure _

instance templateCharacters (start : Position) : Forward (Scan.templateCharacters start) := by
  rw [templateCharacters_eq]
  exact loop (fun _ => step fun _ => step fun _ => inferInstance) []

instance templateStart (start : Position) : Forward (Scan.templateStart start) := by
  refine step fun (cooked, ending) => ?_
  cases ending <;> exact pure _

instance templateContinuation (start : Position) : Forward (Scan.templateContinuation start) := by
  refine step fun (cooked, ending) => ?_
  cases ending <;> exact pure _

instance wordStep (read : List Char) (next second : Option Char) :
    Forward (Scan.wordStep read next second) := by
  unfold Scan.wordStep
  split
  · exact step fun _ => step fun _ => step fun _ => required fun _ => pure _
  · exact either (step fun _ => pure _) (pure _)
  · exact pure _

instance word : Forward Scan.word := by
  rw [word_eq]
  exact loop (fun _ => step fun _ => step fun _ => inferInstance) []

end Forward

/-- What is left in front of the same text. -/
theorem Forward.suffix_of_eq {p : Scan α} [Forward p] {c d : Cursor} {a : α} {u w y : List Char}
    (hc : c.rest = u ++ y) (h : Returns p c a d) (hd : d.rest = w ++ y) : w <:+ u := by
  obtain ⟨t, ht⟩ := Forward.suffix h
  rw [hd, hc, ← List.append_assoc] at ht
  exact ⟨t, List.append_cancel_right ht⟩

/-- Whenever the scan succeeds, it has taken a character. -/
class Moves (p : Scan α) : Prop where
  less : ∀ {c a d}, Returns p c a d → d.rest.length < c.rest.length

namespace Moves

instance advance : Moves Scan.advance where
  less {c a d} h := by
    obtain ⟨_ | ⟨x, rest⟩, position⟩ := c
    · cases h
    · cases h
      exact Nat.lt_succ_self _

instance fail (cause : ScanCause) (position : Position) :
    Moves (Scan.fail cause position : Scan α) := ⟨by rintro c _ _ ⟨⟩⟩

/-- A scan whose first part takes a character. -/
instance before {p : Scan α} {q : α → Scan β} [hp : Moves p] [hq : ∀ a, Forward (q a)] :
    Moves (p >>= q) where
  less h := by
    obtain ⟨a, middle, hfirst, hsecond⟩ := h.of_bind
    exact Nat.lt_of_le_of_lt ((hq a).suffix hsecond).length_le (hp.less hfirst)

/-- The same, for a second part that needs a choice. -/
theorem first {p : Scan α} {q : α → Scan β} [Moves p] (_ : ∀ a, Forward (q a)) :
    Moves (p >>= q) :=
  before

theorem either {c : Prop} [Decidable c] {p q : Scan α} (hp : Moves p) (hq : Moves q) :
    Moves (if c then p else q) := by
  by_cases h : c
  · rwa [if_pos h]
  · rwa [if_neg h]

/-- A scan whose second part takes a character. -/
instance behind {p : Scan α} {q : α → Scan β} [hp : Forward p] [hq : ∀ a, Moves (q a)] :
    Moves (p >>= q) where
  less h := by
    obtain ⟨a, middle, hfirst, hsecond⟩ := h.of_bind
    exact Nat.lt_of_lt_of_le ((hq a).less hsecond) (hp.suffix hfirst).length_le

/-- The same, for a second part that needs a choice. -/
theorem later {p : Scan α} {q : α → Scan β} [Forward p] (_ : ∀ a, Moves (q a)) : Moves (p >>= q) :=
  behind

instance ite (c : Prop) [Decidable c] {p q : Scan α} [hp : Moves p] [hq : Moves q] :
    Moves (if c then p else q) :=
  either hp hq

instance ofTrue {p q : Scan α} [hp : Moves p] : Moves (if true = true then p else q) := by
  rwa [if_pos rfl]

instance ofFalse {p q : Scan α} [hq : Moves q] : Moves (if false = true then p else q) := by
  rwa [if_neg Bool.false_ne_true]

instance skip (n : Nat) : Moves (Scan.skip (n + 1)) := before

/-- A character that is taken if it is there, and missed if it is not. -/
instance accept (expected : Char) {q : Bool → Scan β} [htrue : Forward (q true)]
    [hfalse : Moves (q false)] : Moves (Scan.accept expected >>= q) where
  less {c b d} h := by
    have hchoice : Returns (if (c.rest.head? == some expected) = true then
        Scan.advance >>= fun _ => q true else q false) c b d := by
      change Returns ((if (c.rest.head? == some expected) = true then
        Scan.advance >>= fun _ => pure true else pure false) >>= q) c b d at h
      split at h
      · next hnext => rwa [if_pos hnext, bind_assoc] at *
      · next hnext => rwa [if_neg hnext] at *
    exact Moves.less hchoice

instance unicodeEscape : Moves Scan.unicodeEscape := by
  rw [unicodeEscape_eq]
  refine later fun start => later fun _ => @accept _ 'u' _ ?_ ?_
  · exact .required fun _ => .escapedCode start
  · exact @ofFalse _ _ _ (first fun _ => .escapedCode start)

instance textUnicodeEscape : Moves Scan.textUnicodeEscape := by
  unfold Scan.textUnicodeEscape
  refine first fun code => ?_
  cases scalar? code with
  | some x => exact .pure x
  | none => exact .step fun _ => .step fun _ => .either .secondEscape inferInstance

instance textEscape (x : Char) (inTemplate : Bool) (start : Position) :
    Moves (Scan.textEscape x inTemplate start) := by
  rw [textEscape_eq]
  exact either (later fun _ => first fun _ => .pure _) (first fun _ => inferInstance)

instance escapeStep {γ : Type} (unclosed : ScanCause) (inTemplate : Bool) (start : Position)
    (read : List Char) (next : Option Char) :
    Moves (Scan.escapeStep (γ := γ) unclosed inTemplate start read next) := by
  cases next with
  | none => exact fail _ _
  | some x => exact first fun _ => .pure _

instance stringStep (quote : Char) (start : Position) (read : List Char) (next : Option Char) :
    Moves (Scan.stringStep quote start read next) := by
  cases next with
  | none => exact fail _ _
  | some c =>
    refine either (first fun _ => .pure _) (either (first fun _ => .step fun _ => ?_) ?_)
    · exact .escapeStep _ _ _ _ _
    · exact either (fail _ _) (first fun _ => .pure _)

instance templateStep (start : Position) (read : List Char) (next second : Option Char) :
    Moves (Scan.templateStep start read next second) := by
  unfold Scan.templateStep
  split
  · exact fail _ _
  · exact first fun _ => .pure _
  · exact first fun _ => .pure _
  · exact first fun _ => .step fun _ => .escapeStep _ _ _ _ _
  · exact first fun _ => .pure _

instance scalarEscape : Moves Scan.scalarEscape := by
  refine later fun start => first fun code => ?_
  cases scalar? code with
  | none => exact .fail _ _
  | some x => exact .pure x

end Moves

theorem drop_of_skip {n : Nat} {c d : Cursor} (h : Returns (skip n) c () d) :
    n ≤ c.rest.length ∧ d.rest = c.rest.drop n := by
  induction n generalizing c with
  | zero =>
    cases h
    exact ⟨Nat.zero_le _, rfl⟩
  | succ n ih =>
    obtain ⟨_, middle, hadvance, hrest⟩ := Returns.of_bind h
    obtain ⟨_ | ⟨x, rest⟩, position⟩ := c
    · cases hadvance
    · cases hadvance
      obtain ⟨hle, hdrop⟩ := ih hrest
      exact ⟨Nat.succ_le_succ hle, hdrop⟩

/-- The result of a loop is that of its last round. -/
theorem Returns.last_round {round : α → Scan (Round α β)} {a : α} {c d : Cursor} {b : β}
    (h : Returns (loop round a) c b d) : ∃ a' c', Returns (round a') c' (.stop b) d := by
  change repeatAlong round c.rest a c = _ at h
  rw [repeatAlong_eq] at h
  exact exists_last_round h

/-- A loop whose first round takes a character takes one. -/
theorem less_of_loop {round : α → Scan (Round α β)} (hforward : ∀ a, Forward (round a)) {a : α}
    {c d : Cursor} {b : β} (h : Returns (loop round a) c b d)
    (hround : ∀ {next middle}, Returns (round a) c next middle →
      middle.rest.length < c.rest.length) : d.rest.length < c.rest.length := by
  change repeatAlong round c.rest a c = _ at h
  rw [repeatAlong_eq] at h
  obtain ⟨next, middle, hfirst, hrest⟩ := Returns.of_bind h
  have hless := hround hfirst
  cases next with
  | again a' =>
    have hle := ((Forward.rounds _ a').suffix hrest).length_le
    omega
  | stop b' =>
    obtain ⟨rfl, rfl⟩ := hrest.of_pure
    exact hless

/-- In front of a digit, reading digits takes it. -/
theorem less_of_decimalDigits {c d : Cursor} {digits : List Char}
    (hnext : c.rest.head?.any isDecimalDigit = true) (h : Returns decimalDigits c digits d) :
    d.rest.length < c.rest.length := by
  rw [decimalDigits_eq] at h
  refine less_of_loop (fun read => .step fun _ => .step fun _ => inferInstance) h
    fun {next middle} hround => ?_
  · obtain ⟨_ | ⟨x, rest⟩, position⟩ := c
    · cases hnext
    · change Returns (if isDecimalDigit x = true then _ else _) ⟨x :: rest, position⟩ next middle
        at hround
      rw [if_pos (show isDecimalDigit x = true from hnext)] at hround
      exact Moves.less hround

/-! ## Delimiters -/

/-- Whether the character belongs to no token that begins in front of it: separators, closing
parentheses and semicolons. -/
def delimits (c : Char) : Bool := isSeparator c || c == ')' || c == ';'

/-- Every delimiter once. -/
def delimiters : List Char :=
  [' ', '\t', '\x0B', '\x0C', '\u00A0', '\uFEFF', '\u1680', '\u2000', '\u2001', '\u2002', '\u2003',
    '\u2004', '\u2005', '\u2006', '\u2007', '\u2008', '\u2009', '\u200A', '\u202F', '\u205F',
    '\u3000', '\n', '\r', '\u2028', '\u2029', ')', ';']

theorem mem_delimiters {c : Char} (h : delimits c = true) : c ∈ delimiters := by
  simp only [delimits, isSeparator, isBlank, isLineTerminator, Bool.or_eq_true, Bool.and_eq_true,
    beq_iff_eq, decide_eq_true_iff] at h
  by_cases hrange : 0x2000 ≤ c.toNat ∧ c.toNat ≤ 0x200A
  · rw [← Char.ofNat_toNat c]
    generalize c.toNat = n at hrange
    obtain ⟨hlow, hhigh⟩ := hrange
    interval_cases n <;> decide
  · simp only [delimiters, List.mem_cons, List.not_mem_nil, or_false]
    grind

/-- What holds of no delimiter is told from the list of them. -/
theorem false_of_delimits {p : Char → Bool} (hp : delimiters.all (!p ·) = true) {c : Char}
    (h : delimits c = true) : p c = false := by
  simpa using List.all_eq_true.1 hp c (mem_delimiters h)

theorem isIdContinue_of_delimits {c : Char} (h : delimits c = true) : isIdContinue c = false :=
  false_of_delimits (by decide +kernel) h

theorem isIdStart_of_delimits {c : Char} (h : delimits c = true) : isIdStart c = false :=
  Bool.eq_false_iff.2 fun hstart =>
    Bool.eq_false_iff.1 (isIdContinue_of_delimits h) (isIdContinue_of_isIdStart hstart)

theorem isDigitOf_of_delimits {radix : Nat} {c : Char} (h : delimits c = true) :
    isDigitOf radix c = false := by
  have hdigit : digitValue? c = none := by
    have := false_of_delimits (p := fun c => (digitValue? c).isSome) (by decide +kernel) h
    simpa using this
  rw [isDigitOf, hdigit]
  rfl

/-! ## Texts in front of which a token may end -/

/-- A text that begins with a delimiter, or the empty one, goes on with no token. -/
theorem any_eq_false_of_delimits {p : Char → Bool} (hp : ∀ c, delimits c = true → p c = false)
    {next : Option Char} (h : next.all delimits = true) : next.any p = false := by
  cases next with
  | none => rfl
  | some c => exact hp c h

def beginsWord (first : Char) : Bool := isIdStart first || first == '\\'

/-- What is read in front of `y` without touching it is read in front of `y'` as well: that begins
with a delimiter, or the two begin alike, with two characters if the second one of `y'` is no
delimiter. -/
def Compatible (y y' : List Char) : Prop :=
  y'.head?.all delimits = true ∨ y.head? = y'.head? ∧
    (y.tail.head? = y'.tail.head? ∨ y'.tail.head?.all delimits = true ∧
      ¬(y.head? = some '.' ∧ y.tail.head?.any isDecimalDigit = true))

namespace Compatible

variable {y y' : List Char}

/-- A text that goes on with a token goes on with it in front of `y` if it does in front of `y'`. -/
theorem any_head? (h : Compatible y y') {p : Char → Bool}
    (hp : ∀ c, delimits c = true → p c = false) (hy : y.head?.any p = false) :
    y'.head?.any p = false := by
  rcases h with hdelimits | ⟨heq, -⟩
  · exact any_eq_false_of_delimits hp hdelimits
  · rwa [← heq]

theorem head?_ne (h : Compatible y y') {x : Char} (hx : delimits x = false)
    (hy : y.head? ≠ some x) : y'.head? ≠ some x := by
  rintro hy'
  rcases h with hdelimits | ⟨heq, -⟩
  · rw [hy'] at hdelimits
    exact Bool.eq_false_iff.1 hx hdelimits
  · exact hy (heq.trans hy')

/-- What is no delimiter stands in front of both, and what comes next is alike. -/
theorem head?_eq (h : Compatible y y') {x : Char} (hx : delimits x = false)
    (hy' : y'.head? = some x) : y.head? = some x ∧
      (y.tail.head? = y'.tail.head? ∨ y'.tail.head?.all delimits = true) := by
  rcases h with hdelimits | ⟨heq, htail⟩
  · rw [hy'] at hdelimits
    exact absurd hdelimits (Bool.eq_false_iff.1 hx)
  · exact ⟨heq.trans hy', htail.imp_right And.left⟩

theorem refl (y : List Char) : Compatible y y := .inr ⟨rfl, .inl rfl⟩

/-- Texts go on differently behind a common beginning, unless that is a point which digits make a
number. -/
theorem append (h : Compatible y y') {w : List Char} (hw : w ≠ [])
    (hpoint : w = ['.'] → y.head?.any isDecimalDigit = false) :
    Compatible (w ++ y) (w ++ y') := by
  match w with
  | [] => exact absurd rfl hw
  | [x] =>
    refine .inr ⟨rfl, ?_⟩
    change y.head? = y'.head? ∨ y'.head?.all delimits = true ∧
      ¬(some x = some '.' ∧ y.head?.any isDecimalDigit = true)
    rcases h with hdelimits | ⟨heq, -⟩
    · refine .inr ⟨hdelimits, ?_⟩
      rintro ⟨⟨⟩, hdigit⟩
      rw [hpoint rfl] at hdigit
      cases hdigit
    · exact .inl heq
  | x :: z :: w => exact .inr ⟨rfl, .inl rfl⟩

/-- No trivia begins in front of `y'` where none begins in front of `y`. -/
theorem opensTrivia (h : Compatible y y') {u : List Char} (hu : u ≠ [])
    (hopens : opensTrivia (u ++ y) = false) : EcmaScript.opensTrivia (u ++ y') = false := by
  obtain ⟨x, u, rfl⟩ := List.exists_cons_of_ne_nil hu
  rw [List.cons_append, opensTrivia_cons] at hopens ⊢
  split at hopens
  · next hslash =>
    rw [if_pos hslash]
    cases u with
    | nil =>
      refine h.any_head? (fun c hc => ?_) hopens
      exact false_of_delimits (p := fun c => c == '/' || c == '*') (by decide) hc
    | cons z u => exact hopens
  · next hslash =>
    rw [if_neg hslash]
    exact hopens

end Compatible

end Scan

/-! ## Punctuators -/

namespace Punctuator

/-- The punctuators that are tried in front of the given one. -/
def earlier (symbol : Punctuator) : List Punctuator :=
  (symbol.spelling.toList.head?.elim [] candidates).takeWhile (· != symbol)

/-- Whether the punctuator is read from the text, if none that is tried earlier is. -/
def fits (symbol : Punctuator) (text : List Char) : Bool :=
  symbol.spelling.toList.isPrefixOf text && symbol.admits (text.drop symbol.spelling.length)

theorem ofText?_eq_some_iff {symbol : Punctuator} {text : List Char}
    (h : symbol.spelling.toList <+: text) :
    ofText? text = some symbol ↔
      symbol.fits text = true ∧ ∀ q ∈ symbol.earlier, q.fits text = false := by
  obtain ⟨rest, rfl⟩ := h
  have hhead : (symbol.spelling.toList ++ rest).head? = symbol.spelling.toList.head? := by
    cases symbol <;> rfl
  have hsplit : ∃ later, symbol.spelling.toList.head?.elim [] candidates =
      symbol.earlier ++ symbol :: later := by
    have hmem : symbol ∈ symbol.spelling.toList.head?.elim [] candidates := by
      cases symbol <;> decide
    rw [earlier]
    generalize symbol.spelling.toList.head?.elim [] candidates = all at hmem
    induction all with
    | nil => cases hmem
    | cons q all ih =>
      by_cases hq : q = symbol
      · subst hq
        exact ⟨all, by simp⟩
      · obtain ⟨later, hlater⟩ := ih ((List.mem_cons.1 hmem).resolve_left (Ne.symm hq))
        refine ⟨later, ?_⟩
        rw [List.takeWhile_cons_of_pos (by simpa using hq), List.cons_append, ← hlater]
  obtain ⟨later, hlater⟩ := hsplit
  have hnot : symbol ∉ symbol.earlier := fun hmem => by
    simpa using List.all_eq_true.1 List.all_takeWhile symbol hmem
  change List.find? (fits · _) _ = some symbol ↔ _
  rw [hhead, hlater, List.find?_append]
  constructor
  · intro h
    cases hfirst : symbol.earlier.find? (fits · (symbol.spelling.toList ++ rest)) with
    | some q =>
      rw [hfirst] at h
      cases h
      exact absurd (List.mem_of_find?_eq_some hfirst) hnot
    | none =>
      rw [hfirst] at h
      rw [Option.none_or] at h
      exact ⟨List.find?_some (p := (fits · (symbol.spelling.toList ++ rest))) h,
        by simpa using hfirst⟩
  · rintro ⟨hfits, hearlier⟩
    rw [List.find?_eq_none.2 (by simpa using hearlier), Option.none_or,
      List.find?_cons, hfits]

/-- How the spellings of two punctuators that begin alike differ: the longer one goes on with
characters that are no delimiters, and if it does so with two, these make a punctuator as well. -/
theorem spelling_earlier (symbol : Punctuator) : symbol.earlier.all (fun q =>
    !q.spelling.toList.isPrefixOf symbol.spelling.toList &&
    (!symbol.spelling.toList.isPrefixOf q.spelling.toList ||
      (q.spelling.toList.drop symbol.spelling.length).all (!Scan.delimits ·) &&
      ((q.spelling.toList.drop symbol.spelling.length).length ≤ 1 || symbol.earlier.any fun q' =>
        q' != .optionalChain &&
          q'.spelling.toList == q.spelling.toList.take (symbol.spelling.length + 2)))) = true := by
  cases symbol <;> decide

theorem fits_append {symbol : Punctuator} {text : List Char} :
    symbol.fits (symbol.spelling.toList ++ text) = symbol.admits text := by
  have hbegins : symbol.spelling.toList.isPrefixOf (symbol.spelling.toList ++ text) = true :=
    List.isPrefixOf_iff_prefix.2 (List.prefix_append _ _)
  rw [fits, hbegins, Bool.true_and, ← String.length_toList, List.drop_left]

theorem admits_of_ne {symbol : Punctuator} (h : symbol ≠ .optionalChain) (text : List Char) :
    symbol.admits text = true := by
  rw [admits, beq_false_of_ne h]
  rfl

theorem admits_eq_false_iff {symbol : Punctuator} {text : List Char} :
    symbol.admits text = false ↔
      symbol = .optionalChain ∧ text.head?.any isDecimalDigit = true := by
  rw [admits, Bool.not_eq_false', Bool.and_eq_true, beq_iff_eq]

theorem prefix_of_ofText? {symbol : Punctuator} {text : List Char}
    (h : ofText? text = some symbol) : symbol.spelling.toList <+: text := by
  have hfits := List.find?_some h
  rw [Bool.and_eq_true] at hfits
  exact List.isPrefixOf_iff_prefix.1 hfits.1

/-- Where no punctuator is read, none begins with the next character. -/
theorem candidates_eq_nil {first : Char} {text : List Char} (h : ofText? (first :: text) = none) :
    candidates first = [] := by
  have hshort : candidates first = [] ∨ ∃ p ∈ candidates first,
      p.spelling.toList = [first] ∧ p ≠ .optionalChain := by
    unfold candidates
    split <;> first | exact .inl rfl | exact .inr (by decide)
  refine hshort.resolve_right ?_
  rintro ⟨p, hp, hspelling, hne⟩
  have hfits := List.find?_eq_none.1 h p hp
  have hbegins : p.spelling.toList.isPrefixOf (first :: text) = true := by
    rw [hspelling]
    exact List.isPrefixOf_iff_prefix.2 ⟨text, rfl⟩
  rw [hbegins, admits_of_ne hne] at hfits
  exact hfits rfl

theorem ofText?_eq_none {first : Char} (h : candidates first = []) (text : List Char) :
    ofText? (first :: text) = none := by
  change (candidates first).find? _ = none
  rw [h]
  rfl

/-- A punctuator is read in front of `y'` if it is read in front of `y`. -/
theorem ofText?_compatible {y y' : List Char} (hy : Scan.Compatible y y') {symbol : Punctuator}
    (h : ofText? (symbol.spelling.toList ++ y) = some symbol) :
    ofText? (symbol.spelling.toList ++ y') = some symbol := by
  obtain ⟨hfits, hearlier⟩ := (ofText?_eq_some_iff (List.prefix_append _ _)).1 h
  have hdigit : ∀ c, Scan.delimits c = true → isDecimalDigit c = false :=
    fun _ => Scan.isDigitOf_of_delimits
  refine (ofText?_eq_some_iff (List.prefix_append _ _)).2 ⟨?_, fun q hq => ?_⟩
  · rw [fits_append] at hfits ⊢
    refine Bool.eq_false_imp_eq_true.1 fun hrefused => ?_
    obtain ⟨rfl, hnext⟩ := admits_eq_false_iff.1 hrefused
    refine absurd hnext (Bool.eq_false_iff.1 (hy.any_head? hdigit (Bool.eq_false_iff.2 fun h => ?_)))
    exact Bool.eq_false_iff.1 (admits_eq_false_iff.2 ⟨rfl, h⟩) hfits
  · refine Bool.eq_false_iff.2 fun hfits' => ?_
    have hspelling := List.all_eq_true.1 symbol.spelling_earlier q hq
    rw [Bool.and_eq_true, Bool.not_eq_true', Bool.or_eq_true, Bool.not_eq_true'] at hspelling
    obtain ⟨hshorter, hlonger⟩ := hspelling
    have hbegins : q.spelling.toList <+: symbol.spelling.toList ++ y' := by
      rw [fits, Bool.and_eq_true] at hfits'
      exact List.isPrefixOf_iff_prefix.1 hfits'.1
    -- The spelling of `q` goes on behind that of `symbol`.
    obtain ⟨v, hv⟩ : symbol.spelling.toList <+: q.spelling.toList := by
      refine (List.prefix_or_prefix_of_prefix (List.prefix_append _ _) hbegins).resolve_right ?_
      exact fun h => Bool.eq_false_iff.1 hshorter (List.isPrefixOf_iff_prefix.2 h)
    have hmore := hlonger.resolve_left (Bool.eq_false_iff.not.2 (not_not.2
      (List.isPrefixOf_iff_prefix.2 ⟨v, hv⟩)))
    rw [← hv, ← String.length_toList, List.drop_left, Bool.and_eq_true, Bool.or_eq_true,
      decide_eq_true_iff] at hmore
    obtain ⟨hplain, hmore⟩ := hmore
    have hstarts : v <+: y' := by
      rw [← hv] at hbegins
      exact (List.prefix_append_right_inj _).1 hbegins
    match v with
    | [] =>
      rw [List.append_nil] at hv
      rw [hv] at hshorter
      exact Bool.eq_false_iff.1 hshorter (List.isPrefixOf_iff_prefix.2 (List.prefix_refl _))
    | [a] =>
      have ha : Scan.delimits a = false := by simpa using hplain
      obtain ⟨z', rfl⟩ := hstarts
      obtain ⟨hhead, -⟩ := hy.head?_eq ha rfl
      obtain ⟨z, rfl⟩ := List.head?_eq_some_iff.1 hhead
      have hsplit (z : List Char) :
          symbol.spelling.toList ++ a :: z = q.spelling.toList ++ z := by
        rw [← hv, List.append_assoc, List.singleton_append]
      have hrefused := hearlier q hq
      rw [hsplit, fits_append] at hrefused
      rw [List.singleton_append, hsplit, fits_append] at hfits'
      obtain ⟨rfl, hz⟩ := admits_eq_false_iff.1 hrefused
      have hdot : a = '.' := by
        have hlast : optionalChain.spelling.toList.getLast? = some '.' := rfl
        simpa [hlast] using congrArg List.getLast? hv
      rcases hy with hdelimits | ⟨-, heq | ⟨-, hnumber⟩⟩
      · exact Bool.eq_false_iff.1 ha hdelimits
      · have hz' : z'.head?.any isDecimalDigit = true := by
          rwa [show z'.head? = z.head? from heq.symm]
        rw [admits_eq_false_iff.2 ⟨rfl, hz'⟩] at hfits'
        cases hfits'
      · exact hnumber ⟨congrArg some hdot, hz⟩
    | a :: b :: v =>
      have hab : Scan.delimits a = false ∧ Scan.delimits b = false := by
        rw [List.all_cons, List.all_cons] at hplain
        simp only [Bool.and_eq_true, Bool.not_eq_true'] at hplain
        exact ⟨hplain.1, hplain.2.1⟩
      obtain ⟨z', rfl⟩ := hstarts
      obtain ⟨hhead, htail⟩ := hy.head?_eq hab.1 rfl
      obtain ⟨z, rfl⟩ := List.head?_eq_some_iff.1 hhead
      have hnext : z.head? = some b := by
        refine htail.resolve_right fun hb => ?_
        exact Bool.eq_false_iff.1 hab.2 hb
      obtain ⟨z, rfl⟩ := List.head?_eq_some_iff.1 hnext
      have hshort := hmore.resolve_left (by simp)
      obtain ⟨q', hq', hfit⟩ := List.any_eq_true.1 hshort
      rw [Bool.and_eq_true, bne_iff_ne, beq_iff_eq] at hfit
      obtain ⟨hne, hspelled⟩ := hfit
      have hrefused := hearlier q' hq'
      have hsplit : symbol.spelling.toList ++ a :: b :: z = q'.spelling.toList ++ z := by
        rw [hspelled, List.take_length_add_append]
        simp
      rw [hsplit, fits_append, admits_of_ne hne] at hrefused
      cases hrefused

end Punctuator

namespace Scan

/-! ## The same text in front of two others -/

/-- From places where `u` is next, in front of `y` and of `y'`: if the first scan stops in `u` or at
its end, with a result and a place of which `Q` holds, the second one returns the same and stops at
the same place. -/
def Same (y y' : List Char) (Q : α → List Char → Prop) (u : List Char) (p p' : Scan α) : Prop :=
  ∀ ⦃c c' a d w⦄, c.rest = u ++ y → c'.rest = u ++ y' → Returns p c a d → d.rest = w ++ y →
    Q a w → Ends (fun e _ => e = .exhausted) p' c' fun b d' => b = a ∧ d'.rest = w ++ y'

/-- No condition on results and places. -/
def Anywhere : α → List Char → Prop := fun _ _ => True

namespace Same

variable {y y' u : List Char} {Q : β → List Char → Prop}

theorem pure (b : β) : Same y y' Q u (Pure.pure b) (Pure.pure b) := by
  intro c c' a d w hc hc' h hd _
  obtain ⟨rfl, rfl⟩ := h.of_pure
  rw [hc] at hd
  obtain rfl := List.append_cancel_right hd
  exact ⟨rfl, hc'⟩

/-- A result that is not allowed at its place. -/
theorem notHere {b : β} {p : Scan β} (h : ¬Q b u) : Same y y' Q u (Pure.pure b) p := by
  intro c c' a d w hc hc' hreturns hd hw
  obtain ⟨rfl, rfl⟩ := hreturns.of_pure
  rw [hc] at hd
  obtain rfl := List.append_cancel_right hd
  exact absurd hw h

theorem refuse (failure : Failure) {p : Scan β} : Same y y' Q u (throw failure) p := by
  rintro c c' a d w - - ⟨⟩

theorem fail (cause : ScanCause) (position : Position) {p : Scan β} :
    Same y y' Q u (Scan.fail cause position) p :=
  refuse _

theorem failed (cause : ScanCause) (position : Position) {q : α → Scan β} {p : Scan β} :
    Same y y' Q u (Scan.fail cause position >>= q) p := by
  rintro c c' a d w - - ⟨⟩

theorem anywhere {p p' : Scan β} (h : Same y y' Anywhere u p p') : Same y y' Q u p p' :=
  fun _ _ _ _ _ hc hc' hreturns hd _ => h hc hc' hreturns hd trivial

theorem mono {Q' : β → List Char → Prop} {p p' : Scan β} (h : Same y y' Q' u p p')
    (hQ : ∀ a w, w <:+ u → Q a w → Q' a w) [Forward p] : Same y y' Q u p p' :=
  fun _ _ _ _ _ hc hc' hreturns hd hw =>
    h hc hc' hreturns hd (hQ _ _ (Forward.suffix_of_eq hc hreturns hd) hw)

/-- Sequencing; what is asked of the first part follows from what the second one does. -/
theorem bindOf {Q' : α → List Char → Prop} {p p' : Scan α} {q q' : α → Scan β} [Forward p]
    [hforward : ∀ a, Forward (q a)] (hp : Same y y' Q' u p p')
    (hq : ∀ a w, w <:+ u → Same y y' Q w (q a) (q' a))
    (hQ : ∀ ⦃a w c b d v⦄, c.rest = w ++ y → Returns (q a) c b d → d.rest = v ++ y → v <:+ w →
      Q b v → Q' a w) :
    Same y y' Q u (p >>= q) (p' >>= q') := by
  intro c c' b d w hc hc' h hd hw
  obtain ⟨a, middle, hfirst, hsecond⟩ := h.of_bind
  -- What is left between the parts ends in what is left behind both.
  obtain ⟨v, hv⟩ := (hforward a).suffix hsecond
  rw [hd, ← List.append_assoc] at hv
  have hsuffix : v ++ w <:+ u := Forward.suffix_of_eq hc hfirst hv.symm
  refine (hp hc hc' hfirst hv.symm (hQ hv.symm hsecond hd ⟨v, rfl⟩ hw)).bind ?_
  rintro _ middle' ⟨rfl, hmiddle'⟩
  exact hq _ _ hsuffix hv.symm hmiddle' hsecond hd hw

theorem bind {p p' : Scan α} {q q' : α → Scan β} [Forward p] [∀ a, Forward (q a)]
    (hp : Same y y' Anywhere u p p') (hq : ∀ a w, w <:+ u → Same y y' Q w (q a) (q' a)) :
    Same y y' Q u (p >>= q) (p' >>= q') :=
  bindOf hp hq fun _ _ _ _ _ _ _ _ _ _ _ => trivial

/-- Sequencing, for a second part that needs a choice. -/
theorem step {p p' : Scan α} {q q' : α → Scan β} [Forward p] (_ : ∀ a, Forward (q a))
    (hp : Same y y' Anywhere u p p') (hq : ∀ a w, w <:+ u → Same y y' Q w (q a) (q' a)) :
    Same y y' Q u (p >>= q) (p' >>= q') :=
  bind hp hq

/-- Sequencing as in `bindOf`, for a second part that needs a choice. -/
theorem stepOf {Q' : α → List Char → Prop} {p p' : Scan α} {q q' : α → Scan β} [Forward p]
    (_ : ∀ a, Forward (q a)) (hp : Same y y' Q' u p p')
    (hq : ∀ a w, w <:+ u → Same y y' Q w (q a) (q' a))
    (hQ : ∀ ⦃a w c b d v⦄, c.rest = w ++ y → Returns (q a) c b d → d.rest = v ++ y → v <:+ w →
      Q b v → Q' a w) :
    Same y y' Q u (p >>= q) (p' >>= q') :=
  bindOf hp hq hQ

theorem ite {p q p' q' : Scan β} {b : Prop} [Decidable b] (hp : b → Same y y' Q u p p')
    (hq : ¬b → Same y y' Q u q q') :
    Same y y' Q u (if b then p else q) (if b then p' else q') := by
  by_cases h : b
  · rw [if_pos h, if_pos h]
    exact hp h
  · rw [if_neg h, if_neg h]
    exact hq h

/-- A choice that the second scan need not make. -/
theorem choice {p q p' : Scan β} {b : Prop} [Decidable b] (hp : b → Same y y' Q u p p')
    (hq : ¬b → Same y y' Q u q p') : Same y y' Q u (if b then p else q) p' := by
  by_cases h : b
  · rw [if_pos h]
    exact hp h
  · rw [if_neg h]
    exact hq h

/-- A choice that the first scan need not make. -/
theorem skipChoice {p p' q' : Scan β} {b : Prop} [Decidable b] (hb : ¬b)
    (h : Same y y' Q u p q') : Same y y' Q u p (if b then p' else q') := by
  rwa [if_neg hb]

/-- A scan that ends behind the place where `y` begins. -/
theorem behind {p p' : Scan β} (h : ∀ ⦃c b d⦄, c.rest = u ++ y → Returns p c b d →
    d.rest.length < y.length) : Same y y' Q u p p' := by
  intro c c' b d w hc _ hreturns hd _
  have hless := h hc hreturns
  rw [hd, List.length_append] at hless
  omega

/-- A scan that takes a character where `u` ends does not stop in front of `y`. -/
theorem moves {p p' : Scan β} [hp : Moves p] : Same y y' Q [] p p' :=
  behind fun c _ _ hc hreturns => by
    have hless := hp.less hreturns
    rwa [hc] at hless

/-! ### Looking at the source -/

theorem here {q q' : Position → Scan β} (h : ∀ p p', Same y y' Q u (q p) (q' p')) :
    Same y y' Q u (Scan.here >>= q) (Scan.here >>= q') :=
  fun c c' _ _ _ hc hc' hreturns hd hw => h c.position c'.position hc hc' hreturns hd hw

theorem peek {q q' : Option Char → Scan β}
    (h : Same y y' Q u (q (u ++ y).head?) (q' (u ++ y').head?)) :
    Same y y' Q u (Scan.peek >>= q) (Scan.peek >>= q') := by
  intro c c' b d w hc hc' hreturns hd hw
  change Returns (q c.rest.head?) c b d at hreturns
  change Ends _ (q' c'.rest.head?) c' _
  rw [hc] at hreturns
  rw [hc']
  exact h hc hc' hreturns hd hw

theorem peekSecond {q q' : Option Char → Scan β}
    (h : Same y y' Q u (q (u ++ y).tail.head?) (q' (u ++ y').tail.head?)) :
    Same y y' Q u (Scan.peekSecond >>= q) (Scan.peekSecond >>= q') := by
  intro c c' b d w hc hc' hreturns hd hw
  change Returns (q c.rest.tail.head?) c b d at hreturns
  change Ends _ (q' c'.rest.tail.head?) c' _
  rw [hc] at hreturns
  rw [hc']
  exact h hc hc' hreturns hd hw

/-- Asking for the kind of a character that is the same on both sides. -/
theorem nextIs_cons {p : Char → Bool} {x : Char} {q q' : Bool → Scan β}
    (h : Same y y' Q (x :: u) (q (p x)) (q' (p x))) :
    Same y y' Q (x :: u) (Scan.nextIs p >>= q) (Scan.nextIs p >>= q') := by
  intro c c' b d w hc hc' hreturns hd hw
  change Returns (q (c.rest.head?.any p)) c b d at hreturns
  change Ends _ (q' (c'.rest.head?.any p)) c' _
  rw [hc] at hreturns
  rw [hc']
  exact h hc hc' hreturns hd hw

/-- Asking for the kind of the next character, where the second scan need not ask. -/
theorem asking {p : Char → Bool} {q : Bool → Scan β} {p' : Scan β}
    (h : ∀ b, Same y y' Q u (q b) p') : Same y y' Q u (Scan.nextIs p >>= q) p' :=
  fun c _ _ _ _ hc hc' hreturns hd hw => h (c.rest.head?.any p) hc hc' hreturns hd hw

/-- Asking for the kind of the next character, where a character is taken if it is of that kind. -/
theorem nextIsOf {p : Char → Bool} {q q' : Bool → Scan β} (hy : Compatible y y')
    (hp : ∀ c, delimits c = true → p c = false) (h : ∀ b, Same y y' Q u (q b) (q' b))
    (hless : ∀ ⦃c b d⦄, c.rest.head?.any p = true → Returns (q true) c b d →
      d.rest.length < c.rest.length) :
    Same y y' Q u (Scan.nextIs p >>= q) (Scan.nextIs p >>= q') := by
  intro c c' b d w hc hc' hreturns hd hw
  change Returns (q (c.rest.head?.any p)) c b d at hreturns
  change Ends _ (q' (c'.rest.head?.any p)) c' _
  cases u with
  | cons x u =>
    rw [hc] at hreturns
    rw [hc']
    exact h _ hc hc' hreturns hd hw
  | nil =>
    cases hnext : c.rest.head?.any p with
    | true =>
      rw [hnext] at hreturns
      have := hless hnext hreturns
      rw [hc, hd, List.length_append, List.nil_append] at this
      omega
    | false =>
      rw [hnext] at hreturns
      rw [hc] at hnext
      rw [show c'.rest.head?.any p = false by rw [hc']; exact hy.any_head? hp hnext]
      exact h false hc hc' hreturns hd hw

theorem nextIs {p : Char → Bool} {q q' : Bool → Scan β} (hy : Compatible y y')
    (hp : ∀ c, delimits c = true → p c = false) (h : ∀ b, Same y y' Q u (q b) (q' b))
    [Moves (q true)] : Same y y' Q u (Scan.nextIs p >>= q) (Scan.nextIs p >>= q') :=
  nextIsOf hy hp h fun _ _ _ _ => Moves.less

/-! ### Taking characters -/

theorem advance {Q : Char → List Char → Prop} : Same y y' Q u Scan.advance Scan.advance := by
  cases u with
  | nil => exact moves
  | cons x u =>
    rintro ⟨rest, position⟩ ⟨rest', position'⟩ b d w rfl rfl h hd _
    cases h
    obtain rfl := List.append_cancel_right hd
    exact ⟨rfl, rfl⟩

theorem skip {Q : Unit → List Char → Prop} (n : Nat) :
    Same y y' Q u (Scan.skip n) (Scan.skip n) := by
  refine anywhere ?_
  induction n generalizing u with
  | zero => exact pure ()
  | succ n ih => exact bind advance fun _ w _ => ih

theorem accept {Q : Bool → List Char → Prop} (hy : Compatible y y') {x : Char}
    (hx : delimits x = false) : Same y y' Q u (Scan.accept x) (Scan.accept x) := by
  refine peek ?_
  have htake : Same y y' Q u (do let _ ← Scan.advance; Pure.pure true)
      (do let _ ← Scan.advance; Pure.pure true) := bind advance fun _ _ _ => pure _
  cases u with
  | cons z u => exact ite (fun _ => htake) fun _ => pure _
  | nil =>
    rw [List.nil_append, List.nil_append]
    by_cases hnext : y.head? = some x
    · rw [if_pos (beq_iff_eq.2 hnext)]
      exact moves
    · rw [if_neg (beq_iff_eq.not.2 hnext), if_neg (beq_iff_eq.not.2 (hy.head?_ne hx hnext))]
      exact pure _

/-! ### Loops -/

section

variable {round round' : α → Scan (Round α β)} {P : α → List Char → Prop}

/-- What holds where a loop stops, and in front of each round that goes on to where it holds, holds
wherever the loop is. -/
theorem holds_of_rounds (hforward : ∀ a, Forward (round a))
    (hP : ∀ ⦃a w c next d w'⦄, c.rest = w ++ y → Returns (round a) c next d → d.rest = w' ++ y →
      next.Holds (P · w') (Q · w') → P a w)
    {n : Nat} {a : α} {w v : List Char} {c d : Cursor} {b : β} (hc : c.rest = w ++ y)
    (h : Returns (repeatRounds round n a) c b d) (hd : d.rest = v ++ y) (hb : Q b v) : P a w := by
  induction n generalizing a w c with
  | zero => cases h
  | succ n ih =>
    obtain ⟨next, middle, hround, hrest⟩ := h.of_bind
    cases next with
    | again a' =>
      obtain ⟨t, ht⟩ := (Forward.rounds n a').suffix hrest
      rw [hd, ← List.append_assoc] at ht
      exact hP hc hround ht.symm (ih ht.symm hrest)
    | stop b' =>
      obtain ⟨rfl, rfl⟩ := hrest.of_pure
      exact hP hc hround hd hb

theorem rounds (hforward : ∀ a, Forward (round a))
    (hP : ∀ ⦃a w c next d w'⦄, c.rest = w ++ y → Returns (round a) c next d → d.rest = w' ++ y →
      next.Holds (P · w') (Q · w') → P a w)
    (hround : ∀ a u, Same y y' (fun r w => r.Holds (P · w) (Q · w)) u (round a) (round' a))
    (n n' : Nat) (a : α) :
    Same y y' Q u (repeatRounds round n a) (repeatRounds round' n' a) := by
  induction n generalizing n' a u with
  | zero => exact refuse _
  | succ n ih =>
    cases n' with
    | zero => exact fun c c' _ _ _ _ _ _ _ _ => rfl
    | succ n' =>
      refine stepOf (fun next => ?_) (hround a u) (fun next w _ => ?_) ?_
      · cases next with
        | again a' => exact .rounds n a'
        | stop b => exact .pure b
      · cases next with
        | again a' => exact ih n' a'
        | stop b => exact pure b
      · intro next w c b d v hc hreturns hd _ hb
        cases next with
        | again a' => exact holds_of_rounds hforward hP hc hreturns hd hb
        | stop b' =>
          obtain ⟨rfl, rfl⟩ := hreturns.of_pure
          rw [hc] at hd
          rwa [List.append_cancel_right hd]

theorem loop (hforward : ∀ a, Forward (round a))
    (hP : ∀ ⦃a w c next d w'⦄, c.rest = w ++ y → Returns (round a) c next d → d.rest = w' ++ y →
      next.Holds (P · w') (Q · w') → P a w)
    (hround : ∀ a u, Same y y' (fun r w => r.Holds (P · w) (Q · w)) u (round a) (round' a))
    (a : α) : Same y y' Q u (Scan.loop round a) (Scan.loop round' a) := by
  intro c c' b d w hc hc' h hd hw
  change repeatAlong round c.rest a c = _ at h
  change Ends _ (repeatAlong round' c'.rest a) c' _
  rw [repeatAlong_eq] at h ⊢
  exact rounds hforward hP hround _ _ a hc hc' h hd hw

/-- A loop whose rounds need to know nothing of what comes. -/
theorem loopOn (hforward : ∀ a, Forward (round a))
    (hround : ∀ a u, Same y y' Anywhere u (round a) (round' a)) (a : α) :
    Same y y' Anywhere u (Scan.loop round a) (Scan.loop round' a) :=
  loop (P := Anywhere) hforward (fun _ _ _ _ _ _ _ _ _ _ => trivial)
    (fun a u => (hround a u).mono fun _ _ _ _ => trivial) a

end

theorem takeWhile (hy : Compatible y y') {p : Char → Bool}
    (hp : ∀ c, delimits c = true → p c = false) :
    Same y y' Anywhere u (Scan.takeWhile p) (Scan.takeWhile p) := by
  refine loopOn (fun _ => inferInstance) (fun read u => nextIs hy hp fun b => ?_) []
  exact ite (fun _ => bind advance fun _ _ _ => pure _) fun _ => pure _

/-! ### Numbers -/

/-- Whether the decimal digits of a number go on. -/
def goesOnWithDigits (text : List Char) : Bool :=
  text.head?.any isDecimalDigit || text.head? == some '_' && text.tail.head?.any isDecimalDigit

theorem goesOnWithDigits_cons {x : Char} {text : List Char} :
    goesOnWithDigits (x :: text) = false ↔
      isDecimalDigit x = false ∧ (x == '_' && text.head?.any isDecimalDigit) = false :=
  Bool.or_eq_false_iff

theorem goesOnWithDigits_eq_false (hy : Compatible y y') (h : goesOnWithDigits y = false) :
    goesOnWithDigits y' = false := by
  have hdigit : ∀ c, delimits c = true → isDecimalDigit c = false :=
    fun _ => isDigitOf_of_delimits
  rw [goesOnWithDigits, Bool.or_eq_false_iff, Bool.and_eq_false_iff] at h ⊢
  obtain ⟨hfirst, hsecond⟩ := h
  refine ⟨hy.any_head? hdigit hfirst, ?_⟩
  by_cases hmark : y'.head? = some '_'
  · obtain ⟨hhead, htail⟩ := hy.head?_eq rfl hmark
    refine .inr ?_
    rcases htail with heq | hdelimits
    · rw [hhead] at hsecond
      simpa [← heq] using hsecond
    · exact any_eq_false_of_delimits hdigit hdelimits
  · exact .inl (beq_false_of_ne hmark)

theorem decimalDigits (hy : Compatible y y') :
    Same y y' Anywhere u Scan.decimalDigits Scan.decimalDigits := by
  have hdigit : ∀ c, delimits c = true → isDecimalDigit c = false :=
    fun _ => isDigitOf_of_delimits
  -- Where the loop goes on at the end of `u`, no digit comes: it would be taken.
  rw [decimalDigits_eq]
  refine loop (P := fun _ w => w = [] → y.head?.any isDecimalDigit = false)
    (fun read => .step fun _ => .step fun _ => inferInstance) ?_
    (fun read u => peek (peekSecond ?_)) []
  · rintro read w ⟨_, position⟩ next d w' rfl hround hd - rfl
    cases y with
    | nil => rfl
    | cons x y =>
      refine Bool.eq_false_iff.2 fun hx : isDecimalDigit x = true => ?_
      change Returns (if isDecimalDigit x = true then _ else _) ⟨x :: y, position⟩ next d at hround
      rw [if_pos hx] at hround
      have hless := Moves.less hround
      rw [hd, List.length_append] at hless
      change _ < (x :: y).length at hless
      omega
  · match u with
    | x :: z :: u =>
      refine ite (fun _ => bind (skip 1) fun _ _ _ => pure _) fun _ => ?_
      exact ite (fun _ => bind (skip 1) fun _ _ _ => pure _) fun _ => pure _
    | [x] =>
      refine ite (fun _ => bind (skip 1) fun _ _ _ => pure _) fun _ => ?_
      change Same y y' _ [x] (if (x == '_' && y.head?.any isDecimalDigit) = true then _ else _)
        (if (x == '_' && y'.head?.any isDecimalDigit) = true then _ else _)
      cases hnext : y.head?.any isDecimalDigit with
      | false =>
        rw [hy.any_head? hdigit hnext, Bool.and_false]
        exact pure _
      | true =>
        cases hx : x == '_' with
        | false => exact pure _
        | true =>
          -- The digit behind the separator would be taken.
          rintro ⟨_, position⟩ c' b d w rfl _ h hd hQ
          obtain ⟨_, middle, hskip, hagain⟩ := h.of_bind
          obtain ⟨rfl, rfl⟩ := hagain.of_pure
          cases hskip
          obtain rfl : w = [] := List.self_eq_append_left.1 hd
          cases (hQ rfl : true = false)
    | [] =>
      cases hmore : goesOnWithDigits y with
      | true =>
        cases y with
        | nil => cases hmore
        | cons x y =>
          refine choice (fun _ => moves) fun hx => choice (fun _ => moves) fun hmark => ?_
          exact absurd hmore (by simpa [goesOnWithDigits, hx] using hmark)
      | false =>
        have hmore' := goesOnWithDigits_eq_false hy hmore
        -- Both stop.
        cases y'
        on_goal 2 =>
          obtain ⟨hx', hmark'⟩ := goesOnWithDigits_cons.1 hmore'
          refine skipChoice (Bool.eq_false_iff.1 hx') (skipChoice (Bool.eq_false_iff.1 hmark') ?_)
        all_goals
          cases y with
          | nil => exact pure _
          | cons x y =>
            obtain ⟨hx, hmark⟩ := goesOnWithDigits_cons.1 hmore
            refine choice (absurd · (Bool.eq_false_iff.1 hx)) fun _ => ?_
            exact choice (absurd · (Bool.eq_false_iff.1 hmark)) fun _ => pure _

theorem exponentDigits (hy : Compatible y y') (start start' : Position) (negative : Bool) :
    Same y y' Anywhere u (Scan.exponentDigits start negative)
      (Scan.exponentDigits start' negative) := by
  refine nextIsOf hy (fun _ => isDigitOf_of_delimits) (fun b => ?_) ?_
  · exact ite (fun _ => bind (decimalDigits hy) fun _ _ _ => pure _) fun _ => failed _ _
  · intro c b d hnext h
    obtain ⟨digits, middle, hdigits, hrest⟩ := Returns.of_bind h
    obtain ⟨-, rfl⟩ := hrest.of_pure
    exact less_of_decimalDigits hnext hdigits

/-- Signs and digits stand in front of what the text ends with. -/
theorem signedExponent (hy : Compatible y y') (start start' : Position) :
    Same y y' Anywhere u (Scan.signedExponent start) (Scan.signedExponent start') := by
  have hletter (p : Char → Bool) (hp : delimiters.all (!p ·) = true) :
      ∀ c, delimits c = true → p c = false := fun _ => false_of_delimits hp
  refine nextIsOf hy (hletter _ (by decide)) (fun negative => ?_) ?_
  · refine nextIs hy (hletter _ (by decide)) fun signed => ?_
    cases signed with
    | false => exact exponentDigits hy start start' negative
    | true => exact bind (skip 1) fun _ _ _ => exponentDigits hy start start' negative
  · rintro ⟨_ | ⟨x, rest⟩, position⟩ b d hnext h
    · cases hnext
    · obtain rfl : x = '-' := by simpa using hnext
      obtain ⟨_, _, hsign, hrest⟩ := h.of_bind
      cases hsign
      dsimp only at hrest
      rw [if_pos (show Option.any (fun c => c == '+' || c == '-') ('-' :: rest).head? = true
        from rfl)] at hrest
      exact Moves.less hrest

theorem exponent? (hy : Compatible y y') (start start' : Position) :
    Same y y' Anywhere u (Scan.exponent? start) (Scan.exponent? start') := by
  rw [exponent?_eq, exponent?_eq]
  refine nextIs hy (fun _ => false_of_delimits (p := fun c => c == 'e' || c == 'E') (by decide))
    fun mark => ?_
  cases mark with
  | false => exact pure _
  | true => exact bind (skip 1) fun _ _ _ => signedExponent hy start start'

theorem radixNumeral (hy : Compatible y y') (radix : Nat) (start start' : Position) :
    Same y y' Anywhere u (Scan.radixNumeral radix start) (Scan.radixNumeral radix start') := by
  refine bind (takeWhile hy fun c hc => ?_) fun digits w _ => ?_
  · rw [isDigitOf_of_delimits hc, Bool.false_or]
    exact false_of_delimits (p := (· == '_')) (by decide) hc
  · exact ite (fun _ => failed _ _) fun _ => pure _

theorem numeral (hy : Compatible y y') (first : Char) (start start' : Position) :
    Same y y' Anywhere u (Scan.numeral first start) (Scan.numeral first start') := by
  have hdecimal (u : List Char) : Same y y' Anywhere u (do
      let leading ← Scan.decimalDigits
      if first == '.' then
        return Numeral.decimal [] (some leading) (← Scan.exponent? start)
      let fraction ← if ← Scan.accept '.' then some <$> Scan.decimalDigits else Pure.pure none
      return .decimal (first :: leading) fraction (← Scan.exponent? start)) (do
      let leading ← Scan.decimalDigits
      if first == '.' then
        return Numeral.decimal [] (some leading) (← Scan.exponent? start')
      let fraction ← if ← Scan.accept '.' then some <$> Scan.decimalDigits else Pure.pure none
      return .decimal (first :: leading) fraction (← Scan.exponent? start')) := by
    have hexponent (f : Option Int → Numeral) (u : List Char) : Same y y' Anywhere u
        (Scan.exponent? start >>= fun e => Pure.pure (f e))
        (Scan.exponent? start' >>= fun e => Pure.pure (f e)) :=
      bind (exponent? hy start start') fun _ _ _ => pure _
    refine bind (decimalDigits hy) fun leading _ _ => ite (fun _ => hexponent _ _) fun _ => ?_
    refine bind (accept hy (by decide)) fun point _ _ => ?_
    cases point with
    | false => exact hexponent _ _
    | true =>
      refine bind ?_ fun _ _ _ => hexponent _ _
      rw [map_eq_pure_bind]
      exact bind (decimalDigits hy) fun _ _ _ => pure _
  refine peek ?_
  cases u with
  | cons x u =>
    dsimp only [List.cons_append, List.head?_cons]
    generalize (if (first == '0') = true then _ else _) = radix?
    cases radix? with
    | some radix => exact bind (skip 1) fun _ _ _ => radixNumeral hy radix start start'
    | none => exact hdecimal _
  | nil =>
    have hnone (h : (if (first == '0') = true then y.head?.bind Numeral.radixOf? else none) = none) :
        (if (first == '0') = true then y'.head?.bind Numeral.radixOf? else none) = none := by
      by_cases hfirst : (first == '0') = true
      · rw [if_pos hfirst] at h ⊢
        have := hy.any_head? (p := fun c => (Numeral.radixOf? c).isSome)
          (fun _ => false_of_delimits (p := fun c => (Numeral.radixOf? c).isSome) (by decide)) (by
            cases hy : y.head? <;> simp_all)
        cases hy : y'.head? <;> simp_all
      · rw [if_neg hfirst]
    rw [List.nil_append, List.nil_append]
    generalize (if (first == '0') = true then y.head?.bind Numeral.radixOf? else none) = radix?
      at hnone ⊢
    cases radix? with
    | some radix => exact moves
    | none =>
      rw [hnone rfl]
      exact hdecimal _

theorem numericLiteral (hy : Compatible y y') (first : Char) (start start' : Position) :
    Same y y' Anywhere u (Scan.numericLiteral first start) (Scan.numericLiteral first start') := by
  have hend (token : Token) (u : List Char) : Same y y' Anywhere u (do
      if ← Scan.nextIs isIdStart then Scan.fail .identifierAfterNumber (← Scan.here)
      return token) (do
      if ← Scan.nextIs isIdStart then Scan.fail .identifierAfterNumber (← Scan.here)
      return token) := by
    refine nextIs hy (fun _ => isIdStart_of_delimits) fun follows => ?_
    cases follows with
    | false => exact pure _
    | true => exact here fun _ _ => failed _ _
  refine step (q := fun literal => closeNumber literal start) (fun _ => inferInstance)
    (numeral hy first start start') fun literal w _ => nextIsOf hy ?_ ?_ ?_
  · exact fun _ => false_of_delimits (p := (· == 'n')) (by decide)
  · refine fun big => ite (fun _ => ?_) fun _ => ?_
    · cases literal.integerText? with
      | none => exact failed _ _
      | some text => exact bind (skip 1) fun _ _ _ => hend _ _
    · cases literal.value? with
      | none => exact failed _ _
      | some value => exact hend _ _
  · intro c b d _ h
    rw [if_pos rfl] at h
    cases htext : literal.integerText? with
    | none =>
      rw [htext] at h
      cases h
    | some text =>
      rw [htext] at h
      exact Moves.less h

/-! ### Escapes -/

theorem refuted {p p' : Scan β} (h : ∀ c b d, ¬Returns p c b d) : Same y y' Q u p p' :=
  fun _ _ _ _ _ _ _ hreturns => absurd hreturns (h _ _ _)

theorem hexDigits (hy : Compatible y y') {bad bad' : Scan Unit} [Forward bad]
    (hbad : ∀ c b d, ¬Returns bad c b d) (n : Nat) :
    Same y y' Anywhere u (Scan.hexDigits bad n) (Scan.hexDigits bad' n) := by
  induction n generalizing u with
  | zero => exact pure _
  | succ n ih =>
    refine nextIsOf hy (fun _ => isDigitOf_of_delimits) (fun b => ite (fun _ => ?_) fun _ => ?_) ?_
    · exact bind advance fun _ _ _ => bind ih fun _ _ _ => pure _
    · refine refuted fun c b d h => ?_
      obtain ⟨_, _, h, -⟩ := h.of_bind
      exact hbad _ _ _ h
    · intro c b d _ h
      rw [if_pos rfl] at h
      exact Moves.less h

theorem escapedCode (hy : Compatible y y') (start start' : Position) :
    Same y y' Anywhere u (Scan.escapedCode start) (Scan.escapedCode start') := by
  have hcode (digits : List Char) (u : List Char) : Same y y' Anywhere u (do
      let code := digitsValue 16 digits
      if 0x10FFFF < code then Scan.fail .codePointOutOfBounds start
      return code) (do
      let code := digitsValue 16 digits
      if 0x10FFFF < code then Scan.fail .codePointOutOfBounds start'
      return code) :=
    ite (fun _ => failed _ _) fun _ => pure _
  refine step (fun _ => .either ?_ ?_) (accept hy (by decide)) fun braces _ _ => ?_
  · exact .step fun _ => .provided fun _ => .step fun _ => .required fun _ => .provided fun _ =>
      .pure _
  · exact .step fun _ => .provided fun _ => .pure _
  refine ite (fun _ => ?_) fun _ => ?_
  · refine step (fun _ => ?_) (takeWhile hy fun _ => isDigitOf_of_delimits) fun digits _ _ => ?_
    · exact .provided fun _ => .step fun _ => .required fun _ => .provided fun _ => .pure _
    refine ite (fun _ => failed _ _) fun _ => ?_
    refine step (fun _ => ?_) (accept hy (by decide)) fun closed _ _ => ?_
    · exact .required fun _ => .provided fun _ => .pure _
    · exact ite (fun _ => hcode _ _) fun _ => failed _ _
  · refine step (fun _ => ?_) (hexDigits hy (by rintro c b d ⟨⟩) 4) fun _ _ _ => hcode _ _
    exact .provided fun _ => .pure _

theorem unicodeEscape (hy : Compatible y y') :
    Same y y' Anywhere u Scan.unicodeEscape Scan.unicodeEscape := by
  rw [unicodeEscape_eq]
  refine here fun start start' => bind (accept hy (by decide)) fun _ _ _ => ?_
  refine bind (accept hy (by decide)) fun mark _ _ => ite (fun _ => ?_) fun _ => failed _ _
  exact escapedCode hy start start'

theorem scalarEscape (hy : Compatible y y') :
    Same y y' Anywhere u Scan.scalarEscape Scan.scalarEscape := by
  refine here fun start start' => step (fun code => ?_) (unicodeEscape hy) fun code _ _ => ?_
  · cases scalar? code with
    | none => exact .fail _ _
    | some x => exact .pure x
  · cases scalar? code with
    | some x => exact pure _
    | none => exact fail _ _

/-! ### Words -/

theorem wordStep_plain {read : List Char} {x : Char} {second : Option Char}
    (h : ¬(x = '\\' ∧ second = some 'u')) : wordStep read (some x) second =
      if fitsWord read x then do
        Scan.skip 1
        return .again (x :: read)
      else
        return .stop read.reverse := by
  unfold wordStep
  split
  · next hx =>
    cases hx
    exact absurd ⟨rfl, rfl⟩ h
  · next hx _ =>
    cases hx
    rfl
  · next hx => cases hx

theorem wordStep_stop {read : List Char} {next second : Option Char}
    (hplain : next ≠ some '\\') (hfit : next.any (fitsWord read) = false) :
    wordStep read next second = return .stop read.reverse := by
  cases next with
  | none => rfl
  | some x =>
    rw [wordStep_plain fun h => hplain (congrArg some h.1),
      if_neg (show ¬fitsWord read x = true from Bool.eq_false_iff.1 hfit)]

theorem fitsWord_of_delimits (read : List Char) {c : Char} (hc : delimits c = true) :
    fitsWord read c = false := by
  unfold fitsWord
  rw [isIdStart_of_delimits hc, isIdContinue_of_delimits hc, ite_self]

theorem word (hy : Compatible y y') (hplain : y.head? ≠ some '\\') :
    Same y y' Anywhere u Scan.word Scan.word := by
  rw [word_eq]
  refine loopOn (fun _ => inferInstance) (fun read u => peek (peekSecond ?_)) []
  · cases u with
    | nil =>
      rw [List.nil_append, List.nil_append]
      cases hfit : y.head?.any (fitsWord read) with
      | false =>
        have hplain' : y'.head? ≠ some '\\' := hy.head?_ne (by decide) hplain
        rw [wordStep_stop hplain hfit,
          wordStep_stop hplain' (hy.any_head? (fun _ => fitsWord_of_delimits read) hfit)]
        exact pure _
      | true =>
        cases y with
        | nil => cases hfit
        | cons x y =>
          rw [List.head?_cons, wordStep_plain fun h => hplain (congrArg some h.1),
            if_pos (show fitsWord read x = true from hfit)]
          exact moves
    | cons x u =>
      rw [List.cons_append, List.cons_append, List.head?_cons, List.head?_cons, List.tail_cons,
        List.tail_cons]
      by_cases hescape : x = '\\' ∧ (u ++ y).head? = some 'u'
      · obtain ⟨rfl, hsecond⟩ := hescape
        rw [hsecond]
        cases u with
        | cons z u =>
          cases hsecond
          refine here fun start start' => bind (skip 1) fun _ _ _ => ?_
          exact bind (scalarEscape hy) fun x _ _ => ite (fun _ => pure _) fun _ => failed _ _
        | nil =>
          -- The escape would go on behind `u`.
          refine behind fun c b d hc h => ?_
          obtain ⟨start, _, hhere, h⟩ := h.of_bind
          obtain ⟨_, middle, hskip, h⟩ := h.of_bind
          cases hhere
          obtain ⟨_, position⟩ := c
          cases hc
          cases hskip
          exact Moves.less h
      · have hescape' : ¬(x = '\\' ∧ (u ++ y').head? = some 'u') := by
          rintro ⟨hx, hsecond⟩
          cases u with
          | cons z u => exact hescape ⟨hx, hsecond⟩
          | nil => exact hescape ⟨hx, (hy.head?_eq (by decide) hsecond).1⟩
        rw [wordStep_plain hescape, wordStep_plain hescape']
        exact ite (fun _ => bind (skip 1) fun _ _ _ => pure _) fun _ => pure _

/-- A word ends where no escape begins and no character fits it. -/
theorem stop_of_word {c d : Cursor} {text : List Char} (h : Returns Scan.word c text d) :
    ¬(d.rest.head? = some '\\' ∧ d.rest.tail.head? = some 'u') ∧
      d.rest.head?.any (fitsWord text.reverse) = false := by
  rw [word_eq] at h
  obtain ⟨read, ⟨rest, position⟩, hlast⟩ := Returns.last_round h
  change Returns (wordStep read rest.head? rest.tail.head?) _ _ _ at hlast
  cases rest with
  | nil =>
    obtain ⟨-, rfl⟩ := hlast.of_pure
    exact ⟨by rintro ⟨⟨⟩, -⟩, rfl⟩
  | cons x rest =>
    by_cases hescape : x = '\\' ∧ rest.head? = some 'u'
    · obtain ⟨rfl, hsecond⟩ := hescape
      rw [List.tail_cons, hsecond] at hlast
      obtain ⟨start, _, -, hlast⟩ := hlast.of_bind
      obtain ⟨_, _, -, hlast⟩ := hlast.of_bind
      obtain ⟨x, _, -, hlast⟩ := hlast.of_bind
      split at hlast
      · cases hlast
      · cases hlast
    · rw [List.head?_cons, List.tail_cons, wordStep_plain hescape] at hlast
      split at hlast
      · obtain ⟨_, _, -, hlast⟩ := hlast.of_bind
        cases hlast
      · next hfit =>
        obtain ⟨hstop, rfl⟩ := hlast.of_pure
        cases hstop
        refine ⟨fun h => hescape ⟨Option.some.inj h.1, h.2⟩, ?_⟩
        rw [List.reverse_reverse]
        exact Bool.eq_false_iff.2 hfit

/-- Behind a word no character stands that could go on with it. -/
theorem not_isIdContinue_of_word {c d : Cursor} {text : List Char} (h : Returns Scan.word c text d)
    (htext : text ≠ []) : d.rest.head?.any isIdContinue = false := by
  have hfit := (stop_of_word h).2
  have hread : text.reverse.isEmpty = false := by simpa using htext
  cases hhead : d.rest.head? with
  | none => rfl
  | some x =>
    rw [hhead] at hfit
    simpa [fitsWord, hread] using hfit

theorem hasEscape_append {u y : List Char} (hplain : y.head? ≠ some '\\')
    (hstop : y.head?.any isIdContinue = false) : hasEscape (u ++ y) = hasEscape u := by
  have hend : y.takeWhile (fun c => c == '\\' || isIdContinue c) = [] := by
    cases y with
    | nil => rfl
    | cons x y =>
      refine List.takeWhile_cons_of_neg ?_
      have hx : x ≠ '\\' := fun h => hplain (congrArg some h)
      simpa [hx] using hstop
  have htake : (u ++ y).takeWhile (fun c => c == '\\' || isIdContinue c) =
      u.takeWhile fun c => c == '\\' || isIdContinue c := by
    induction u with
    | nil => exact hend
    | cons x u ih => rw [List.cons_append, List.takeWhile_cons, List.takeWhile_cons, ih]
  rw [hasEscape, htake, hasEscape]

def wordToken (escaped : Bool) (text : List Char) : Token :=
  if escaped then .identifier (String.ofList text) true
  else match Keyword.ofWord? (String.ofList text) with
    | some keyword => .keyword keyword
    | none => .identifier (String.ofList text) false

theorem identifier_eq (first : Char) (start : Position) (c : Cursor) :
    Scan.identifier first start c = (do
      let rest ← Scan.ahead
      let text ← Scan.word
      if text.isEmpty then Scan.fail (.unexpectedCharacter first) start
      else return wordToken (hasEscape rest) text) c := by
  refine congrArg (fun behind : List Char → Scan Token => (Scan.ahead >>= behind) c)
    (funext fun rest => congrArg (Scan.word >>= ·) (funext fun text => ?_))
  cases text with
  | nil => rfl
  | cons x text =>
    unfold wordToken
    dsimp only
    cases hasEscape rest with
    | true => rfl
    | false => cases Keyword.ofWord? (String.ofList (x :: text)) <;> rfl

/-- No more than the token is taken, and no less. -/
def Exactly : α → List Char → Prop := fun _ w => w = []

theorem identifier (hy : Compatible y y') (hplain : y.head? ≠ some '\\') (first : Char)
    (start start' : Position) :
    Same y y' Exactly u (Scan.identifier first start) (Scan.identifier first start') := by
  rintro ⟨_, position⟩ ⟨_, position'⟩ b d w rfl rfl h hd rfl
  rw [Returns, identifier_eq] at h
  obtain ⟨-, h⟩ := Returns.of_ahead h
  obtain ⟨text, middle, hword, hrest⟩ := h.of_bind
  split at hrest
  · cases hrest
  · next htext =>
    obtain ⟨rfl, rfl⟩ := hrest.of_pure
    have hless := (Goes.word.of_ok hword).2 (by simpa using htext)
    cases u with
    | nil =>
      rw [hd] at hless
      exact absurd hless (Nat.lt_irrefl _)
    | cons x u =>
      have hstop : y.head?.any isIdContinue = false := by
        have := not_isIdContinue_of_word hword (by simpa using htext)
        rwa [hd] at this
      have hescape : hasEscape (x :: u ++ y) = hasEscape (x :: u ++ y') := by
        rw [hasEscape_append hplain hstop, hasEscape_append (hy.head?_ne (by decide) hplain)
          (hy.any_head? (fun _ => isIdContinue_of_delimits) hstop)]
      rw [Ends, identifier_eq]
      change Ends (fun e _ => e = .exhausted) (Scan.word >>= _) _ _
      refine Ends.bind (word hy hplain rfl rfl hword hd trivial) ?_
      rintro _ stop ⟨rfl, hstop'⟩
      rw [if_neg htext, hescape]
      exact ⟨rfl, hstop'⟩

/-! ### Regular expressions, strings and templates -/

theorem pattern (start start' : Position) :
    Same y y' Anywhere u (Scan.pattern start) (Scan.pattern start') := by
  -- Each round takes a character, so none begins where `u` ends.
  refine loop (P := fun _ w => w ≠ []) (fun state => inferInstance) ?_ (fun state u => ?_) _
  · rintro state w c next d w' hc hround hd - rfl
    have hless := Moves.less hround
    rw [hc, hd, List.length_append, List.nil_append] at hless
    omega
  · cases u with
    | nil => exact moves
    | cons x u =>
      refine nextIs_cons (ite (fun _ => ?_) fun _ => failed _ _)
      refine bind advance fun c w _ => ite (fun _ => ?_) fun _ => ?_
      · cases w with
        | nil => 
          refine asking fun b => ?_
          cases b with
          | true => exact moves
          | false => exact notHere fun h => h rfl
        | cons z w => exact nextIs_cons (ite (fun _ => bind advance fun _ _ _ => pure _) fun _ => pure _)
      · exact ite (fun _ => pure _) fun _ => pure _

theorem regExp (hy : Compatible y y') (start start' : Position) :
    Same y y' Anywhere u (Scan.regExp start) (Scan.regExp start') :=
  bind (pattern start start') fun _ _ _ =>
    bind (takeWhile hy fun _ => isIdContinue_of_delimits) fun _ _ _ => pure _

end Same

/-! ## Unicode escapes in strings and templates -/

def isEscapeCharacter (c : Char) : Bool :=
  c == '\\' || c == 'u' || c == '\x7b' || c == '\x7d' || isHexDigit c

/-- The scan takes nothing but characters that Unicode escapes are made of. -/
def TakesEscape (p : Scan α) : Prop :=
  ∀ ⦃c a d⦄, Returns p c a d →
    ∃ text, c.rest = text ++ d.rest ∧ ∀ x ∈ text, isEscapeCharacter x = true

namespace TakesEscape

theorem pure (a : α) : TakesEscape (Pure.pure a) := by
  rintro c _ _ ⟨⟩
  exact ⟨[], rfl, by simp⟩

theorem bind {p : Scan α} {q : α → Scan β} (hp : TakesEscape p) (hq : ∀ a, TakesEscape (q a)) :
    TakesEscape (p >>= q) := by
  intro c b d h
  obtain ⟨a, middle, hfirst, hsecond⟩ := h.of_bind
  obtain ⟨text, htext, hall⟩ := hp hfirst
  obtain ⟨text', htext', hall'⟩ := hq a hsecond
  refine ⟨text ++ text', by rw [htext, htext', List.append_assoc], fun x hx => ?_⟩
  exact (List.mem_append.1 hx).elim (hall x) (hall' x)

theorem failed (cause : ScanCause) (position : Position) {q : α → Scan β} :
    TakesEscape (Scan.fail cause position >>= q) := by
  rintro c _ _ ⟨⟩

theorem ite {b : Prop} [Decidable b] {p q : Scan α} (hp : TakesEscape p) (hq : TakesEscape q) :
    TakesEscape (if b then p else q) := by
  by_cases h : b
  · rwa [if_pos h]
  · rwa [if_neg h]

theorem here {q : Position → Scan β} (h : ∀ p, TakesEscape (q p)) :
    TakesEscape (Scan.here >>= q) :=
  fun c _ _ hreturns => h c.position hreturns

theorem accept {x : Char} (hx : isEscapeCharacter x = true) : TakesEscape (Scan.accept x) := by
  rintro ⟨rest, position⟩ b d h
  cases rest with
  | nil =>
    cases h
    exact ⟨[], rfl, by simp⟩
  | cons z rest =>
    change Returns (if (some z == some x) = true then _ else _) _ _ _ at h
    split at h
    · next hz =>
      obtain rfl : z = x := by simpa using hz
      cases h
      exact ⟨[z], rfl, by simpa using hx⟩
    · cases h
      exact ⟨[], rfl, by simp⟩

theorem takeWhile {p : Char → Bool} (hp : ∀ x, p x = true → isEscapeCharacter x = true) :
    TakesEscape (Scan.takeWhile p) := by
  rintro ⟨rest, position⟩ text d h
  obtain ⟨stop, hstop⟩ := reads_takeWhile p rest position
  cases hstop.symm.trans h
  refine ⟨rest.takeWhile p, (List.takeWhile_append_dropWhile).symm, fun x hx => hp x ?_⟩
  exact List.all_eq_true.1 List.all_takeWhile x hx

theorem hexDigits (cause : ScanCause) (position : Position) (n : Nat) :
    TakesEscape (Scan.hexDigits (Scan.fail cause position) n) := by
  induction n with
  | zero => exact pure []
  | succ n ih =>
    rintro ⟨rest, position⟩ text d h
    cases rest with
    | nil => cases h
    | cons x rest =>
      change Returns (if isHexDigit x = true then _ else _) _ _ _ at h
      split at h
      · next hx =>
        obtain ⟨_, middle, hadvance, h⟩ := h.of_bind
        cases hadvance
        obtain ⟨more, hmore, hall⟩ := bind ih (fun _ => pure _) h
        refine ⟨x :: more, congrArg (x :: ·) hmore, fun z hz => ?_⟩
        rcases List.mem_cons.1 hz with rfl | hz
        · simp [isEscapeCharacter, hx]
        · exact hall z hz
      · cases h

theorem unicodeEscape : TakesEscape Scan.unicodeEscape := by
  have hdigits : ∀ x, isHexDigit x = true → isEscapeCharacter x = true := fun x hx => by
    simp [isEscapeCharacter, hx]
  refine here fun start => bind (accept rfl) fun _ => bind (accept rfl) fun mark => ?_
  refine ite (bind (accept rfl) fun braces => ite ?_ ?_) (failed _ _)
  · refine bind (takeWhile hdigits) fun digits => ite (failed _ _) (bind (accept rfl) fun closed => ?_)
    exact ite (ite (failed _ _) (pure _)) (failed _ _)
  · exact bind (hexDigits _ _ 4) fun digits => ite (failed _ _) (pure _)

end TakesEscape

namespace Same

variable {y y' u : List Char} {Q : β → List Char → Prop}

/-- A character is left that no Unicode escape takes, such as the closing mark of a string. -/
def Guarded : α → List Char → Prop := fun _ w => ∃ x ∈ w, isEscapeCharacter x = false

theorem unguarded {p p' : Scan β} [Forward p] (hu : ∀ x ∈ u, isEscapeCharacter x = true) :
    Same y y' Guarded u p p' := by
  rintro c c' b d w hc _ h hd ⟨x, hx, hguard⟩
  rw [hu x ((Forward.suffix_of_eq hc h hd).mem hx)] at hguard
  cases hguard

theorem secondEscape (hy : Compatible y y') (code : Nat) : Same y y' Guarded u (do
    let second ← MonadState.get
    let low ← Scan.unicodeEscape
    if isLowSurrogate low then
      return (scalar? (joinSurrogates code low)).getD '\uFFFD'
    set second
    return '\uFFFD') (do
    let second ← MonadState.get
    let low ← Scan.unicodeEscape
    if isLowSurrogate low then
      return (scalar? (joinSurrogates code low)).getD '\uFFFD'
    set second
    return '\uFFFD') := by
  rintro c c' b d w hc hc' h hd ⟨x, hx, hguard⟩
  have hw := Forward.secondEscape.suffix_of_eq hc h hd
  obtain ⟨low, e, hlow, hrest⟩ := Returns.of_bind (p := Scan.unicodeEscape)
    (show Returns (Scan.unicodeEscape >>= fun _ => _) c b d from h)
  -- The second escape ends in front of the character that it cannot take.
  obtain ⟨v, he⟩ : ∃ v, e.rest = v ++ y := by
    obtain ⟨text, htext, hall⟩ := TakesEscape.unicodeEscape hlow
    rw [hc] at htext
    rcases List.append_eq_append_iff.1 htext with ⟨v, rfl, -⟩ | ⟨v, -, hv⟩
    · rw [hall x (List.mem_append_left _ (hw.mem hx))] at hguard
      cases hguard
    · exact ⟨v, hv⟩
  refine Ends.bind (E := fun e _ => e = .exhausted) (p := Scan.unicodeEscape)
    (unicodeEscape hy hc hc' hlow he trivial) ?_
  rintro _ e' ⟨rfl, he'⟩
  split at hrest
  · next hpair =>
    obtain ⟨hb, hde⟩ := hrest.of_pure
    rw [← hde, hd] at he
    rw [if_pos hpair, List.append_cancel_right he]
    exact ⟨hb.symm, he'⟩
  · next hpair =>
    obtain ⟨_, middle, hset, hrest⟩ := hrest.of_bind
    obtain ⟨hb, hdm⟩ := hrest.of_pure
    have hback : middle = c := by cases hset; rfl
    rw [hdm, hback, hc] at hd
    rw [if_neg hpair, ← List.append_cancel_right hd]
    exact ⟨hb.symm, hc'⟩

theorem textUnicodeEscape (hy : Compatible y y') :
    Same y y' Guarded u Scan.textUnicodeEscape Scan.textUnicodeEscape := by
  unfold Scan.textUnicodeEscape
  refine step (fun code => ?_) (unicodeEscape hy) fun code w _ => ?_
  · cases scalar? code with
    | some x => exact .pure x
    | none => exact .step fun _ => .step fun _ => .either .secondEscape inferInstance
  cases scalar? code with
  | some x => exact pure _
  | none =>
    refine peek (peekSecond ?_)
    rcases w with _ | ⟨x, _ | ⟨z, w⟩⟩
    · exact @unguarded _ _ _ _ _ _ (.either .secondEscape inferInstance) (by simp)
    · by_cases hx : x = '\\'
      · exact @unguarded _ _ _ _ _ _ (.either .secondEscape inferInstance)
          (by simp [hx, isEscapeCharacter])
      · have hother (second : Option Char) :
            ¬(isHighSurrogate code && some x == some '\\' && second == some 'u') = true := by
          simp [hx]
        refine choice (absurd · (hother _)) fun _ => skipChoice (hother _) (pure _)
    · exact ite (fun _ => secondEscape hy code) fun _ => pure _

/-- Asking for the kind of the next character, where a guarded one is left. -/
theorem askGuarded {p : Char → Bool} {q q' : Bool → Scan β} (hforward : ∀ b, Forward (q b))
    (h : ∀ b, Same y y' Guarded u (q b) (q' b)) :
    Same y y' Guarded u (Scan.nextIs p >>= q) (Scan.nextIs p >>= q') := by
  cases u with
  | nil => exact @unguarded _ _ _ _ _ _ (.step hforward) (by simp)
  | cons x u => exact nextIs_cons (h _)

/-- Going back in front of a character that is no line terminator. -/
theorem revisit {x : Char} (hx : isLineTerminator x = false) {q q' : Unit → Scan β}
    (h : Same y y' Q (x :: u) (q ()) (q' ())) :
    Same y y' Q (x :: u) (Scan.revisit >>= q) (Scan.revisit >>= q') := by
  rintro ⟨_, position⟩ ⟨_, position'⟩ b d w rfl rfl hreturns hd hw
  obtain ⟨_, c, hback, hreturns⟩ := hreturns.of_bind
  rw [eq_of_revisit hback] at hreturns
  change Ends _ (Scan.revisit >>= q') _ _
  rw [Ends]
  simp only [Bind.bind, EStateM.bind, List.cons_append, revisit_eq hx]
  exact h rfl rfl hreturns hd hw

theorem textEscape (hy : Compatible y y') (x : Char) (inTemplate : Bool) (start start' : Position) :
    Same y y' Guarded (x :: u) (Scan.textEscape x inTemplate start)
      (Scan.textEscape x inTemplate start') := by
  rw [textEscape_eq, textEscape_eq]
  refine ite (fun hx => revisit ?_ (bindOf (textUnicodeEscape hy) (fun _ _ _ => pure _) ?_))
    fun _ => ?_
  · rw [beq_iff_eq.1 hx]
    rfl
  · rintro a w c b d v hc h hd hvw ⟨z, hz, hguard⟩
    exact ⟨z, hvw.mem hz, hguard⟩
  · refine bind (skip 1) fun _ w _ => ?_
    unfold Scan.plainEscape
    cases simpleEscape? x with
    | some denoted => exact pure _
    | none =>
      refine askGuarded (fun _ => inferInstance) fun digit => ite (fun _ => pure _) fun _ => ?_
      refine ite (fun _ => failed _ _) fun _ => ite (fun _ => ?_) fun _ => ite (fun _ => ?_) fun _ => ?_
      · exact bind (hexDigits hy (by rintro c b d ⟨⟩) 2) fun _ _ _ => pure _
      · cases w with
        | nil => exact unguarded (by simp)
        | cons z w =>
          refine bind (peek (ite (fun _ => ?_) fun _ => pure _)) fun _ _ _ => pure _
          exact bind advance fun _ _ _ => pure _
      · exact ite (fun _ => pure _) fun _ => pure _

/-- The round of an escape, in a loop that ends behind a guard. -/
theorem escapeStep {γ : Type} (hy : Compatible y y') {Q : γ → List Char → Prop}
    (unclosed : ScanCause) (inTemplate : Bool) (start start' : Position) (read : List Char) :
    Same y y' (fun r w => r.Holds (fun a => Guarded a w) (Q · w)) u
      (do Scan.escapeStep unclosed inTemplate start read (← Scan.peek))
      (do Scan.escapeStep unclosed inTemplate start' read (← Scan.peek)) := by
  refine peek ?_
  cases u with
  | nil => exact moves
  | cons x u =>
    refine bindOf (textEscape hy x inTemplate start start') (fun _ _ _ => pure _) ?_
    intro a w c r d v hc h hd hvw hr
    obtain ⟨rfl, rfl⟩ := h.of_pure
    rw [hc] at hd
    rw [List.append_cancel_right hd]
    exact hr

theorem ne_stop_of_escapeStep {γ : Type} {unclosed : ScanCause} {inTemplate : Bool}
    {start : Position} {read : List Char} {next : Option Char} {c d : Cursor} {b : γ}
    (h : Returns (Scan.escapeStep unclosed inTemplate start read next) c (.stop b) d) : False := by
  cases next with
  | none => cases h
  | some x =>
    obtain ⟨_, _, -, h⟩ := h.of_bind
    cases h

/-- A string stops at its quote. -/
theorem next_of_stringStep {quote : Char} {start : Position} {read : List Char}
    {next : Option Char} {c d : Cursor} {b : List Char}
    (h : Returns (Scan.stringStep quote start read next) c (.stop b) d) : next = some quote := by
  cases next with
  | none => cases h
  | some x =>
    rw [Scan.stringStep] at h
    split at h
    · next hx => rw [beq_iff_eq.1 hx]
    · split at h
      · obtain ⟨_, _, -, h⟩ := h.of_bind
        obtain ⟨_, _, -, h⟩ := h.of_bind
        exact (ne_stop_of_escapeStep h).elim
      · split at h
        · cases h
        · obtain ⟨_, _, -, h⟩ := h.of_bind
          cases h

/-- A piece of a template stops at its closing mark or at a substitution. -/
theorem next_of_templateStep {start : Position} {read : List Char} {next second : Option Char}
    {c d : Cursor} {b : List Char × TemplateEnd}
    (h : Returns (Scan.templateStep start read next second) c (.stop b) d) :
    next = some '\x60' ∨ next = some '$' := by
  unfold Scan.templateStep at h
  split at h
  · cases h
  · exact .inl rfl
  · exact .inr rfl
  · obtain ⟨_, _, -, h⟩ := h.of_bind
    obtain ⟨_, _, -, h⟩ := h.of_bind
    exact (ne_stop_of_escapeStep h).elim
  · obtain ⟨_, _, -, h⟩ := h.of_bind
    cases h

/-- A loop that ends with a character of some kind has one in front of each round. -/
theorem mem_of_round {round : Scan (Round α β)} [Forward round] [Moves round] {P : Char → Prop}
    {Q : β → List Char → Prop} {w w' : List Char} {c d : Cursor} {next : Round α β}
    (hc : c.rest = w ++ y) (hround : Returns round c next d) (hd : d.rest = w' ++ y)
    (hstop : ∀ b, next = .stop b → ∃ x, c.rest.head? = some x ∧ P x)
    (hnext : next.Holds (fun _ => ∃ x ∈ w', P x) (Q · w')) : ∃ x ∈ w, P x := by
  cases next with
  | again a' =>
    obtain ⟨x, hx, hP⟩ := hnext
    exact ⟨x, (Forward.suffix_of_eq hc hround hd).mem hx, hP⟩
  | stop b =>
    obtain ⟨x, hhead, hP⟩ := hstop b rfl
    cases w with
    | nil =>
      have hless := Moves.less hround
      rw [hc, hd, List.length_append, List.nil_append] at hless
      omega
    | cons z w =>
      rw [hc] at hhead
      cases hhead
      exact ⟨_, List.mem_cons_self, hP⟩

theorem stringLiteral (hy : Compatible y y') {quote : Char}
    (hquote : isEscapeCharacter quote = false) (start start' : Position) :
    Same y y' Anywhere u (Scan.stringLiteral quote start) (Scan.stringLiteral quote start') := by
  rw [stringLiteral_eq, stringLiteral_eq]
  refine bind ?_ fun _ _ _ => pure _
  -- The closing quote is left in front of each round.
  refine loop (P := Guarded) (fun _ => inferInstance) ?_ (fun read u => peek ?_) []
  · intro read w c next d w' hc hround hd hnext
    refine mem_of_round hc hround hd ?_ hnext
    rintro b rfl
    exact ⟨quote, next_of_stringStep hround, hquote⟩
  · cases u with
    | nil => exact moves
    | cons x u =>
      refine ite (fun _ => bind (skip 1) fun _ _ _ => pure _) fun _ => ite (fun _ => ?_) fun _ => ?_
      · exact step (fun _ => inferInstance) (skip 1) fun _ _ _ => escapeStep hy _ _ _ _ _
      · exact ite (fun _ => fail _ _) fun _ => bind (skip 1) fun _ _ _ => pure _

theorem templateCharacters (hy : Compatible y y') (start start' : Position) :
    Same y y' Anywhere u (Scan.templateCharacters start) (Scan.templateCharacters start') := by
  rw [templateCharacters_eq, templateCharacters_eq]
  -- The closing mark or the substitution is left in front of each round.
  refine loop (P := Guarded) (fun _ => inferInstance) ?_ (fun read u => peek (peekSecond ?_)) []
  · intro read w c next d w' hc hround hd hnext
    refine mem_of_round hc hround hd ?_ hnext
    rintro b rfl
    rcases next_of_templateStep hround with h | h
    · exact ⟨_, h, by decide⟩
    · exact ⟨_, h, by decide⟩
  · cases u with
    | nil => exact moves
    | cons x u =>
      rw [List.cons_append, List.cons_append, List.head?_cons, List.head?_cons, List.tail_cons,
        List.tail_cons]
      by_cases hclose : x = '\x60'
      · subst hclose
        exact bind (skip 1) fun _ _ _ => pure _
      by_cases hescape : x = '\\'
      · subst hescape
        exact step (fun _ => inferInstance) (skip 1) fun _ _ _ => escapeStep hy _ _ _ _ _
      by_cases hsubstitution : x = '$' ∧ (u ++ y).head? = some '\x7b'
      · obtain ⟨rfl, hsecond⟩ := hsubstitution
        rw [hsecond]
        cases u with
        | cons z u =>
          cases hsecond
          exact bind (skip 2) fun _ _ _ => pure _
        | nil =>
          -- The substitution would open behind `u`.
          refine behind fun c b d hc h => ?_
          obtain ⟨_, position⟩ := c
          obtain ⟨rest, rfl⟩ := List.head?_eq_some_iff.1 hsecond
          cases hc
          cases h
          exact Nat.lt_succ_self _
      · have hsubstitution' : ¬(x = '$' ∧ (u ++ y').head? = some '\x7b') := by
          rintro ⟨hx, hsecond⟩
          cases u with
          | cons z u => exact hsubstitution ⟨hx, hsecond⟩
          | nil => exact hsubstitution ⟨hx, (hy.head?_eq (by decide) hsecond).1⟩
        rw [templateStep_plain hclose hescape hsubstitution,
          templateStep_plain hclose hescape hsubstitution']
        exact bind (skip 1) fun _ _ _ => pure _

/-- A piece of a template holds its closing mark or that of the substitution behind it. -/
theorem mem_of_templateCharacters {start : Position} {v : List Char} {c d : Cursor}
    {piece : List Char × TemplateEnd} (h : Returns (Scan.templateCharacters start) c piece d)
    (hc : c.rest = v ++ d.rest) : ∃ x ∈ v, x = '\x60' ∨ x = '$' := by
  rw [templateCharacters_eq] at h
  change repeatAlong _ c.rest [] c = _ at h
  rw [repeatAlong_eq] at h
  refine holds_of_rounds (P := fun _ w => ∃ x ∈ w, x = '\x60' ∨ x = '$') (Q := Anywhere) (v := [])
    (fun _ => inferInstance) ?_ hc h rfl trivial
  intro read w c next d w' hc hround hd hnext
  refine mem_of_round hc hround hd ?_ hnext
  rintro b rfl
  rcases next_of_templateStep hround with h | h
  · exact ⟨_, h, .inl rfl⟩
  · exact ⟨_, h, .inr rfl⟩

theorem templateStart (hy : Compatible y y') (start start' : Position) :
    Same y y' Anywhere u (Scan.templateStart start) (Scan.templateStart start') := by
  refine step (fun (cooked, ending) => ?_) (templateCharacters hy start start')
    fun (cooked, ending) _ _ => ?_
  · cases ending <;> exact .pure _
  · cases ending <;> exact pure _

theorem templateContinuation (hy : Compatible y y') (start start' : Position) :
    Same y y' Anywhere u (Scan.templateContinuation start) (Scan.templateContinuation start') := by
  refine step (fun (cooked, ending) => ?_) (templateCharacters hy start start')
    fun (cooked, ending) _ _ => ?_
  · cases ending <;> exact .pure _
  · cases ending <;> exact pure _

/-! ## Tokens -/

/-- In front of a digit, a number that begins with a point takes it. -/
theorem less_of_numericLiteral {start : Position} {c d : Cursor} {token : Token}
    (hnext : c.rest.head?.any isDecimalDigit = true)
    (h : Returns (Scan.numericLiteral '.' start) c token d) : d.rest.length < c.rest.length := by
  rw [numericLiteral_eq] at h
  obtain ⟨literal, middle, hnumeral, hclose⟩ := h.of_bind
  have hle := (Forward.suffix hclose).length_le
  obtain ⟨digits, middle', hdigits, hexponent⟩ := Returns.of_bind (p := Scan.decimalDigits) hnumeral
  have hless := less_of_decimalDigits hnext hdigits
  rw [if_pos (show ('.' == '.') = true from rfl)] at hexponent
  have hle' := (Forward.suffix hexponent).length_le
  omega

theorem plainToken (hy : Compatible y y') (first : Char)
    (hplain : y.head? ≠ some '\\' ∨ beginsWord first = false) (start start' : Position) :
    Same y y' Exactly (first :: u) (Scan.plainToken first start)
      (Scan.plainToken first start') := by
  refine ite (fun _ => ?_) fun _ => ite (fun hquote => ?_) fun _ => ite (fun _ => ?_) fun _ => ?_
  · exact bind (skip 1) fun _ _ _ => (numericLiteral hy _ _ _).anywhere
  · refine bind (skip 1) fun _ _ _ => (stringLiteral hy ?_ _ _).anywhere
    rw [Bool.or_eq_true, beq_iff_eq, beq_iff_eq] at hquote
    rcases hquote with rfl | rfl <;> decide
  · exact bind (skip 1) fun _ _ _ => (templateStart hy _ _).anywhere
  · refine ite (fun hword => ?_) fun _ => bind (skip 1) fun _ _ _ => fail _ _
    exact identifier hy (hplain.resolve_right (Bool.ne_false_iff.2 hword)) _ _ _

theorem tokenOf (hy : Compatible y y') (first : Char)
    (hplain : y.head? ≠ some '\\' ∨ beginsWord first = false) (start start' : Position) :
    Same y y' Exactly (first :: u) (Scan.tokenOf first start (first :: u ++ y))
      (Scan.tokenOf first start' (first :: u ++ y')) := by
  have hdigit : ∀ c, delimits c = true → isDecimalDigit c = false :=
    fun _ => isDigitOf_of_delimits
  unfold Scan.tokenOf
  rw [List.cons_append, List.cons_append, List.tail_cons, List.tail_cons]
  by_cases hnumber : (first == '.' && (u ++ y).head?.any isDecimalDigit) = true
  · rw [if_pos hnumber]
    cases u with
    | cons z u =>
      rw [if_pos (show (first == '.' && (z :: u ++ y').head?.any isDecimalDigit) = true
        from hnumber)]
      exact bind (skip 1) fun _ _ _ => (numericLiteral hy _ _ _).anywhere
    | nil =>
      -- The digits would go on behind the point.
      refine behind fun c b d hc h => ?_
      obtain ⟨_, middle, hskip, h⟩ := h.of_bind
      obtain ⟨_, position⟩ := c
      cases hc
      cases hskip
      exact less_of_numericLiteral (Bool.and_eq_true_iff.1 hnumber).2 h
  · have hnumber' : ¬(first == '.' && (u ++ y').head?.any isDecimalDigit) = true := by
      cases u with
      | cons z u => exact hnumber
      | nil =>
        rw [Bool.and_eq_true, not_and, Bool.not_eq_true] at hnumber ⊢
        exact fun h => hy.any_head? hdigit (hnumber h)
    rw [if_neg hnumber, if_neg hnumber']
    cases hsymbol : Punctuator.ofText? (first :: (u ++ y)) with
    | none =>
      rw [Punctuator.ofText?_eq_none (Punctuator.candidates_eq_nil hsymbol)]
      exact plainToken hy first hplain start start'
    | some symbol =>
      intro c c' b d w hc hc' h hd hw
      -- What is taken is the spelling of the symbol.
      have hspelling : symbol.spelling.toList = first :: u := by
        obtain ⟨_, middle, hskip, hend⟩ := h.of_bind
        obtain ⟨hle, hdrop⟩ := drop_of_skip hskip
        obtain ⟨-, rfl⟩ := hend.of_pure
        have hbegins := Punctuator.prefix_of_ofText? hsymbol
        rw [hd, show w = [] from hw, List.nil_append, hc] at hdrop
        have hlength := congrArg List.length hdrop
        rw [List.length_drop, List.length_append] at hlength
        rw [hc, List.length_append] at hle
        refine List.prefix_of_prefix_length_le hbegins (List.prefix_append _ y) ?_ |>.eq_of_length ?_
        · rw [String.length_toList]
          omega
        · rw [String.length_toList]
          omega
      have hsymbol' : Punctuator.ofText? (first :: (u ++ y')) = some symbol := by
        rw [← List.cons_append, ← hspelling] at hsymbol ⊢
        exact Punctuator.ofText?_compatible hy hsymbol
      rw [hsymbol']
      exact bind (Q := Anywhere) (skip _) (fun _ _ _ => pure _) hc hc' h hd trivial

theorem languageToken (hy : Compatible y y') (first : Char)
    (hplain : y.head? ≠ some '\\' ∨ beginsWord first = false) (start start' : Position) :
    Same y y' Exactly (first :: u) (Scan.languageToken first start)
      (Scan.languageToken first start') := by
  intro c c' b d w hc hc' h hd hw
  rw [Returns, languageToken_eq, hc] at h
  rw [Ends, languageToken_eq, hc']
  exact tokenOf hy first hplain start start' hc hc' h hd hw

/-- What is read in front of `y` is read in front of `y'` as well, wherever it stands. -/
theorem reads {p p' : Scan β} (h : Same y y' Q u p p') (hgoes : ∀ c, GoesOn p' c)
    {position stop : Position} {b : β} (hreturns : Returns p ⟨u ++ y, position⟩ b ⟨y, stop⟩)
    (hQ : Q b []) : Reads p' (u ++ y') b y' := by
  intro position'
  have hends := @h _ ⟨u ++ y', position'⟩ _ _ [] rfl rfl hreturns rfl hQ
  cases hp : p' ⟨u ++ y', position'⟩ with
  | ok b' d' =>
    obtain ⟨rfl, hrest⟩ := hends.of_ok hp
    refine ⟨d'.position, ?_⟩
    rw [Returns, hp, ← show d'.rest = y' from hrest]
  | error e d' =>
    obtain rfl := hends.of_error hp
    exact absurd hp ((hgoes _).ne_exhausted d')

end Same

end Scan

/-- What the rule reads depends on nothing behind it. -/
def TokenRule.IsLocal (rule : TokenRule) : Prop :=
  rule.Reads fun first p => ∀ ⦃y y' u⦄, Scan.Compatible y y' → y.head? ≠ some '\\' →
    Scan.Same y y' Scan.Same.Exactly (first :: u) p p

theorem TokenRule.isLocal_privateName : TokenRule.privateName.IsLocal := by
  refine reads_sigil fun y y' u hy hplain => ?_
  refine .bind (.peek ?_) fun _ _ _ => .bind (.word hy hplain) fun _ _ _ => .pure _
  change Scan.Same y y' _ ('#' :: u) (some <$> Scan.advance) (some <$> Scan.advance)
  rw [map_eq_pure_bind]
  exact .bind .advance fun _ _ _ => .pure _

/-- A token that ends in front of `y` is read in front of `y'` as well, wherever it stands. -/
theorem Scan.reads_token {rules : List TokenRule} (hadvances : ∀ rule ∈ rules, rule.Advances)
    (hlocal : ∀ rule ∈ rules, rule.IsLocal) {u y y' : List Char} (hu : u ≠ [])
    (hy : Compatible y y') (hplain : y.head? ≠ some '\\' ∨
      ∀ first ∈ u.head?, beginsWord first = false ∧ ∀ rule ∈ rules, rule first = pure none)
    {position stop : Position} {token : Token}
    (h : Returns (Scan.token rules) ⟨u ++ y, position⟩ token ⟨y, stop⟩) :
    Reads (Scan.token rules) (u ++ y') token y' := by
  obtain ⟨first, u, rfl⟩ := List.exists_cons_of_ne_nil hu
  have hsame : Same y y' Same.Exactly (first :: u) (Scan.token rules) (Scan.token rules) := by
    rintro ⟨_, start⟩ ⟨_, start'⟩ a d w rfl rfl hreturns
    rw [List.cons_append, Returns] at hreturns
    rw [Ends, List.cons_append]
    rcases token_cases hlocal first with ⟨-, htoken⟩ | ⟨rule, hrule, p, hfirst, hp, htoken⟩
    · rw [htoken] at hreturns ⊢
      exact Same.languageToken hy first (hplain.imp_right fun h => (h first rfl).1) start start'
        rfl rfl hreturns
    · rw [htoken] at hreturns ⊢
      refine hp hy (hplain.resolve_right fun h => ?_) rfl rfl hreturns
      exact map_some_ne_declined hreturns (hfirst.symm.trans ((h first rfl).2 rule hrule))
  exact hsame.reads (fun c => (Goes.token hadvances c).mono fun _ _ _ _ => trivial) h rfl

end EcmaScript
