import EcmaScript.Proofs.Lexer

/-!
Scans end, and tokens take characters.

`Ends E p s Q` says how the computation `p` ends from the state `s`: with a result and a state as
`Q` says, or in a failure and a state as `E` says. For a scan (`Scan.Goes`), `E` leaves nothing but
errors of the source: no character is requested behind the end, and no loop runs out of rounds.
Both in success and in failure the cursor has moved on in the same source.

A loop of the scanner may take as many rounds as there are characters in front of it. What has to
be shown of each round is that it takes a character whenever it goes on.
-/

namespace EcmaScript

variable {σ α β : Type}

/-- Where the computation ends from `s`: `Q` holds of a result and its state, `E` of a failure and
its state. -/
def Ends (E : Failure → σ → Prop) (p : EStateM Failure σ α) (s : σ) (Q : α → σ → Prop) : Prop :=
  match p s with
  | .ok a s' => Q a s'
  | .error e s' => E e s'

/-- What holds of the outcome of a round, by whether it goes on or stops. -/
def Round.Holds (again : α → Prop) (stop : β → Prop) : Round α β → Prop
  | .again a => again a
  | .stop b => stop b

namespace Ends

variable {E E' : Failure → σ → Prop} {p : EStateM Failure σ α} {s : σ} {Q R : α → σ → Prop}

theorem of_ok (h : Ends E p s Q) {a : α} {s' : σ} (hp : p s = .ok a s') : Q a s' := by
  unfold Ends at h
  rwa [hp] at h

theorem of_error (h : Ends E p s Q) {e : Failure} {s' : σ} (hp : p s = .error e s') : E e s' := by
  unfold Ends at h
  rwa [hp] at h

theorem mono (h : Ends E p s Q) (hQ : ∀ a s', Q a s' → R a s') (hE : ∀ e s', E e s' → E' e s') :
    Ends E' p s R := by
  unfold Ends
  cases hp : p s with
  | ok a s' => exact hQ a s' (h.of_ok hp)
  | error e s' => exact hE e s' (h.of_error hp)

/-- Sequencing, where it matters how the first computation has gone. -/
theorem andThen {q : α → EStateM Failure σ β} {R : β → σ → Prop} (h : Ends E p s Q)
    (hq : ∀ a s', p s = .ok a s' → Q a s' → Ends E (q a) s' R) : Ends E (p >>= q) s R := by
  unfold Ends
  simp only [Bind.bind, EStateM.bind]
  cases hp : p s with
  | ok a s' => exact hq a s' hp (h.of_ok hp)
  | error e s' => exact h.of_error hp

theorem bind {q : α → EStateM Failure σ β} {R : β → σ → Prop} (h : Ends E p s Q)
    (hq : ∀ a s', Q a s' → Ends E (q a) s' R) : Ends E (p >>= q) s R :=
  h.andThen fun a s' _ => hq a s'

/-- A loop ends if each round that goes on lowers a measure which is below the bound, or if the
bound may be reached. -/
theorem rounds {round : α → EStateM Failure σ (Round α β)} {I : α → σ → Prop} {m : σ → Nat}
    {Q : β → σ → Prop}
    (hround : ∀ a s, I a s → Ends E (round a) s fun r s' =>
      r.Holds (fun a' => I a' s' ∧ m s' < m s) fun b => Q b s')
    (bound : Nat) (a : α) (s : σ) (hstart : I a s)
    (hbound : m s < bound ∨ ∀ a s, I a s → E .exhausted s) :
    Ends E (repeatRounds round bound a) s Q := by
  induction bound generalizing a s with
  | zero =>
    cases hbound with
    | inl h => exact absurd h (Nat.not_lt_zero _)
    | inr h => exact h a s hstart
  | succ bound ih =>
    refine (hround a s hstart).bind fun r s' hr => ?_
    cases r with
    | again a' =>
      obtain ⟨hagain, hless⟩ := hr
      exact ih a' s' hagain (hbound.imp_left fun h => by omega)
    | stop b => exact hr

/-- A loop ends as its rounds do, if the rounds may run out. -/
theorem loop {round : α → EStateM Failure σ (Round α β)} {I : α → σ → Prop} {Q : β → σ → Prop}
    (hround : ∀ a s, I a s → Ends E (round a) s fun r s' => r.Holds (I · s') (Q · s'))
    (hexhausted : ∀ a s, I a s → E .exhausted s) (bound : Nat) (a : α) (s : σ)
    (hstart : I a s) : Ends E (repeatRounds round bound a) s Q := by
  induction bound generalizing a s with
  | zero => exact hexhausted a s hstart
  | succ bound ih =>
    refine (hround a s hstart).bind fun r s' hr => ?_
    cases r with
    | again a' => exact ih a' s' hr
    | stop b => exact hr

end Ends

/-- One cursor stands at or behind another one, in the same source. -/
structure Cursor.Leads (c c' : Cursor) : Prop where
  suffix : c'.rest <:+ c.rest
  total_eq : c'.position.offset + c'.rest.length = c.position.offset + c.rest.length

namespace Cursor.Leads

variable {c c' c'' : Cursor}

theorem length_le (h : c.Leads c') : c'.rest.length ≤ c.rest.length := h.suffix.length_le

theorem refl (c : Cursor) : c.Leads c := ⟨List.suffix_refl _, rfl⟩

theorem trans (h : c.Leads c') (h' : c'.Leads c'') : c.Leads c'' :=
  ⟨h'.suffix.trans h.suffix, h'.total_eq.trans h.total_eq⟩

end Cursor.Leads

namespace Scan

/-- The scan ends with a result of which `Q` holds, or in an error of the source; in both cases the
cursor has moved on. -/
def Goes (p : Scan α) (c : Cursor) (Q : α → Cursor → Prop) : Prop :=
  Ends (fun e c' => c.Leads c' ∧ ∃ d, e = .error d) p c fun a c' => c.Leads c' ∧ Q a c'

/-- The scan ends with a result or in an error of the source. -/
def GoesOn (p : Scan α) (c : Cursor) : Prop := Goes p c fun _ _ => True

/-- The scan takes a character unless it fails. -/
def GoesPast (p : Scan α) (c : Cursor) : Prop :=
  Goes p c fun _ c' => c'.rest.length < c.rest.length

/-! ## Parts of scans -/

/-- What is done behind a backslash in a string or template. -/
def escapeStep {γ : Type} (unclosed : ScanCause) (inTemplate : Bool) (start : Position)
    (read : List Char) : Option Char → Scan (Round (List Char) γ)
  | none => fail unclosed start
  | some x => return .again ((← textEscape x inTemplate start).reverse ++ read)

/-- What is done in front of the next character when a string is read. -/
def stringStep (quote : Char) (start : Position) (read : List Char) :
    Option Char → Scan (Round (List Char) (List Char))
  | none => fail .unterminatedString start
  | some c => do
    if c == quote then
      skip 1
      return .stop read.reverse
    else if c == '\\' then
      skip 1
      escapeStep .unterminatedString false start read (← peek)
    else if c == '\n' || c == '\r' then
      fail .unterminatedString start
    else
      skip 1
      return .again (c :: read)

theorem stringLiteral_eq (quote : Char) (start : Position) : stringLiteral quote start = (do
    let value ← loop (fun read => do stringStep quote start read (← peek)) []
    return .string (String.ofList value)) := rfl

def patternTake (state : PatternRead) (c : Char) : Scan (Round PatternRead (List Char)) := do
  if c == '\\' then
    if ← nextIs (!isLineTerminator ·) then
      return .again { state with read := (← advance) :: c :: state.read }
    else
      return .again { state with read := c :: state.read }
  else if c == '/' && !state.inClass then
    return .stop state.read.reverse
  else
    let inClass := if c == '[' then true else if c == ']' then false else state.inClass
    return .again ⟨c :: state.read, inClass⟩

/-- What is done at a place of a pattern. -/
def patternStep (start : Position) (state : PatternRead) :
    Scan (Round PatternRead (List Char)) := do
  unless ← nextIs (!isLineTerminator ·) do fail .unterminatedRegExp start
  patternTake state (← advance)

/-- What is done in front of the next two characters when a piece of a template is read. -/
def templateStep (start : Position) (read : List Char) (next second : Option Char) :
    Scan (Round (List Char) (List Char × TemplateEnd)) :=
  match next, second with
  | none, _ => fail .unterminatedTemplate start
  | some '\x60', _ => do
    skip 1
    return .stop (read.reverse, .close)
  | some '$', some '\x7b' => do
    skip 2
    return .stop (read.reverse, .substitution)
  | some '\\', _ => do
    skip 1
    escapeStep .unterminatedTemplate true start read (← peek)
  | some c, _ => do
    skip 1
    return .again (c :: read)

theorem templateCharacters_eq (start : Position) : templateCharacters start =
    loop (fun read => do templateStep start read (← peek) (← peekSecond)) [] := rfl

def digitStep (read : List Char) (next second : Option Char) :
    Scan (Round (List Char) (List Char)) :=
  match next, second with
  | some c, next => do
    if isDecimalDigit c then
      skip 1
      return .again (c :: read)
    else if c == '_' && next.any isDecimalDigit then
      skip 1
      return .again read
    else
      return .stop read.reverse
  | none, _ => return .stop read.reverse

theorem decimalDigits_eq : decimalDigits = loop (fun read => do
    digitStep read (← peek) (← peekSecond)) [] := rfl

def wordStep (read : List Char) (next second : Option Char) :
    Scan (Round (List Char) (List Char)) :=
  match next, second with
  | some '\\', some 'u' => do
    let start ← here
    skip 1
    let c ← scalarEscape
    unless fitsWord read c do fail .escapeNotInIdentifier start
    return .again (c :: read)
  | some c, _ => do
    if fitsWord read c then
      skip 1
      return .again (c :: read)
    else
      return .stop read.reverse
  | none, _ => return .stop read.reverse

theorem word_eq : word = loop (fun read => do
    wordStep read (← peek) (← peekSecond)) [] := rfl

def exponentDigits (start : Position) (negative : Bool) : Scan (Option Int) := do
  unless ← nextIs isDecimalDigit do fail .invalidNumber start
  let magnitude : Int := digitsValue 10 (← decimalDigits)
  return some (if negative then -magnitude else magnitude)

def signedExponent (start : Position) : Scan (Option Int) := do
  let negative ← nextIs (· == '-')
  if ← nextIs (fun c => c == '+' || c == '-') then skip 1
  exponentDigits start negative

theorem exponent?_eq (start : Position) : exponent? start = (do
    unless ← nextIs (fun c => c == 'e' || c == 'E') do return none
    skip 1
    signedExponent start) := rfl

def escapedCode (start : Position) : Scan Nat := do
  let digits ←
    if ← accept '\x7b' then do
      let digits ← takeWhile isHexDigit
      if digits.isEmpty then fail .badEscape start
      unless ← accept '\x7d' do fail .badEscape start
      pure digits
    else
      hexDigits (fail .badEscape start) 4
  let code := digitsValue 16 digits
  if 0x10FFFF < code then fail .codePointOutOfBounds start
  return code

theorem unicodeEscape_eq : unicodeEscape = (do
    let start ← here
    let _ ← accept '\\'
    unless ← accept 'u' do fail .badEscape start
    escapedCode start) := rfl

/-- An escape in a string or a template that does not begin with `u`, behind its first character. -/
def plainEscape (c : Char) (inTemplate : Bool) (start : Position) : Scan (List Char) := do
  if let some denoted := simpleEscape? c then
    return [denoted]
  if c == '0' && !(← nextIs isDecimalDigit) then
    return ['\x00']
  if isDecimalDigit c && inTemplate then
    fail .octalInTemplate start
  if c == 'x' then
    let digits ← hexDigits (do fail .badEscape (← here)) 2
    return (scalar? (digitsValue 16 digits)).toList
  if c == '\r' then
    let _ ← accept '\n'
    return []
  if isLineTerminator c then
    return []
  return [c]

theorem textEscape_eq (c : Char) (inTemplate : Bool) (start : Position) :
    textEscape c inTemplate start = (do
      if c == 'u' then
        revisit
        return [← textUnicodeEscape]
      skip 1
      plainEscape c inTemplate start) := rfl

/-- The token of a number that has been read up to its suffix. -/
def closeNumber (literal : Numeral) (start : Position) : Scan Token := do
  let token : Token ←
    if ← nextIs (· == 'n') then do
      match literal.integerText? with
      | none => fail .invalidBigInt start
      | some text =>
        skip 1
        pure (.bigInt text)
    else
      match literal.value? with
      | none => fail .invalidNumber start
      | some value => pure (.number value)
  if ← nextIs isIdStart then fail .identifierAfterNumber (← here)
  return token

theorem numericLiteral_eq (first : Char) (start : Position) : numericLiteral first start = (do
    closeNumber (← numeral first start) start) := rfl

namespace Goes

variable {p : Scan α} {c : Cursor} {Q : α → Cursor → Prop}

/-! ## How scans are built -/

theorem pure {a : α} (h : Q a c) : Goes (Pure.pure a) c Q := ⟨.refl c, h⟩

theorem refuse (d : Diagnostic) : Goes (throw (.error d)) c Q := ⟨.refl c, d, rfl⟩

theorem fail (cause : ScanCause) (position : Position) : Goes (Scan.fail cause position) c Q :=
  refuse _

theorem bind {q : α → Scan β} {R : β → Cursor → Prop} (h : Goes p c Q)
    (hq : ∀ a c', c.Leads c' → Q a c' → Goes (q a) c' R) : Goes (p >>= q) c R := by
  refine Ends.bind h fun a c' ⟨hlead, ha⟩ => ?_
  refine (hq a c' hlead ha).mono (fun b c'' ⟨h, hb⟩ => ⟨hlead.trans h, hb⟩) ?_
  rintro e c'' ⟨h, hrefused⟩
  exact ⟨hlead.trans h, hrefused⟩

theorem mono {R : α → Cursor → Prop} (h : Goes p c Q)
    (hR : ∀ a c', c.Leads c' → Q a c' → R a c') : Goes p c R :=
  Ends.mono h (fun a c' ⟨hlead, ha⟩ => ⟨hlead, hR a c' hlead ha⟩) fun _ _ h => h

theorem map {f : α → β} {R : β → Cursor → Prop} (h : Goes p c fun a => R (f a)) :
    Goes (f <$> p) c R := by
  rw [map_eq_pure_bind]
  exact h.bind fun a c' _ ha => pure ha

/-- A failure in front of the rest of a scan. -/
theorem failed {q : α → Scan β} {R : β → Cursor → Prop} (h : Goes p c fun _ _ => False) :
    Goes (p >>= q) c R :=
  h.bind fun _ _ _ h => h.elim

theorem ite {b : Prop} [Decidable b] {p q : Scan α} (hp : b → Goes p c Q) (hq : ¬b → Goes q c Q) :
    Goes (if b then p else q) c Q := by
  by_cases h : b
  · rw [if_pos h]
    exact hp h
  · rw [if_neg h]
    exact hq h

/-- A loop ends if each of its rounds takes a character whenever it goes on. -/
theorem loop {round : α → Scan (Round α β)} {I : α → Cursor → Prop} {Q : β → Cursor → Prop}
    (hround : ∀ a c, I a c → Goes (round a) c fun r c' =>
      r.Holds (fun a' => I a' c' ∧ c'.rest.length < c.rest.length) fun b => Q b c')
    {a : α} (hstart : I a c) : Goes (Scan.loop round a) c Q := by
  change Ends _ (repeatAlong round c.rest a) c _
  rw [repeatAlong_eq]
  refine Ends.rounds (I := fun a c' => c.Leads c' ∧ I a c') (m := fun c' => c'.rest.length)
    (fun a c' ⟨hlead, ha⟩ => ?_) _ a c ⟨.refl c, hstart⟩ (.inl (Nat.lt_succ_self _))
  refine Ends.mono (hround a c' ha) (fun r c'' ⟨h, hr⟩ => ?_) ?_
  · cases r with
    | again a' => exact ⟨⟨hlead.trans h, hr.1⟩, hr.2⟩
    | stop b => exact ⟨hlead.trans h, hr⟩
  · rintro e c'' ⟨h, hrefused⟩
    exact ⟨hlead.trans h, hrefused⟩

/-- A loop whose rounds need no invariant. -/
theorem loopOn {round : α → Scan (Round α β)}
    (hround : ∀ a c, Goes (round a) c fun r c' =>
      r.Holds (fun _ => c'.rest.length < c.rest.length) fun _ => True) (a : α) :
    GoesOn (Scan.loop round a) c := by
  refine loop (I := fun _ _ => True) (fun a c _ => (hround a c).mono fun r c' _ hr => ?_) trivial
  cases r with
  | again a' => exact ⟨trivial, hr⟩
  | stop b => exact hr

/-! ## Looking at the source -/

section

variable {R : β → Cursor → Prop}

theorem get {q : Cursor → Scan β} (h : Goes (q c) c R) : Goes (MonadState.get >>= q) c R := h

theorem here {q : Position → Scan β} (h : Goes (q c.position) c R) : Goes (Scan.here >>= q) c R :=
  h

theorem peek {q : Option Char → Scan β} (h : Goes (q c.rest.head?) c R) :
    Goes (Scan.peek >>= q) c R := h

theorem peekSecond {q : Option Char → Scan β} (h : Goes (q c.rest.tail.head?) c R) :
    Goes (Scan.peekSecond >>= q) c R := h

theorem nextIs {p : Char → Bool} {q : Bool → Scan β} (htrue : 0 < c.rest.length → Goes (q true) c R)
    (hfalse : c.rest.head?.any p = false → Goes (q false) c R) :
    Goes (Scan.nextIs p >>= q) c R := by
  change Goes (q (c.rest.head?.any p)) c R
  cases hnext : c.rest.head? with
  | none => exact hfalse (by rw [hnext]; rfl)
  | some x =>
    change Goes (q (p x)) c R
    cases hx : p x with
    | true => exact htrue (List.length_pos_of_mem (List.mem_of_mem_head? hnext))
    | false => exact hfalse (by rw [hnext]; exact hx)

theorem look {p : Char → Bool} {q : Bool → Scan β} (h : ∀ b, Goes (q b) c R) :
    Goes (Scan.nextIs p >>= q) c R :=
  nextIs (fun _ => h true) fun _ => h false

end

theorem length_pos_of_peek {x : Char} (h : c.rest.head? = some x) : 0 < c.rest.length :=
  List.length_pos_of_mem (List.mem_of_mem_head? h)

theorem length_of_peekSecond {x : Char} (h : c.rest.tail.head? = some x) : 2 ≤ c.rest.length := by
  have htail := List.length_pos_of_mem (List.mem_of_mem_head? h)
  rw [List.length_tail] at htail
  omega

/-! ## Steps -/

theorem advance (h : 0 < c.rest.length) :
    Goes Scan.advance c fun _ c' => c'.rest.length + 1 = c.rest.length := by
  obtain ⟨rest, position⟩ := c
  cases rest with
  | nil => exact absurd h (Nat.lt_irrefl 0)
  | cons x rest =>
    refine ⟨⟨List.suffix_cons _ _, ?_⟩, rfl⟩
    simp only [Position.past_offset, List.length_cons]
    omega

/-- Going back in front of a character that is no line terminator. -/
theorem revisit {q : Unit → Scan β} {R : β → Cursor → Prop} {x : Char} (h : c.rest.head? = some x)
    (hx : isLineTerminator x = false) (hq : Goes (q ()) c R) : Goes (Scan.revisit >>= q) c R := by
  obtain ⟨rest, position⟩ := c
  obtain ⟨rest, rfl⟩ := List.head?_eq_some_iff.1 h
  change Ends _ (Scan.revisit >>= q) _ _
  rw [Ends]
  simp only [Bind.bind, EStateM.bind, revisit_eq hx]
  exact hq

/-- Looking at what is left, which is not nothing. -/
theorem ahead {q : List Char → Scan β} {R : β → Cursor → Prop} (h : 0 < c.rest.length)
    (hq : Goes (q c.rest) c R) : Goes (Scan.ahead >>= q) c R := by
  obtain ⟨rest, position⟩ := c
  cases rest with
  | nil => exact absurd h (Nat.lt_irrefl 0)
  | cons x rest => exact hq

theorem skip {n : Nat} (h : n ≤ c.rest.length) :
    Goes (Scan.skip n) c fun _ c' => c'.rest.length + n = c.rest.length := by
  induction n generalizing c with
  | zero => exact pure rfl
  | succ n ih =>
    refine (advance (by omega)).bind fun _ c' _ hone => ?_
    exact (ih (by omega)).mono fun _ c'' _ hmore => by omega

/-- A character in front of the rest of a scan. -/
theorem one {q : Unit → Scan β} {R : β → Cursor → Prop} (h : 0 < c.rest.length)
    (hq : ∀ c', c'.rest.length < c.rest.length → Goes (q ()) c' R) :
    Goes (Scan.skip 1 >>= q) c R :=
  (skip h).bind fun _ c' _ hone => hq c' (by omega)

/-- A character in front of the rest of a scan, which may be missing. -/
theorem optional {p : Char → Bool} {q : Unit → Scan β} {R : β → Cursor → Prop}
    (hq : ∀ c', Goes (q ()) c' R) :
    Goes (Scan.nextIs p >>= fun b => if b = true then Scan.skip 1 >>= q else q ()) c R :=
  nextIs (fun hsome => one hsome fun c' _ => hq c') fun _ => hq c

theorem bump (h : 0 < c.rest.length) : GoesPast Scan.bump c := by
  refine peek ?_
  cases hnext : c.rest.head? with
  | none =>
    have hempty := List.head?_eq_none_iff.1 hnext
    simp [hempty] at h
  | some x => exact map ((advance h).mono fun _ c' _ hone => by omega)

theorem accept (expected : Char) : GoesOn (Scan.accept expected) c := by
  refine peek (ite (fun hnext => ?_) fun _ => pure trivial)
  have hsome : 0 < c.rest.length := length_pos_of_peek (beq_iff_eq.1 hnext)
  exact (advance hsome).bind fun _ _ _ _ => pure trivial

theorem takeWhile (p : Char → Bool) : GoesOn (Scan.takeWhile p) c := by
  refine loopOn (fun read c => nextIs (fun hsome => ?_) fun _ => pure trivial) []
  refine (advance hsome).bind fun _ c' _ hone => pure ?_
  change c'.rest.length < c.rest.length
  omega

/-- A run of characters that is not empty. -/
theorem takeWhile_past {p : Char → Bool} {x : Char} (hnext : c.rest.head? = some x)
    (hx : p x = true) : GoesPast (Scan.takeWhile p) c := by
  -- The loop does not stop where it begins: there it finds a character of the run.
  refine loop (I := fun _ c' => c' = c ∨ c'.rest.length < c.rest.length) (fun read c' hc' => ?_)
    (.inl rfl)
  refine nextIs (fun hsome => ?_) fun hstop => pure ?_
  · refine (advance hsome).bind fun _ c'' _ hone => pure ?_
    change (c'' = c ∨ c''.rest.length < c.rest.length) ∧ c''.rest.length < c'.rest.length
    rcases hc' with rfl | hless <;> omega
  · rcases hc' with rfl | hless
    · simp [hnext, hx] at hstop
    · exact hless

/-! ## Trivia -/

theorem skipLine : GoesOn Scan.skipLine c := (takeWhile _).bind fun _ _ _ _ => pure trivial

theorem skipLine_past {x : Char} (hnext : c.rest.head? = some x) (hx : isLineTerminator x = false) :
    GoesPast Scan.skipLine c :=
  (takeWhile_past hnext (by rw [hx]; rfl)).bind fun _ _ _ hless => pure hless

theorem skipBlockComment (h : 2 ≤ c.rest.length) : GoesPast Scan.skipBlockComment c := by
  refine here ((skip h).bind fun _ c' _ htwo => ?_)
  refine (loopOn (c := c') (fun _ c => peek (peekSecond ?_)) ()).mono fun _ c'' hlead _ => by
    have hless := hlead.length_le
    omega
  split
  · exact fail _ _
  · next hsecond => exact (skip (length_of_peekSecond hsecond)).bind fun _ _ _ _ => pure trivial
  · next hnext _ => exact one (length_pos_of_peek hnext) fun c' hless => pure hless

theorem skipTrivia : GoesOn Scan.skipTrivia c := by
  refine loopOn (fun _ c => peek (peekSecond ?_)) ()
  split
  · next hnext _ => exact (skipLine_past hnext rfl).bind fun _ c' _ hless => pure hless
  · next hsecond =>
    exact (skipBlockComment (length_of_peekSecond hsecond)).bind fun _ c' _ hless => pure hless
  · next hnext _ _ =>
    refine ite (fun _ => ?_) fun _ => pure trivial
    exact one (length_pos_of_peek hnext) fun c' hless => pure hless
  · exact pure trivial

theorem skipHashbang : GoesOn Scan.skipHashbang c :=
  peek (peekSecond (ite (fun _ => skipLine) fun _ => pure trivial))

/-! ## Regular expressions and numbers -/

/-- A round of the loop over a pattern takes a character whenever it goes on. -/
theorem patternStep (start : Position) (state : PatternRead) :
    Goes (Scan.patternStep start state) c
      fun r c' => r.Holds (fun _ => c'.rest.length < c.rest.length) fun _ => True := by
  refine nextIs (fun hsome => ?_) fun _ => failed (fail _ _)
  refine (advance hsome).bind fun x c' _ hone => ?_
  have hless : c'.rest.length < c.rest.length := by omega
  refine ite (fun _ => nextIs (fun hmore => ?_) fun _ => pure hless) fun _ => ?_
  · refine (advance hmore).bind fun _ c'' hlead _ => pure ?_
    exact Nat.lt_of_le_of_lt hlead.length_le hless
  · exact ite (fun _ => pure trivial) fun _ => pure hless

theorem pattern (start : Position) : GoesOn (Scan.pattern start) c :=
  loopOn (fun state _ => patternStep start state) _

theorem regExp (start : Position) : GoesOn (Scan.regExp start) c :=
  (pattern start).bind fun _ _ _ _ => (takeWhile _).bind fun _ _ _ _ => pure trivial

theorem decimalDigits : GoesOn Scan.decimalDigits c := by
  refine loopOn (fun read c => peek (peekSecond ?_)) []
  split
  · next hnext =>
    have hsome := length_pos_of_peek hnext
    refine ite (fun _ => one hsome fun c' hless => pure hless) fun _ => ?_
    exact ite (fun _ => one hsome fun c' hless => pure hless) fun _ => pure trivial
  · exact pure trivial

theorem exponent? (start : Position) : GoesOn (Scan.exponent? start) c := by
  refine nextIs (fun hmark => one hmark fun c' _ => look fun negative => ?_) fun _ => pure trivial
  refine optional fun c'' => nextIs (fun _ => ?_) fun _ => failed (fail _ _)
  exact decimalDigits.bind fun _ _ _ _ => pure trivial

theorem radixNumeral (radix : Nat) (start : Position) : GoesOn (Scan.radixNumeral radix start) c :=
  (takeWhile _).bind fun _ _ _ _ => ite (fun _ => failed (fail _ _)) fun _ => pure trivial

theorem numeral (first : Char) (start : Position) : GoesOn (Scan.numeral first start) c := by
  refine peek ?_
  split
  · next hradix =>
    have hsome : 0 < c.rest.length := by
      cases hnext : c.rest.head? with
      | none => simp [hnext] at hradix
      | some x => exact length_pos_of_peek hnext
    exact one hsome fun c' _ => radixNumeral _ start
  · refine decimalDigits.bind fun leading c' _ _ => ?_
    refine ite (fun _ => (exponent? start).bind fun _ _ _ _ => pure trivial) fun _ => ?_
    refine (accept '.').bind fun point c'' _ _ => ?_
    have hend (fraction : Option (List Char)) (c : Cursor) : GoesOn (do
        return Numeral.decimal (first :: leading) fraction (← Scan.exponent? start)) c :=
      (exponent? start).bind fun _ _ _ _ => pure trivial
    refine ite (fun _ => ?_) fun _ => hend none c''
    exact (map (R := fun _ _ => True) decimalDigits).bind fun fraction c _ _ => hend fraction c

theorem numericLiteral (first : Char) (start : Position) :
    GoesOn (Scan.numericLiteral first start) c := by
  have hend (token : Token) (c : Cursor) : GoesOn (do
      if ← Scan.nextIs isIdStart then Scan.fail .identifierAfterNumber (← Scan.here)
      return token) c :=
    nextIs (fun _ => here (failed (fail _ _))) fun _ => pure trivial
  refine (numeral first start).bind fun literal c' _ _ => nextIs (fun hsuffix => ?_) fun _ => ?_
  · change Goes (match literal.integerText? with | _ => _) _ _
    cases literal.integerText? with
    | none => exact failed (fail _ _)
    | some text => exact one hsuffix fun c'' _ => hend _ c''
  · change Goes (match literal.value? with | _ => _) _ _
    cases literal.value? with
    | none => exact failed (fail _ _)
    | some value => exact hend _ c'

/-! ## Escapes -/

theorem hexDigits {bad : Scan Unit} (hbad : ∀ c, Goes bad c fun _ _ => False) (n : Nat) :
    GoesOn (Scan.hexDigits bad n) c := by
  induction n generalizing c with
  | zero => exact pure trivial
  | succ n ih =>
    refine nextIs (fun hsome => ?_) fun _ => failed (hbad c)
    exact (advance hsome).bind fun _ _ _ _ => ih.bind fun _ _ _ _ => pure trivial

theorem unicodeEscape : GoesOn Scan.unicodeEscape c := by
  refine here ((accept _).bind fun _ c _ _ => (accept _).bind fun mark c _ _ => ?_)
  refine ite (fun _ => ?_) fun _ => failed (fail _ _)
  refine (accept _).bind fun braces c _ _ => ite (fun _ => ?_) fun _ => ?_
  · refine (takeWhile _).bind fun digits c _ _ => ite (fun _ => failed (fail _ _)) fun _ => ?_
    refine (accept _).bind fun closed c _ _ => ite (fun _ => ?_) fun _ => failed (fail _ _)
    exact ite (fun _ => failed (fail _ _)) fun _ => pure trivial
  · refine (hexDigits (fun c => fail _ _) 4).bind fun digits c _ _ => ?_
    exact ite (fun _ => failed (fail _ _)) fun _ => pure trivial

theorem scalarEscape : GoesOn Scan.scalarEscape c := by
  refine here (unicodeEscape.bind fun code c _ _ => ?_)
  cases scalar? code with
  | none => exact fail _ _
  | some x => exact pure trivial

/-- A second escape that does not complete a pair is given back. -/
theorem textUnicodeEscape : GoesOn Scan.textUnicodeEscape c := by
  refine unicodeEscape.bind fun code c _ _ => ?_
  cases scalar? code with
  | some x => exact pure trivial
  | none =>
    refine peek (peekSecond (ite (fun _ => get ?_) fun _ => pure trivial))
    refine Ends.bind (unicodeEscape (c := c)) fun low c' ⟨hlead, _⟩ => ?_
    by_cases hlow : isLowSurrogate low = true
    · rw [if_pos hlow]
      exact ⟨hlead, trivial⟩
    · rw [if_neg hlow]
      exact ⟨.refl c, trivial⟩

theorem textEscape {x : Char} (h : c.rest.head? = some x) (inTemplate : Bool) (start : Position) :
    GoesOn (Scan.textEscape x inTemplate start) c := by
  refine ite (fun hx => revisit h ?_ ?_) fun _ => ?_
  · rw [beq_iff_eq.1 hx]
    rfl
  · exact textUnicodeEscape.bind fun _ _ _ _ => pure trivial
  refine one (length_pos_of_peek h) fun c _ => ?_
  cases simpleEscape? x with
  | some denoted => exact pure trivial
  | none =>
    refine look fun digit => ite (fun _ => pure trivial) fun _ => ?_
    refine ite (fun _ => failed (fail _ _)) fun _ => ite (fun _ => ?_) fun _ => ?_
    · exact (hexDigits (fun c => here (fail _ _)) 2).bind fun _ _ _ _ => pure trivial
    · refine ite (fun _ => (accept _).bind fun _ _ _ _ => pure trivial) fun _ => ?_
      exact ite (fun _ => pure trivial) fun _ => pure trivial

/-! ## Strings, templates and words -/

/-- An escape behind its backslash, in a round of a loop. -/
theorem escapeStep {unclosed : ScanCause} {inTemplate : Bool} {start : Position}
    {read : List Char} {n : Nat} {Q : β → Cursor → Prop} (h : c.rest.length < n) :
    Goes (do Scan.escapeStep unclosed inTemplate start read (← Scan.peek)) c
      fun r c' => r.Holds (fun _ => c'.rest.length < n) fun b => Q b c' := by
  refine peek ?_
  cases hnext : c.rest.head? with
  | none => exact fail _ _
  | some x =>
    refine (textEscape hnext inTemplate start).bind fun _ c' hlead _ => ?_
    exact pure (Nat.lt_of_le_of_lt hlead.length_le h)

/-- A round of the loop over a string takes a character whenever it goes on. -/
theorem stringStep (quote : Char) (start : Position) (read : List Char) :
    Goes (do Scan.stringStep quote start read (← Scan.peek)) c
      fun r c' => r.Holds (fun _ => c'.rest.length < c.rest.length) fun _ => True := by
  refine peek ?_
  cases hnext : c.rest.head? with
  | none => exact fail _ _
  | some x =>
    have hsome := length_pos_of_peek hnext
    refine ite (fun _ => one hsome fun _ _ => pure trivial) fun _ => ?_
    refine ite (fun _ => one hsome fun c' hless => escapeStep hless) fun _ => ?_
    exact ite (fun _ => fail _ _) fun _ => one hsome fun c' hless => pure hless

theorem stringLiteral (quote : Char) (start : Position) :
    GoesOn (Scan.stringLiteral quote start) c := by
  rw [stringLiteral_eq]
  exact (loopOn (fun read c => stringStep quote start read) []).bind fun _ _ _ _ => pure trivial

theorem templateCharacters (start : Position) : GoesOn (Scan.templateCharacters start) c := by
  refine loopOn (fun read c => peek (peekSecond ?_)) []
  split
  · exact fail _ _
  · next hnext => exact one (length_pos_of_peek hnext) fun _ _ => pure trivial
  · next hsecond => exact (skip (length_of_peekSecond hsecond)).bind fun _ _ _ _ => pure trivial
  · next hnext =>
    exact one (length_pos_of_peek hnext) fun c' hless => escapeStep hless
  · next hnext _ => exact one (length_pos_of_peek hnext) fun c' hless => pure hless

theorem templateStart (start : Position) : GoesOn (Scan.templateStart start) c := by
  refine (templateCharacters start).bind fun (cooked, stop) _ _ _ => ?_
  cases stop <;> exact pure trivial

theorem templateContinuation (start : Position) : GoesOn (Scan.templateContinuation start) c := by
  refine (templateCharacters start).bind fun (cooked, stop) _ _ _ => ?_
  cases stop <;> exact pure trivial

/-- A word that is not empty has taken characters. -/
theorem word : Goes Scan.word c fun text c' => text ≠ [] → c'.rest.length < c.rest.length := by
  -- As soon as something has been read, a character has been taken.
  refine loop (I := fun read c' => c'.rest.length ≤ c.rest.length ∧
    (read ≠ [] → c'.rest.length < c.rest.length)) (fun read c' hread => peek (peekSecond ?_))
    ⟨Nat.le_refl _, fun h => absurd rfl h⟩
  split
  · next hnext _ =>
    refine here (one (length_pos_of_peek hnext) fun c'' hless => ?_)
    refine scalarEscape.bind fun x c'' hlead _ => ite (fun _ => pure ?_) fun _ => failed (fail _ _)
    have hmoved : c''.rest.length < c'.rest.length := Nat.lt_of_le_of_lt hlead.length_le hless
    exact ⟨⟨by omega, fun _ => by omega⟩, hmoved⟩
  · next hnext _ =>
    refine ite (fun _ => one (length_pos_of_peek hnext) fun c'' hless => pure ?_) fun _ => pure ?_
    · exact ⟨⟨by omega, fun _ => by omega⟩, hless⟩
    · exact fun h => hread.2 (by simpa using h)
  · exact pure fun h => hread.2 (by simpa using h)

theorem identifier (first : Char) (start : Position) (h : 0 < c.rest.length) :
    GoesPast (Scan.identifier first start) c := by
  refine ahead h (word.bind fun text c' _ hword => ?_)
  refine ite (fun _ => failed (fail _ _)) fun htext => ?_
  have hless : c'.rest.length < c.rest.length := hword (by simpa using htext)
  refine ite (fun _ => pure hless) fun _ => ?_
  cases Keyword.ofWord? (String.ofList text) <;> exact pure hless

/-! ## Tokens -/

/-- A punctuator is spelled by what stands in front of the cursor, and not by nothing. -/
theorem spelling_of_ofText? {text : List Char} {symbol : Punctuator}
    (h : Punctuator.ofText? text = some symbol) :
    0 < symbol.spelling.length ∧ symbol.spelling.length ≤ text.length := by
  have hfits := List.find?_some h
  rw [Bool.and_eq_true] at hfits
  have hprefix : symbol.spelling.toList <+: text := List.isPrefixOf_iff_prefix.1 hfits.1
  refine ⟨by cases symbol <;> decide, ?_⟩
  have hlength := hprefix.length_le
  rwa [String.length_toList] at hlength

theorem languageToken (first : Char) (start : Position) (h : 0 < c.rest.length) :
    GoesPast (Scan.languageToken first start) c := by
  -- Behind a first character the rest of the token may have any length.
  have hbehind {p : Scan Token} (hp : ∀ c, GoesOn p c) : GoesPast (do Scan.skip 1; p) c :=
    one h fun c' hless => (hp c').mono fun _ c'' hlead _ =>
      Nat.lt_of_le_of_lt hlead.length_le hless
  refine get (ite (fun _ => hbehind fun _ => numericLiteral _ _) fun _ => ?_)
  split
  · next symbol hsymbol =>
    obtain ⟨hpos, hfits⟩ := spelling_of_ofText? hsymbol
    refine (skip hfits).bind fun _ c' _ hskip => pure ?_
    omega
  · refine ite (fun _ => hbehind fun _ => numericLiteral _ _) fun _ => ?_
    refine ite (fun _ => hbehind fun _ => stringLiteral _ _) fun _ => ?_
    refine ite (fun _ => hbehind fun _ => templateStart _) fun _ => ?_
    exact ite (fun _ => identifier _ _ h) fun _ => hbehind fun _ => fail _ _

end Goes

end Scan

/-- In front of its character the rule claims a token and takes a character, or declines and leaves
the cursor where it is, unless it fails with an error of the source. -/
def TokenRule.Advances (rule : TokenRule) : Prop :=
  ∀ first rest position, Scan.Goes (rule first) ⟨first :: rest, position⟩ fun claimed c =>
    match claimed with
    | some _ => c.rest.length < (first :: rest).length
    | none => c = ⟨first :: rest, position⟩

theorem TokenRule.Reads.advances {rule : TokenRule}
    (h : rule.Reads fun _ p => ∀ c : Cursor, 0 < c.rest.length → Scan.GoesPast p c) :
    rule.Advances := by
  intro first rest position
  rcases h first with hdeclines | ⟨p, hclaims, hp⟩
  · rw [hdeclines]
    exact .pure rfl
  · rw [hclaims]
    exact .map (hp ⟨first :: rest, position⟩ (Nat.zero_lt_succ _))

theorem TokenRule.advances_sigil (mark : Char) : (TokenRule.sigil mark).Advances := by
  refine (reads_sigil fun c hsome => (Scan.Goes.bump hsome).bind fun _ c' _ hless => ?_).advances
  refine Scan.Goes.word.bind fun _ c'' hlead _ => .pure ?_
  exact Nat.lt_of_le_of_lt hlead.length_le hless

theorem TokenRule.advances_privateName : TokenRule.privateName.Advances := advances_sigil '#'

theorem TokenRule.advances_refuse (mark : Char) (text : String) :
    (TokenRule.refuse mark text).Advances :=
  (reads_refuse fun _ hsome => (Scan.Goes.bump hsome).bind fun _ _ _ _ => .here (.refuse _)).advances

namespace Scan.Goes

/-- The rules together claim a token or decline, as each of them does. -/
theorem claimed {rules : List TokenRule} (hrules : ∀ rule ∈ rules, rule.Advances) (first : Char)
    (rest : List Char) (position : Position) :
    Goes (Scan.claimed first rules) ⟨first :: rest, position⟩ fun claimed c =>
      match claimed with
      | some _ => c.rest.length < (first :: rest).length
      | none => c = ⟨first :: rest, position⟩ := by
  induction rules with
  | nil => exact pure rfl
  | cons rule rules ih =>
    rw [List.forall_mem_cons] at hrules
    refine (hrules.1 first rest position).bind fun claimed c _ hclaimed => ?_
    cases claimed with
    | some token => exact pure hclaimed
    | none =>
      obtain rfl : c = _ := hclaimed
      exact ih hrules.2

/-- A token takes a character, unless it is the end of the source. -/
theorem token {rules : List TokenRule} (hrules : ∀ rule ∈ rules, rule.Advances) (c : Cursor) :
    Goes (Scan.token rules) c fun token c' =>
      token ≠ .endOfInput → c'.rest.length < c.rest.length := by
  obtain ⟨_ | ⟨first, rest⟩, position⟩ := c
  · exact peek (pure fun h => absurd rfl h)
  · refine peek (here ?_)
    refine (claimed hrules first rest position).bind fun claimed c _ hclaimed => ?_
    cases claimed with
    | some token => exact pure fun _ => hclaimed
    | none =>
      obtain rfl : c = _ := hclaimed
      have hsome : 0 < (first :: rest).length := Nat.zero_lt_succ _
      have hlanguage : Goes (Scan.languageToken first position) ⟨first :: rest, position⟩
          fun token c' => token ≠ .endOfInput → c'.rest.length < (first :: rest).length :=
        (languageToken first position hsome).mono fun _ _ _ hless _ => hless
      exact hlanguage

end Scan.Goes

end EcmaScript
