import EcmaScript.Proofs.Progress.Scan

/-!
Exact positions.

A position is exact if its line and column are those that reading the source up to its offset leads
to (`Position.IsExact`). A cursor stands in a source if it has the rest of it and an exact position.
Every scan of the lexical grammar leaves the cursor in the source, and reports errors at exact
positions if the start of the token that it is given is one.
-/

namespace EcmaScript

variable {σ α β : Type}

/-! ## Positions -/

/-- Whether the first character of the text ends a line: a line terminator, but not the carriage
return of a CR LF pair. -/
def endsLine : List Char → Bool
  | '\r' :: '\n' :: _ => false
  | c :: _ => isLineTerminator c
  | [] => false

def lineAndColumn (source : List Char) : Nat → Nat × Nat
  | 0 => (1, 0)
  | n + 1 =>
    let (line, column) := lineAndColumn source n
    if endsLine (source.drop n) then (line + 1, 0) else (line, column + 1)

/-- The position is in the source, and its line and column belong to its offset. -/
class Position.IsExact (source : List Char) (p : Position) : Prop where
  offset_le : p.offset ≤ source.length
  line_column : (p.line, p.column) = lineAndColumn source p.offset

instance (source : List Char) (p : Position) : Decidable (p.IsExact source) :=
  decidable_of_iff (p.offset ≤ source.length ∧ (p.line, p.column) = lineAndColumn source p.offset)
    ⟨fun ⟨hle, hline⟩ => ⟨hle, hline⟩, fun h => ⟨h.offset_le, h.line_column⟩⟩

namespace Position.IsExact

variable {source : List Char} {p : Position}

theorem start : Position.start.IsExact source := ⟨Nat.zero_le _, rfl⟩

/-- What ends a line is what `Position.past` moves to the next line for. -/
theorem endsLine_cons (x : Char) (rest : List Char) :
    endsLine (x :: rest) =
      (!(x == '\r' && rest.head? == some '\n') && isLineTerminator x) := by
  unfold endsLine
  split
  · next heq =>
    cases heq
    rfl
  · next hpair heq =>
    cases heq
    have hno : (x == '\r' && rest.head? == some '\n') = false := by
      rw [Bool.eq_false_iff]
      intro h
      rw [Bool.and_eq_true, beq_iff_eq, beq_iff_eq] at h
      obtain ⟨hx, hnext⟩ := h
      obtain ⟨others, rfl⟩ := List.head?_eq_some_iff.1 hnext
      exact hpair others hx rfl
    rw [hno]
    rfl
  · next heq => cases heq

/-- Reading a character leads from an exact position to an exact one. -/
theorem past (h : p.IsExact source) {x : Char} {rest : List Char}
    (hrest : source.drop p.offset = x :: rest) : (p.past x rest.head?).IsExact source := by
  have hlength := congrArg List.length hrest
  rw [List.length_drop, List.length_cons] at hlength
  refine ⟨by rw [past_offset]; omega, ?_⟩
  rw [past_offset, lineAndColumn, ← h.line_column, hrest, endsLine_cons]
  unfold Position.past
  cases x == '\r' && rest.head? == some '\n' <;> cases isLineTerminator x <;> rfl

end Position.IsExact

theorem lineAndColumn_succ_fst (source : List Char) (n : Nat) :
    (lineAndColumn source (n + 1)).1 =
      (lineAndColumn source n).1 + if endsLine (source.drop n) then 1 else 0 := by
  rw [lineAndColumn]
  rcases lineAndColumn source n with ⟨line, column⟩
  dsimp only
  split <;> rfl

/-- Every character begins at most one line and adds at most one column. -/
theorem lineAndColumn_le (source : List Char) (n : Nat) :
    (lineAndColumn source n).1 ≤ n + 1 ∧ (lineAndColumn source n).2 ≤ n := by
  induction n with
  | zero => exact ⟨Nat.le_refl 1, Nat.le_refl 0⟩
  | succ n ih =>
    rw [lineAndColumn]
    generalize lineAndColumn source n = before at ih ⊢
    obtain ⟨line, column⟩ := before
    obtain ⟨hline, hcolumn⟩ := ih
    cases endsLine (source.drop n) with
    | true => exact ⟨Nat.succ_le_succ hline, Nat.zero_le _⟩
    | false => exact ⟨Nat.le_succ_of_le hline, Nat.succ_le_succ hcolumn⟩

namespace Position.IsExact

variable {source : List Char} {p : Position}

theorem line_le (h : p.IsExact source) : p.line ≤ p.offset + 1 := by
  have hline := (lineAndColumn_le source p.offset).1
  rwa [← h.line_column] at hline

theorem column_le (h : p.IsExact source) : p.column ≤ p.offset := by
  have hcolumn := (lineAndColumn_le source p.offset).2
  rwa [← h.line_column] at hcolumn

/-- No counter of an exact position needs more than 32 bits in a source of fewer than `2 ^ 32 - 1`
characters. -/
theorem lt_size (h : p.IsExact source) (hsize : source.length + 1 < UInt32.size) :
    p.line < UInt32.size ∧ p.column < UInt32.size ∧ p.offset < UInt32.size := by
  have hline := h.line_le
  have hcolumn := h.column_le
  have hoffset := h.offset_le
  omega

end Position.IsExact

/-- The lines between two places of the source. -/
theorem line_le_and_lt_iff {source : List Char} (gap : List Char) {rest : List Char} {n : Nat}
    (hdrop : source.drop n = gap ++ rest) (hrest : rest.head? ≠ some '\n') :
    (lineAndColumn source n).1 ≤ (lineAndColumn source (n + gap.length)).1 ∧
      ((lineAndColumn source n).1 < (lineAndColumn source (n + gap.length)).1 ↔
        gap.any isLineTerminator = true) := by
  induction gap generalizing n with
  | nil => simp
  | cons x gap ih =>
    have hnext : source.drop (n + 1) = gap ++ rest := by
      rw [← List.tail_drop, hdrop]
      rfl
    obtain ⟨hle, hlt⟩ := ih hnext
    have hsucc := lineAndColumn_succ_fst source n
    rw [hdrop, List.cons_append, Position.IsExact.endsLine_cons] at hsucc
    have hlength : n + (x :: gap).length = n + 1 + gap.length := by
      rw [List.length_cons]
      omega
    rw [hlength, List.any_cons]
    by_cases hx : isLineTerminator x = true
    · rw [hx, Bool.true_or]
      by_cases hpair : (x == '\r' && (gap ++ rest).head? == some '\n') = true
      · -- The line feed of the pair stands in the gap and ends the line.
        rw [Bool.and_eq_true, beq_iff_eq, beq_iff_eq] at hpair
        obtain ⟨-, hlf⟩ := hpair
        cases gap with
        | nil => exact absurd hlf hrest
        | cons y gap =>
          cases hlf
          have := hlt.2 rfl
          refine ⟨by omega, fun _ => rfl, fun _ => by omega⟩
      · rw [Bool.eq_false_iff.2 hpair, hx] at hsucc
        simp only [Bool.not_false, Bool.true_and, if_true] at hsucc
        exact ⟨by omega, fun _ => rfl, fun _ => by omega⟩
    · rw [Bool.eq_false_iff.2 hx] at hsucc ⊢
      simp only [Bool.and_false, Bool.false_eq_true, if_false] at hsucc
      rw [Bool.false_or, ← hlt]
      exact ⟨by omega, by omega⟩

/-- The error has a position, which is exact. -/
def Diagnostic.IsExact (source : List Char) (d : Diagnostic) : Prop :=
  ∃ p, d.position = some p ∧ p.IsExact source

def Failure.IsExact (source : List Char) (e : Failure) : Prop :=
  ∀ d, e = .error d → d.IsExact source

theorem Diagnostic.isExact_located {source : List Char} (cause : Cause) {p : Position}
    (h : p.IsExact source) : (Diagnostic.located cause p).IsExact source :=
  ⟨p, rfl, h⟩

theorem Failure.IsExact.error {source : List Char} {d : Diagnostic} (h : d.IsExact source) :
    (Failure.error d).IsExact source := by
  rintro _ ⟨⟩
  exact h

/-- The cursor stands in the source, at an exact position. -/
structure Cursor.At (source : List Char) (c : Cursor) : Prop where
  rest_eq : c.rest = source.drop c.position.offset
  position : c.position.IsExact source

theorem Cursor.At.ofSource (source : List Char) : (Cursor.ofSource source).At source :=
  ⟨rfl, .start⟩

/-! ## How scans are built -/

/-- The scan leaves the cursor in the source, and reports errors at exact positions. -/
class Scan.Exact (source : List Char) (p : Scan α) : Prop where
  exact : ∀ c, c.At source →
    Ends (fun e c' => c'.At source ∧ e.IsExact source) p c fun _ c' => c'.At source

namespace Scan.Exact

variable {source : List Char}

instance pure (a : α) : Exact source (Pure.pure a : Scan α) := ⟨fun _ h => h⟩

instance refuse (cause : Cause) (position : Position) [h : position.IsExact source] :
    Exact source (throw (.error (.located cause position)) : Scan α) :=
  ⟨fun _ hc => ⟨hc, .error (Diagnostic.isExact_located cause h)⟩⟩

instance fail (cause : ScanCause) (position : Position) [position.IsExact source] :
    Exact source (Scan.fail cause position : Scan α) := refuse _ position

instance bind {p : Scan α} {q : α → Scan β} [hp : Exact source p] [hq : ∀ a, Exact source (q a)] :
    Exact source (p >>= q) :=
  ⟨fun c h => (hp.exact c h).bind fun a c' h' => (hq a).exact c' h'⟩

/-- Sequencing, for a second scan that needs a choice. -/
theorem step {p : Scan α} {q : α → Scan β} [Exact source p] (hq : ∀ a, Exact source (q a)) :
    Exact source (p >>= q) :=
  bind

instance map (f : α → β) {p : Scan α} [Exact source p] : Exact source (f <$> p) := by
  rw [map_eq_pure_bind]
  exact step fun _ => pure _

/-- A choice between scans that need choices themselves. -/
theorem either {c : Prop} [Decidable c] {p q : Scan α} (hp : Exact source p)
    (hq : Exact source q) : Exact source (if c then p else q) := by
  by_cases h : c
  · rwa [if_pos h]
  · rwa [if_neg h]

/-- A check in front of the rest, which fails if it does not hold. -/
theorem required {c : Prop} [Decidable c] {bad : Scan Unit} {rest : Unit → Scan α}
    [Exact source bad] (hrest : ∀ u, Exact source (rest u)) :
    Exact source (if c then rest () else bad >>= rest) :=
  either (hrest ()) (step hrest)

/-- A step in front of the rest, which is taken if the condition holds. -/
theorem provided {c : Prop} [Decidable c] {taken : Scan Unit} {rest : Unit → Scan α}
    [Exact source taken] (hrest : ∀ u, Exact source (rest u)) :
    Exact source (if c then taken >>= rest else rest ()) :=
  either (step hrest) (hrest ())

/-- The position of the cursor is exact where it is used. -/
theorem here {q : Position → Scan β} (h : ∀ p : Position, p.IsExact source → Exact source (q p)) :
    Exact source (Scan.here >>= q) :=
  ⟨fun c hc => (h c.position hc.position).exact c hc⟩

/-- A failure at the cursor. -/
instance failHere (cause : ScanCause) :
    Exact source (do Scan.fail cause (← Scan.here) : Scan α) :=
  here fun position _ => fail cause position

instance get : Exact source (MonadState.get : Scan Cursor) := ⟨fun _ h => h⟩

instance peek : Exact source Scan.peek := ⟨fun _ h => h⟩

instance peekSecond : Exact source Scan.peekSecond := ⟨fun _ h => h⟩

instance nextIs (p : Char → Bool) : Exact source (Scan.nextIs p) := ⟨fun _ h => h⟩

instance advance : Exact source Scan.advance where
  exact c hc := by
    obtain ⟨rest, position⟩ := c
    obtain ⟨hrest, hposition⟩ := hc
    unfold Ends Scan.advance
    cases rest with
    | nil => exact ⟨⟨hrest, hposition⟩, by rintro _ ⟨⟩⟩
    | cons x rest =>
      refine ⟨?_, hposition.past hrest.symm⟩
      dsimp only at hrest ⊢
      rw [Position.past_offset, ← List.drop_drop, ← hrest]
      rfl

instance revisit : Exact source Scan.revisit where
  exact c hc := by
    -- Where there is no way back the cursor stays.
    have hback (x : Char) (c : Cursor) (hc : c.At source) :
        Ends (fun e c' => c'.At source ∧ e.IsExact source) (Scan.back x) c fun _ _ => True := by
      unfold Ends Scan.back
      split
      · trivial
      · next hstay =>
        split at hstay
        · cases hstay
        · cases hstay
          exact ⟨hc, by rintro _ ⟨⟩⟩
    have hends := (advance.exact c hc).bind hback
    unfold Ends
    cases hresult : Scan.revisit c with
    | ok _ c' =>
      rw [eq_of_revisit hresult]
      exact hc
    | error e c' => exact hends.of_error hresult

instance ahead : Exact source Scan.ahead where
  exact c hc := by
    unfold Ends Scan.ahead
    cases c.rest with
    | nil => exact ⟨hc, by rintro _ ⟨⟩⟩
    | cons x rest => exact hc

instance skip (n : Nat) : Exact source (Scan.skip n) := by
  induction n with
  | zero => exact pure ()
  | succ n ih => exact step fun _ => ih

instance bump : Exact source Scan.bump := by
  unfold Scan.bump
  refine step fun next => ?_
  cases next with
  | none => exact pure none
  | some _ => exact map some

instance accept (expected : Char) : Exact source (Scan.accept expected) := by
  unfold Scan.accept
  exact step fun _ => either (step fun _ => pure true) (pure false)

theorem loop {round : α → Scan (Round α β)} (hround : ∀ a, Exact source (round a)) (a : α) :
    Exact source (Scan.loop round a) where
  exact c hc := by
    change Ends _ (repeatAlong round c.rest a) c _
    rw [repeatAlong_eq]
    refine Ends.loop (I := fun _ c => c.At source) (fun a c hc => ?_) ?_ _ a c hc
    · refine ((hround a).exact c hc).mono (fun r c' hc' => ?_) fun _ _ h => h
      cases r <;> exact hc'
    · exact fun _ c' hc' => ⟨hc', by rintro _ ⟨⟩⟩

instance takeWhile (p : Char → Bool) : Exact source (Scan.takeWhile p) := by
  unfold Scan.takeWhile
  exact loop (fun _ => step fun _ => either (step fun _ => pure _) (pure _)) []

/-! ## Trivia -/

instance skipLine : Exact source Scan.skipLine := by
  unfold Scan.skipLine
  exact step fun _ => pure ()

instance skipBlockComment : Exact source Scan.skipBlockComment := by
  unfold Scan.skipBlockComment
  refine here fun start _ => step fun _ => loop (fun _ => ?_) ()
  refine step fun first => step fun second => ?_
  split
  · exact fail _ start
  · exact step fun _ => pure _
  · exact step fun _ => pure _

instance skipTrivia : Exact source Scan.skipTrivia := by
  unfold Scan.skipTrivia
  refine loop (fun _ => step fun first => step fun second => ?_) ()
  split
  · exact step fun _ => pure _
  · exact step fun _ => pure _
  · exact either (step fun _ => pure _) (pure _)
  · exact pure _

instance skipHashbang : Exact source Scan.skipHashbang := by
  unfold Scan.skipHashbang
  exact step fun _ => step fun _ => either (step fun _ => inferInstance) (pure ())

/-- Behind the trivia there is no line terminator. -/
theorem not_lineTerminator_of_skipTrivia (c : Cursor) :
    Ends (fun _ _ => True) Scan.skipTrivia c fun _ c' =>
      ∀ x, c'.rest.head? = some x → isLineTerminator x = false := by
  -- A round that goes on may leave the cursor anywhere.
  have hagain {p : Scan Unit} {Q : Unit → Cursor → Prop} (c : Cursor) :
      Ends (fun _ _ => True) (do p; return .again ()) c fun (r : Round Unit Unit) c' =>
        r.Holds (fun _ => True) (Q · c') := by
    refine Ends.bind (Q := fun _ _ => True) ?_ fun _ _ _ => trivial
    unfold Ends
    split <;> trivial
  have peeked {q : Option Char → Option Char → Scan (Round Unit Unit)}
      {Q : Round Unit Unit → Cursor → Prop} {c : Cursor}
      (h : Ends (fun _ _ => True) (q c.rest.head? c.rest.tail.head?) c Q) :
      Ends (fun _ _ => True) (do q (← Scan.peek) (← Scan.peekSecond)) c Q := h
  change Ends _ (repeatAlong _ c.rest ()) c _
  rw [repeatAlong_eq]
  refine Ends.loop (I := fun _ _ => True) (fun _ c _ => ?_) (fun _ _ _ => trivial) _ () c
    trivial
  refine peeked ?_
  split
  · exact hagain c
  · exact hagain c
  · next _ x hnext _ _ =>
    by_cases hblank : (isBlank x || isLineTerminator x) = true
    · rw [if_pos hblank]
      exact hagain c
    · rw [if_neg hblank]
      intro y hy
      rw [hnext] at hy
      cases hy
      simp only [Bool.or_eq_true, not_or, Bool.not_eq_true] at hblank
      exact hblank.2
  · next hnext =>
    intro y hy
    rw [hnext] at hy
    cases hy

/-! ## Regular expressions and numbers -/

instance pattern (start : Position) [start.IsExact source] : Exact source (Scan.pattern start) := by
  unfold Scan.pattern
  refine loop (fun _ => step fun _ => required fun _ => step fun _ => either ?_ ?_) _
  · exact step fun _ => either (step fun _ => pure _) (pure _)
  · exact either (pure _) (pure _)

instance regExp (start : Position) [start.IsExact source] : Exact source (Scan.regExp start) := by
  unfold Scan.regExp
  exact step fun _ => step fun _ => pure _

instance decimalDigits : Exact source Scan.decimalDigits := by
  refine loop (fun read => step fun first => step fun second => ?_) []
  cases first with
  | none => exact pure _
  | some c => exact either (step fun _ => pure _) (either (step fun _ => pure _) (pure _))

instance exponentDigits (start : Position) [start.IsExact source] (negative : Bool) :
    Exact source (Scan.exponentDigits start negative) := by
  unfold Scan.exponentDigits
  exact step fun _ => required fun _ => step fun _ => pure _

instance signedExponent (start : Position) [start.IsExact source] :
    Exact source (Scan.signedExponent start) := by
  unfold Scan.signedExponent
  exact step fun _ => step fun _ => provided fun _ => inferInstance

instance exponent? (start : Position) [start.IsExact source] :
    Exact source (Scan.exponent? start) := by
  rw [exponent?_eq]
  exact step fun _ => either (step fun _ => inferInstance) (pure none)

instance radixNumeral (radix : Nat) (start : Position) [start.IsExact source] :
    Exact source (Scan.radixNumeral radix start) := by
  unfold Scan.radixNumeral
  exact step fun _ => provided fun _ => pure _

instance numeral (first : Char) (start : Position) [start.IsExact source] :
    Exact source (Scan.numeral first start) := by
  unfold Scan.numeral
  refine step fun next => ?_
  split
  · exact step fun _ => inferInstance
  · refine step fun _ => either (step fun _ => pure _) (step fun _ => either ?_ ?_)
    · exact step fun _ => step fun _ => pure _
    · exact step fun _ => step fun _ => pure _

instance numericLiteral (first : Char) (start : Position) [start.IsExact source] :
    Exact source (Scan.numericLiteral first start) := by
  unfold Scan.numericLiteral
  refine step fun literal => step fun suffix => ?_
  have hend (token : Token) : Exact source (do
      if ← Scan.nextIs isIdStart then Scan.fail .identifierAfterNumber (← Scan.here)
      return token) :=
    step fun follows => either (here fun _ _ => step fun _ => pure _) (pure _)
  refine either ?_ ?_
  · cases literal.integerText? with
    | none => exact step fun token => hend token
    | some text => exact step fun _ => step fun token => hend token
  · cases literal.value? with
    | none => exact step fun token => hend token
    | some value => exact step fun token => hend token

/-! ## Escapes -/

instance hexDigits {bad : Scan Unit} [Exact source bad] (n : Nat) :
    Exact source (Scan.hexDigits bad n) := by
  induction n with
  | zero => exact pure []
  | succ n ih =>
    unfold Scan.hexDigits
    exact step fun _ => required fun _ => step fun _ => step fun _ => pure _

instance escapedCode (start : Position) [start.IsExact source] :
    Exact source (Scan.escapedCode start) := by
  refine step fun _ => either (step fun digits => provided fun _ => step fun _ => ?_) ?_
  · exact required fun _ => provided fun _ => pure _
  · exact step fun _ => provided fun _ => pure _

instance unicodeEscape : Exact source Scan.unicodeEscape := by
  rw [unicodeEscape_eq]
  exact here fun start _ => step fun _ => step fun _ => required fun _ => inferInstance

instance scalarEscape : Exact source Scan.scalarEscape := by
  unfold Scan.scalarEscape
  refine here fun start _ => step fun code => ?_
  cases scalar? code with
  | none => exact fail _ start
  | some c => exact pure c

/-- A second escape that does not complete a pair is given back: the cursor returns to where it
stood. -/
instance textUnicodeEscape : Exact source Scan.textUnicodeEscape := by
  unfold Scan.textUnicodeEscape
  refine step fun code => ?_
  cases scalar? code with
  | some x => exact pure x
  | none =>
    refine step fun first => step fun second => either ⟨fun c hc => ?_⟩ (pure _)
    change Ends _ (Scan.unicodeEscape >>= fun _ => _) c _
    refine (unicodeEscape.exact c hc).bind fun low c' hc' => ?_
    by_cases hlow : isLowSurrogate low = true
    · rw [if_pos hlow]
      exact hc'
    · rw [if_neg hlow]
      exact hc

instance plainEscape (x : Char) (inTemplate : Bool) (start : Position) [start.IsExact source] :
    Exact source (Scan.plainEscape x inTemplate start) := by
  unfold Scan.plainEscape
  cases simpleEscape? x with
  | some denoted => exact pure _
  | none =>
    refine step fun _ => either (pure _) (provided fun _ => either ?_ (either ?_ ?_))
    · exact step fun _ => pure _
    · exact step fun _ => pure _
    · exact either (pure _) (pure _)

instance textEscape (x : Char) (inTemplate : Bool) (start : Position) [start.IsExact source] :
    Exact source (Scan.textEscape x inTemplate start) := by
  rw [textEscape_eq]
  exact either (step fun _ => step fun _ => pure _) (step fun _ => inferInstance)

/-! ## Strings, templates and words -/

instance escapeStep {γ : Type} (unclosed : ScanCause) (inTemplate : Bool) (start : Position)
    [start.IsExact source] (read : List Char) (next : Option Char) :
    Exact source (Scan.escapeStep (γ := γ) unclosed inTemplate start read next) := by
  cases next with
  | none => exact fail _ start
  | some x => exact step fun _ => pure _

instance stringLiteral (quote : Char) (start : Position) [start.IsExact source] :
    Exact source (Scan.stringLiteral quote start) := by
  rw [stringLiteral_eq]
  refine @bind _ _ _ _ _ (loop (fun read => step fun next => ?_) []) fun _ => pure _
  cases next with
  | none => exact fail _ start
  | some x =>
    refine either (step fun _ => pure _) (either (step fun _ => step fun _ => ?_) ?_)
    · exact escapeStep _ _ _ _ _
    · exact either (fail _ start) (step fun _ => pure _)

instance templateCharacters (start : Position) [start.IsExact source] :
    Exact source (Scan.templateCharacters start) := by
  rw [templateCharacters_eq]
  refine loop (fun read => step fun first => step fun second => ?_) []
  unfold Scan.templateStep
  split
  · exact fail _ start
  · exact step fun _ => pure _
  · exact step fun _ => pure _
  · exact step fun _ => step fun _ => escapeStep _ _ _ _ _
  · exact step fun _ => pure _

instance templateStart (start : Position) [start.IsExact source] :
    Exact source (Scan.templateStart start) := by
  unfold Scan.templateStart
  refine step fun read => ?_
  obtain ⟨cooked, stop⟩ := read
  cases stop <;> exact pure _

instance templateContinuation (start : Position) [start.IsExact source] :
    Exact source (Scan.templateContinuation start) := by
  unfold Scan.templateContinuation
  refine step fun read => ?_
  obtain ⟨cooked, stop⟩ := read
  cases stop <;> exact pure _

instance word : Exact source Scan.word := by
  unfold Scan.word
  refine loop (fun read => step fun first => step fun second => ?_) []
  split
  · exact here fun start _ => step fun _ => step fun _ => required fun _ => pure _
  · exact either (step fun _ => pure _) (pure _)
  · exact pure _

instance identifier (first : Char) (start : Position) [start.IsExact source] :
    Exact source (Scan.identifier first start) := by
  unfold Scan.identifier
  refine step fun cursor => step fun text => provided fun _ => either (pure _) ?_
  cases Keyword.ofWord? (String.ofList text) <;> exact pure _

instance languageToken (first : Char) (start : Position) [start.IsExact source] :
    Exact source (Scan.languageToken first start) := by
  unfold Scan.languageToken
  refine step fun cursor => either (step fun _ => inferInstance) ?_
  cases Punctuator.ofText? cursor.rest with
  | some symbol => exact step fun _ => pure _
  | none =>
    refine either (step fun _ => inferInstance) (either (step fun _ => inferInstance) ?_)
    refine either (step fun _ => inferInstance) (either inferInstance ?_)
    exact step fun _ => fail _ start

end Scan.Exact

/-- What the rule reads leaves the cursor in the source, and reports errors at exact positions. -/
def TokenRule.IsExact (source : List Char) (rule : TokenRule) : Prop :=
  rule.Reads fun _ p => Scan.Exact source p

theorem TokenRule.isExact_privateName (source : List Char) :
    TokenRule.privateName.IsExact source :=
  reads_sigil inferInstance

theorem Scan.Exact.token {source : List Char} {rules : List TokenRule}
    (hrules : ∀ rule ∈ rules, rule.IsExact source) : Exact source (Scan.token rules) := by
  constructor
  rintro ⟨_ | ⟨first, rest⟩, position⟩ hc
  · exact hc
  · rw [Ends]
    rcases token_cases hrules first with ⟨-, htoken⟩ | ⟨rule, -, p, -, hp, htoken⟩
    · have := hc.position
      rw [htoken]
      exact (languageToken first position).exact _ hc
    · rw [htoken]
      exact hp.exact _ hc

end EcmaScript
