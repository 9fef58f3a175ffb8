import EcmaScript.Proofs.Wording

/-!
Numbers of the source.

A number is read digit by digit, and what it denotes is told from the digits alone. `Binary64.ofText?`
says which texts denote a value, and which one: the text of a decimal does, once its separators are
gone, so that nothing is left to fail where it is converted. An integer in another radix denotes a
value if it fits into 64 bits. An integer with the suffix `n` is kept as a text.
-/

namespace EcmaScript

/-! ## Texts of numbers -/

def isExponentMark (c : Char) : Bool := c == 'e' || c == 'E'

namespace Binary64

/-- The natural number that decimal digits denote, of which there is at least one. -/
def digitsOfText? (text : List Char) : Option Nat :=
  if !text.isEmpty && text.all isDecimalDigit then some (digitsValue 10 text) else none

/-- Whether the text begins with a negative sign, and what stands behind the sign, if any. -/
def signOfText (text : List Char) : Bool × List Char :=
  (text.head?.any (· == '-'),
    if text.head?.any (fun c => c == '+' || c == '-') then text.tail else text)

/-- The exponent that a text denotes: zero for none, else a mark, an optional sign and digits. -/
def exponentOfText? : List Char → Option Int
  | [] => some 0
  | mark :: text =>
    if isExponentMark mark then
      (digitsOfText? (signOfText text).2).map fun magnitude =>
        if (signOfText text).1 then -magnitude else magnitude
    else none

/-- The digits of a fraction at the start of a text, and what stands behind them. -/
def fractionOfText (text : List Char) : List Char × List Char :=
  if text.head? == some '.' then
    (text.tail.takeWhile isDecimalDigit, text.tail.dropWhile isDecimalDigit)
  else ([], text)

/-- The value of a text that is made of digits, of which there is at least one, with or without a
point among them, and of an optional exponent. No other text has a value. -/
def ofText? (text : List Char) : Option Binary64 :=
  let whole := text.takeWhile isDecimalDigit
  let fraction := (fractionOfText (text.dropWhile isDecimalDigit)).1
  if whole.isEmpty && fraction.isEmpty then none
  else (exponentOfText? (fractionOfText (text.dropWhile isDecimalDigit)).2).map fun exponent =>
    .ofDecimal (digitsValue 10 (whole ++ fraction)) (exponent - fraction.length)

theorem takeWhile_digits {digits rest : List Char} (hdigits : ∀ x ∈ digits, isDecimalDigit x = true)
    (hrest : rest.head?.any isDecimalDigit = false) :
    (digits ++ rest).takeWhile isDecimalDigit = digits ∧
      (digits ++ rest).dropWhile isDecimalDigit = rest := by
  rw [List.takeWhile_append_of_pos hdigits, List.dropWhile_append_of_pos hdigits]
  cases rest with
  | nil => simp
  | cons x rest =>
    have hx : ¬isDecimalDigit x = true := Bool.eq_false_iff.1 hrest
    rw [List.takeWhile_cons_of_neg hx, List.dropWhile_cons_of_neg hx, List.append_nil]
    exact ⟨rfl, rfl⟩

/-- Digits, a fraction and an exponent denote the value they are put together from. -/
theorem ofText?_append {whole : List Char} {fraction : Option (List Char)} {text : List Char}
    {exponent : Int} (hne : whole ≠ []) (hwhole : ∀ x ∈ whole, isDecimalDigit x = true)
    (hfraction : ∀ digits ∈ fraction, ∀ x ∈ digits, isDecimalDigit x = true)
    (hmark : text.head?.all isExponentMark = true)
    (htext : exponentOfText? text = some exponent) :
    ofText? (whole ++ (fraction.elim [] ('.' :: ·) ++ text)) =
      some (.ofDecimal (digitsValue 10 (whole ++ fraction.getD []))
        (exponent - (fraction.getD []).length)) := by
  have hmark : text.head?.any isDecimalDigit = false ∧ (text.head? == some '.') = false := by
    cases text with
    | nil => exact ⟨rfl, rfl⟩
    | cons x text =>
      rw [List.head?_cons, Option.all_some, isExponentMark, Bool.or_eq_true, beq_iff_eq,
        beq_iff_eq] at hmark
      rcases hmark with rfl | rfl <;> exact ⟨rfl, rfl⟩
  have hpoint : (fraction.elim [] ('.' :: ·) ++ text).head?.any isDecimalDigit = false := by
    cases fraction with
    | none => exact hmark.1
    | some digits => rfl
  obtain ⟨htake, hdrop⟩ := takeWhile_digits hwhole hpoint
  have hfractionOf : fractionOfText (fraction.elim [] ('.' :: ·) ++ text) =
      (fraction.getD [], text) := by
    cases fraction with
    | none =>
      rw [fractionOfText, Option.elim_none, List.nil_append, hmark.2]
      rfl
    | some digits =>
      obtain ⟨htake, hdrop⟩ := takeWhile_digits (hfraction digits rfl) hmark.1
      change (List.takeWhile _ (digits ++ text), List.dropWhile _ (digits ++ text)) = _
      rw [htake, hdrop]
      rfl
  have hsome : (whole.isEmpty && (fraction.getD []).isEmpty) = false := by
    rw [List.isEmpty_eq_false_iff.2 hne, Bool.false_and]
  simp only [ofText?, htake, hdrop, hfractionOf, hsome, htext, Bool.false_eq_true, if_false,
    Option.map_some]

end Binary64

def withoutSeparators (text : List Char) : List Char := text.filter (· != '_')

theorem withoutSeparators_append (text text' : List Char) :
    withoutSeparators (text ++ text') = withoutSeparators text ++ withoutSeparators text' :=
  List.filter_append text text'

theorem withoutSeparators_cons {c : Char} (hc : c ≠ '_') (text : List Char) :
    withoutSeparators (c :: text) = c :: withoutSeparators text := by
  simp [withoutSeparators, hc]

/-- The text that is converted to a value: the one that is written, without separators and with a
zero in front of a point. -/
def digitBuffer (written : List Char) : List Char :=
  if written.head? == some '.' then '0' :: withoutSeparators written else withoutSeparators written

def lowerMark : List Char → List Char
  | '0' :: mark :: digits => '0' :: mark.toLower :: digits
  | text => text

/-- The text is an integer with separators, in radix ten or behind the mark of another radix. -/
def IsInteger (text : List Char) : Prop :=
  (∀ x ∈ withoutSeparators text, isDecimalDigit x = true) ∨
    ∃ mark radix digits, text = '0' :: mark :: digits ∧ Numeral.radixOf? mark = some radix ∧
      ∀ x ∈ withoutSeparators digits, isDigitOf radix x = true

/-- The digits of a text denote the value of a literal, which is an integer only if nothing else is
in the text. -/
structure Numeral.IsWrittenAs (literal : Numeral) (digits : List Char) : Prop where
  value : ∃ value, literal.value? = some value ∧ Binary64.ofText? digits = some value
  integer : ∀ text, literal.integerText? = some text →
    text.toList = digits ∧ ∀ x ∈ digits, isDecimalDigit x = true

namespace Scan

/-! ## Decimal digits -/

/-- The decimal digits at the start of a text, without the separators among them, and what stands
behind them. -/
def digitRun : List Char → List Char × List Char
  | [] => ([], [])
  | c :: text =>
    if isDecimalDigit c then (c :: (digitRun text).1, (digitRun text).2)
    else if c == '_' && text.head?.any isDecimalDigit then digitRun text
    else ([], c :: text)

def digitsStep (read : List Char) (next second : Option Char) :
    Scan (Round (List Char) (List Char)) :=
  match next, second with
  | some c, next =>
    if isDecimalDigit c then do
      skip 1
      return .again (c :: read)
    else if c == '_' && next.any isDecimalDigit then do
      skip 1
      return .again read
    else
      return .stop read.reverse
  | none, _ => return .stop read.reverse

theorem reads_decimalDigits (text : List Char) :
    Reads decimalDigits text (digitRun text).1 (digitRun text).2 := by
  have hgoes (read : List Char) (c : Cursor) : GoesOn (loop (fun read => do
      digitsStep read (← peek) (← peekSecond)) read) c := by
    refine Goes.loopOn (fun read c => .peek (.peekSecond ?_)) read
    unfold digitsStep
    split
    · next hnext =>
      have hsome := Goes.length_pos_of_peek hnext
      refine .ite (fun _ => .one hsome fun c' hless => .pure hless) fun _ => ?_
      exact .ite (fun _ => .one hsome fun c' hless => .pure hless) fun _ => .pure trivial
    · exact .pure trivial
  -- The loop, with some digits read before.
  have hloop (read : List Char) : Reads (loop (fun read => do
      digitsStep read (← peek) (← peekSecond)) read) text (read.reverse ++ (digitRun text).1)
      (digitRun text).2 := by
    induction text generalizing read with
    | nil =>
      rw [digitRun, List.append_nil]
      exact fun position => ⟨position, loop_stop hgoes rfl⟩
    | cons x text ih =>
      intro position
      rw [digitRun]
      split
      · next hdigit =>
        obtain ⟨stop, hstop⟩ := ih (x :: read) (position.past x text.head?)
        rw [List.reverse_cons, List.append_assoc, List.singleton_append] at hstop
        refine ⟨stop, (loop_again hgoes (.peek (.peekSecond ?_))).trans hstop⟩
        rw [List.head?_cons, digitsStep, if_pos hdigit]
        rfl
      · next hdigit =>
        split
        · next hmark =>
          obtain ⟨stop, hstop⟩ := ih read (position.past x text.head?)
          refine ⟨stop, (loop_again hgoes (.peek (.peekSecond ?_))).trans hstop⟩
          rw [List.head?_cons, List.tail_cons, digitsStep, if_neg hdigit, if_pos hmark]
          rfl
        · next hmark =>
          rw [List.append_nil]
          refine ⟨position, loop_stop hgoes (.peek (.peekSecond ?_))⟩
          rw [List.head?_cons, List.tail_cons, digitsStep, if_neg hdigit, if_neg hmark]
          rfl
  exact hloop []

/-- What is read as digits is digits and separators, and no digit is left. -/
theorem exists_written_of_digitRun (text : List Char) :
    ∃ written, text = written ++ (digitRun text).2 ∧
      withoutSeparators written = (digitRun text).1 ∧
      (∀ x ∈ (digitRun text).1, isDecimalDigit x = true) ∧
      (digitRun text).2.head?.any isDecimalDigit = false := by
  induction text with
  | nil => exact ⟨[], rfl, rfl, by rintro _ ⟨⟩, rfl⟩
  | cons x text ih =>
    obtain ⟨written, htext, hwritten, hdigits, hstop⟩ := ih
    rw [digitRun]
    split
    · next hdigit =>
      have hx : x ≠ '_' := by
        rintro rfl
        cases hdigit
      refine ⟨x :: written, congrArg (x :: ·) htext, ?_, List.forall_mem_cons.2 ⟨hdigit, hdigits⟩,
        hstop⟩
      rw [withoutSeparators_cons hx, hwritten]
    · next hdigit =>
      split
      · next hmark =>
        rw [Bool.and_eq_true, beq_iff_eq] at hmark
        obtain ⟨rfl, -⟩ := hmark
        exact ⟨'_' :: written, congrArg ('_' :: ·) htext, hwritten, hdigits, hstop⟩
      · exact ⟨[], rfl, rfl, by rintro _ ⟨⟩, Bool.eq_false_iff.2 hdigit⟩

/-- A digit in front is the first one that is read. -/
theorem digitRun_ne_nil {text : List Char} (h : text.head?.any isDecimalDigit = true) :
    (digitRun text).1 ≠ [] := by
  cases text with
  | nil => cases h
  | cons x text =>
    rw [digitRun, if_pos (show isDecimalDigit x = true from h)]
    exact List.cons_ne_nil _ _

/-! ## Exponents -/

/-- A sign is read as the text says. -/
theorem signedExponent_eq (start : Position) (text : List Char) (position : Position) :
    ∃ position', signedExponent start ⟨text, position⟩ =
      exponentDigits start (Binary64.signOfText text).1
        ⟨(Binary64.signOfText text).2, position'⟩ := by
  cases text with
  | nil => exact ⟨position, rfl⟩
  | cons x text =>
    by_cases hsign : (x == '+' || x == '-') = true
    · refine ⟨position.past x text.head?, ?_⟩
      rw [Binary64.signOfText, List.head?_cons, Option.any_some, Option.any_some, if_pos hsign]
      change (if (x == '+' || x == '-') = true then (skip 1 >>= fun _ => exponentDigits start (x == '-'))
        else exponentDigits start (x == '-')) _ = _
      rw [if_pos hsign]
      rfl
    · refine ⟨position, ?_⟩
      rw [Binary64.signOfText, List.head?_cons, Option.any_some, Option.any_some, if_neg hsign]
      change (if (x == '+' || x == '-') = true then (skip 1 >>= fun _ => exponentDigits start (x == '-'))
        else exponentDigits start (x == '-')) _ = _
      rw [if_neg hsign]

theorem exponentDigits_of_digit {start : Position} {negative : Bool} {text : List Char}
    (h : text.head?.any isDecimalDigit = true) (position : Position) :
    ∃ stop, Returns (exponentDigits start negative) ⟨text, position⟩
      (some (if negative then -(digitsValue 10 (digitRun text).1 : Int)
        else digitsValue 10 (digitRun text).1)) ⟨(digitRun text).2, stop⟩ := by
  obtain ⟨stop, hdigits⟩ := reads_decimalDigits text position
  refine ⟨stop, .nextIs ?_⟩
  rw [h]
  exact hdigits.bind .pure

theorem exponentDigits_of_other {start : Position} {negative : Bool} {c : Cursor}
    (h : c.rest.head?.any isDecimalDigit = false) :
    exponentDigits start negative c =
      .error (.error (.located (.scan .invalidNumber) start)) c := by
  change (if c.rest.head?.any isDecimalDigit = true then _ else
    (fail .invalidNumber start >>= fun _ : Unit => _ : Scan (Option Int))) c = _
  rw [h]
  rfl

/-- A text is a sign, or nothing, in front of what stands behind it. Digits in its place leave the
sign what it is. -/
theorem exists_sign (text : List Char) : ∃ sign, text = sign ++ (Binary64.signOfText text).2 ∧
    withoutSeparators sign = sign ∧ ∀ digits : List Char, digits.head?.any isDecimalDigit = true →
      Binary64.signOfText (sign ++ digits) = ((Binary64.signOfText text).1, digits) := by
  have hdigits {digits : List Char} (h : digits.head?.any isDecimalDigit = true) :
      Binary64.signOfText digits = (false, digits) := by
    obtain ⟨x, rest, rfl⟩ : ∃ x rest, digits = x :: rest := by
      cases digits with
      | nil => cases h
      | cons x rest => exact ⟨x, rest, rfl⟩
    have hplus : (x == '+') = false := beq_false_of_ne (by rintro rfl; cases h)
    have hminus : (x == '-') = false := beq_false_of_ne (by rintro rfl; cases h)
    simp [Binary64.signOfText, hplus, hminus]
  cases text with
  | nil => exact ⟨[], rfl, rfl, fun _ => hdigits⟩
  | cons x text =>
    by_cases hsign : (x == '+' || x == '-') = true
    · have hsign' : Binary64.signOfText (x :: text) = (x == '-', text) := by
        rw [Binary64.signOfText, List.head?_cons, Option.any_some, Option.any_some, if_pos hsign]
        rfl
      refine ⟨[x], by rw [hsign']; rfl, withoutSeparators_cons ?_ _, fun digits _ => ?_⟩
      · rintro rfl
        cases hsign
      · rw [hsign', Binary64.signOfText, List.singleton_append, List.head?_cons, Option.any_some,
          Option.any_some, if_pos hsign]
        rfl
    · have hsign' : Binary64.signOfText (x :: text) = (false, x :: text) := by
        rw [Bool.not_eq_true, Bool.or_eq_false_iff] at hsign
        simp [Binary64.signOfText, hsign.1, hsign.2]
      exact ⟨[], by rw [hsign']; rfl, rfl, fun digits h => by rw [hsign']; exact hdigits h⟩

/-- What an exponent is read from behind its mark, or that it has no digits. -/
theorem signedExponent_cases (start : Position) (text : List Char) (position : Position) :
    (∃ written e d, Returns (signedExponent start) ⟨text, position⟩ (some e) d ∧
        text = written ++ d.rest ∧
        ∀ mark, isExponentMark mark = true →
          Binary64.exponentOfText? (mark :: withoutSeparators written) = some e) ∨
      ((Binary64.signOfText text).2.head?.any isDecimalDigit = false ∧
        ∃ d, signedExponent start ⟨text, position⟩ =
          .error (.error (.located (.scan .invalidNumber) start)) d) := by
  obtain ⟨position', heq⟩ := signedExponent_eq start text position
  cases hnext : (Binary64.signOfText text).2.head?.any isDecimalDigit with
  | false => exact .inr ⟨rfl, _, heq.trans (exponentDigits_of_other hnext)⟩
  | true =>
    obtain ⟨stop, hreturns⟩ :=
      @exponentDigits_of_digit start (Binary64.signOfText text).1 _ hnext position'
    obtain ⟨written, htext, hwritten, hall, -⟩ :=
      exists_written_of_digitRun (Binary64.signOfText text).2
    obtain ⟨sign, hsign, hplain, hcut⟩ := exists_sign text
    refine .inl ⟨sign ++ written, _, _, heq.trans hreturns, ?_, fun mark hmark => ?_⟩
    · rw [List.append_assoc, ← htext]
      exact hsign
    · have hne := digitRun_ne_nil hnext
      rw [withoutSeparators_append, hplain, hwritten]
      have hhead : (digitRun (Binary64.signOfText text).2).1.head?.any isDecimalDigit = true := by
        obtain ⟨x, rest, hdigits⟩ := List.exists_cons_of_ne_nil hne
        rw [hdigits] at hall ⊢
        exact hall x List.mem_cons_self
      have hvalue : Binary64.digitsOfText? (digitRun (Binary64.signOfText text).2).1 =
          some (digitsValue 10 (digitRun (Binary64.signOfText text).2).1) := by
        rw [Binary64.digitsOfText?, List.isEmpty_eq_false_iff.2 hne, List.all_eq_true.2 hall]
        rfl
      rw [Binary64.exponentOfText?, if_pos hmark, hcut _ hhead, hvalue]
      rfl

/-- What an exponent is read from, if there is one, or that it has no digits. -/
theorem exponent?_cases (start : Position) (text : List Char) (position : Position) :
    (∃ written e d, Returns (exponent? start) ⟨text, position⟩ e d ∧ text = written ++ d.rest ∧
        (withoutSeparators written).head?.all isExponentMark = true ∧
        Binary64.exponentOfText? (withoutSeparators written) = some (e.getD 0) ∧
        (e = none → written = [])) ∨
      ∃ mark rest d, text = mark :: rest ∧ isExponentMark mark = true ∧
        (Binary64.signOfText rest).2.head?.any isDecimalDigit = false ∧
        exponent? start ⟨text, position⟩ =
          .error (.error (.located (.scan .invalidNumber) start)) d := by
  by_cases hmark : text.head?.any isExponentMark = true
  · cases text with
    | nil => cases hmark
    | cons mark rest =>
      have hmark : isExponentMark mark = true := hmark
      have hskip : exponent? start ⟨mark :: rest, position⟩ =
          signedExponent start ⟨rest, position.past mark rest.head?⟩ := by
        change (if isExponentMark mark = true then (skip 1 >>= fun _ => signedExponent start)
          else pure none) _ = _
        rw [if_pos hmark]
        rfl
      rcases signedExponent_cases start rest (position.past mark rest.head?) with
        ⟨written, e, d, hreturns, hrest, htext⟩ | ⟨hnone, d, hfails⟩
      · have hplain : mark ≠ '_' := by
          rintro rfl
          exact absurd hmark (by decide)
        refine .inl ⟨mark :: written, some e, d, hskip.trans hreturns, congrArg (mark :: ·) hrest, ?_,
          ?_, by rintro ⟨⟩⟩
        · rw [withoutSeparators_cons hplain]
          exact hmark
        · rw [withoutSeparators_cons hplain]
          exact htext mark hmark
      · exact .inr ⟨mark, rest, d, rfl, hmark, hnone, hskip.trans hfails⟩
  · refine .inl ⟨[], none, ⟨text, position⟩, .nextIs ?_, rfl, rfl, rfl, fun _ => rfl⟩
    change Returns (if text.head?.any isExponentMark = true then _ else pure none) _ _ _
    rw [if_neg hmark]
    exact .pure

/-! ## Numerals -/

theorem peek_bind {α : Type} (q : Option Char → Scan α) (c : Cursor) :
    (peek >>= q) c = q c.rest.head? c := rfl

theorem Returns.bind_eq {α β : Type} {p : Scan α} {q : α → Scan β} {c c' : Cursor} {a : α}
    (h : Returns p c a c') : (p >>= q) c = q a c' := by
  simp only [Bind.bind, EStateM.bind, show p c = .ok a c' from h]

theorem bind_of_error {α β : Type} {p : Scan α} {q : α → Scan β} {c c' : Cursor} {e : Failure}
    (h : p c = .error e c') : (p >>= q) c = .error e c' := by
  simp only [Bind.bind, EStateM.bind, h]

/-- Reads the fraction and the exponent of a decimal behind its whole digits. -/
def decimalRest (start : Position) (whole : List Char) : Scan Numeral := do
  let fraction ← if ← accept '.' then some <$> decimalDigits else pure none
  return .decimal whole fraction (← exponent? start)

/-- The radix that the first two characters of a number say, if that is not ten. -/
def markedRadix? (first : Char) (next : Option Char) : Option Nat :=
  if first == '0' then next.bind Numeral.radixOf? else none

theorem numeral_of_radix {first next : Char} {radix : Nat}
    (h : markedRadix? first (some next) = some radix) (start : Position) (rest : List Char)
    (position : Position) : numeral first start ⟨next :: rest, position⟩ =
      radixNumeral radix start ⟨rest, position.past next rest.head?⟩ := by
  unfold markedRadix? at h
  rw [numeral, peek_bind]
  dsimp only [List.head?_cons]
  rw [h]
  rfl

theorem numeral_of_decimal {first : Char} {rest : List Char}
    (h : markedRadix? first rest.head? = none) (start position : Position) :
    numeral first start ⟨rest, position⟩ = (do
      let leading ← decimalDigits
      if first == '.' then return Numeral.decimal [] (some leading) (← exponent? start)
      decimalRest start (first :: leading)) ⟨rest, position⟩ := by
  unfold markedRadix? at h
  rw [numeral, peek_bind]
  dsimp only
  rw [h]
  rfl

/-- The scan fails on the exponent of a number, which has no digits. -/
def LacksDigits {α : Type} (p : Scan α) (start : Position) (text : List Char) (c : Cursor) : Prop :=
  ∃ written mark rest d, text = written ++ mark :: rest ∧
    (∀ x ∈ withoutSeparators written, isDecimalDigit x = true ∨ x = '.') ∧
    isExponentMark mark = true ∧
    (Binary64.signOfText rest).2.head?.any isDecimalDigit = false ∧
    p c = .error (.error (.located (.scan .invalidNumber) start)) d

/-- A decimal, or an exponent without digits. -/
theorem decimalRest_cases {whole : List Char} (hne : whole ≠ [])
    (hwhole : ∀ x ∈ whole, isDecimalDigit x = true) (start : Position) (text : List Char)
    (position : Position) :
    (∃ written literal d, Returns (decimalRest start whole) ⟨text, position⟩ literal d ∧
        text = written ++ d.rest ∧ literal.IsWrittenAs (whole ++ withoutSeparators written)) ∨
      LacksDigits (decimalRest start whole) start text ⟨text, position⟩ := by
  -- The exponent behind a fraction, or behind none.
  have hexponent (fraction : Option (List Char)) (front rest : List Char) (position' : Position)
      (htext : text = front ++ rest)
      (hfront : withoutSeparators front = fraction.elim [] ('.' :: ·))
      (hfraction : ∀ digits ∈ fraction, ∀ x ∈ digits, isDecimalDigit x = true)
      (heq : decimalRest start whole ⟨text, position⟩ =
        (exponent? start >>= fun e => pure (Numeral.decimal whole fraction e)) ⟨rest, position'⟩) :
      (∃ written literal d, Returns (decimalRest start whole) ⟨text, position⟩ literal d ∧
          text = written ++ d.rest ∧ literal.IsWrittenAs (whole ++ withoutSeparators written)) ∨
        LacksDigits (decimalRest start whole) start text ⟨text, position⟩ := by
    rcases exponent?_cases start rest position' with
      ⟨written, e, d, hreturns, hrest, hmark, hvalue, hnone⟩ |
        ⟨mark, behind, d, hrest, hmark, hbare, hfails⟩
    · refine .inl ⟨front ++ written, _, d, heq.trans (hreturns.bind .pure), ?_, ⟨?_, ?_⟩⟩
      · rw [htext, hrest, List.append_assoc]
      · rw [withoutSeparators_append, hfront]
        exact ⟨_, rfl, Binary64.ofText?_append hne hwhole hfraction hmark hvalue⟩
      · intro integer hinteger
        cases fraction with
        | some digits => cases hinteger
        | none =>
          cases e with
          | some e => cases hinteger
          | none =>
            cases hinteger
            rw [withoutSeparators_append, hfront, hnone rfl]
            refine ⟨String.toList_ofList.trans (List.append_nil whole).symm, ?_⟩
            exact fun x hx => hwhole x (by simpa [withoutSeparators] using hx)
    · refine .inr ⟨front, mark, behind, d, ?_, ?_, hmark, hbare,
        heq.trans (bind_of_error hfails)⟩
      · rw [htext, hrest]
      · rw [hfront]
        cases fraction with
        | none => exact List.forall_mem_nil _
        | some digits =>
          exact List.forall_mem_cons.2 ⟨.inr rfl, fun x hx => .inl (hfraction digits rfl x hx)⟩
  by_cases hpoint : text.head? = some '.'
  · obtain ⟨text, rfl⟩ := List.head?_eq_some_iff.1 hpoint
    obtain ⟨stop, hdigits⟩ := reads_decimalDigits text (position.past '.' text.head?)
    obtain ⟨written, htext, hwritten, hall, -⟩ := exists_written_of_digitRun text
    refine hexponent (some (digitRun text).1) ('.' :: written) (digitRun text).2 stop
      (congrArg ('.' :: ·) htext) ?_ ?_ ?_
    · rw [withoutSeparators_cons (by decide), hwritten]
      rfl
    · rintro _ ⟨⟩
      exact hall
    · have haccept : Returns (accept '.') ⟨'.' :: text, position⟩ true
          ⟨text, position.past '.' text.head?⟩ := rfl
      have hfraction : Returns (some <$> decimalDigits) ⟨text, position.past '.' text.head?⟩
          (some (digitRun text).1) ⟨(digitRun text).2, stop⟩ := by
        rw [map_eq_pure_bind]
        exact hdigits.bind .pure
      unfold decimalRest
      exact haccept.bind_eq.trans hfraction.bind_eq
  · refine hexponent none [] text position rfl rfl (by rintro _ ⟨⟩) ?_
    have haccept : Returns (accept '.') ⟨text, position⟩ false ⟨text, position⟩ := by
      refine .peek ?_
      rw [if_neg (by simpa using hpoint)]
      exact .pure
    unfold decimalRest
    exact haccept.bind_eq

/-- A number in radix ten, or an exponent without digits. -/
theorem numeral_cases {first : Char} {rest : List Char}
    (hfirst : isDecimalDigit first = true ∨ first = '.') (h : markedRadix? first rest.head? = none)
    (start position : Position) :
    (∃ written literal d, Returns (numeral first start) ⟨rest, position⟩ literal d ∧
        first :: rest = written ++ d.rest ∧ literal.IsWrittenAs (digitBuffer written)) ∨
      LacksDigits (numeral first start) start (first :: rest) ⟨rest, position⟩ := by
  obtain ⟨stop, hleading⟩ := reads_decimalDigits rest position
  obtain ⟨leading, hrest, hwritten, hall, -⟩ := exists_written_of_digitRun rest
  have heq := (numeral_of_decimal h start position).trans hleading.bind_eq
  by_cases hpoint : first = '.'
  · subst hpoint
    rw [if_pos (by rfl)] at heq
    rcases exponent?_cases start (digitRun rest).2 stop with
      ⟨written, e, d, hreturns, htext, hmark, hvalue, -⟩ |
        ⟨mark, behind, d, htext, hmark, hbare, hfails⟩
    · refine .inl ⟨'.' :: leading ++ written, _, d, heq.trans (hreturns.bind .pure), ?_,
        ⟨?_, by rintro _ ⟨⟩⟩⟩
      · rw [List.cons_append, List.cons_append, List.append_assoc, ← htext, ← hrest]
      · refine ⟨_, rfl, ?_⟩
        rw [digitBuffer, if_pos (by rfl), List.cons_append, withoutSeparators_cons (by decide),
          withoutSeparators_append, hwritten]
        have hfraction : ∀ digits ∈ some (digitRun rest).1, ∀ x ∈ digits,
            isDecimalDigit x = true := by
          rintro _ ⟨⟩
          exact hall
        exact Binary64.ofText?_append (List.cons_ne_nil '0' []) (List.forall_mem_singleton.2 rfl)
          hfraction hmark hvalue
    · refine .inr ⟨'.' :: leading, mark, behind, d, ?_, ?_, hmark, hbare,
        heq.trans (bind_of_error hfails)⟩
      · rw [List.cons_append, ← htext, ← hrest]
      · rw [withoutSeparators_cons (by decide), hwritten]
        exact List.forall_mem_cons.2 ⟨.inr rfl, fun x hx => .inl (hall x hx)⟩
  · have hdigit := hfirst.resolve_right hpoint
    have hplain : first ≠ '_' := by
      rintro rfl
      exact absurd hdigit (by decide)
    rw [if_neg (by simpa using hpoint)] at heq
    have hbuffer (written : List Char) : digitBuffer (first :: leading ++ written) =
        first :: (digitRun rest).1 ++ withoutSeparators written := by
      rw [digitBuffer, if_neg (by simpa using hpoint), List.cons_append,
        withoutSeparators_cons hplain, withoutSeparators_append, hwritten]
      rfl
    rcases decimalRest_cases (List.cons_ne_nil first (digitRun rest).1)
        (List.forall_mem_cons.2 ⟨hdigit, hall⟩) start (digitRun rest).2 stop with
      ⟨written, literal, d, hreturns, htext, hliteral⟩ |
        ⟨written, mark, behind, d, htext, hfront, hmark, hbare, hfails⟩
    · refine .inl ⟨first :: leading ++ written, literal, d, heq.trans hreturns, ?_, ?_⟩
      · rw [List.cons_append, List.cons_append, List.append_assoc, ← htext, ← hrest]
      · rw [hbuffer]
        exact hliteral
    · refine .inr ⟨first :: leading ++ written, mark, behind, d, ?_, ?_, hmark, hbare,
        heq.trans hfails⟩
      · rw [List.cons_append, List.cons_append, List.append_assoc, ← htext, ← hrest]
      · rw [List.cons_append, withoutSeparators_cons hplain, withoutSeparators_append, hwritten]
        refine List.forall_mem_cons.2 ⟨.inl hdigit, List.forall_mem_append.2 ⟨?_, hfront⟩⟩
        exact fun x hx => .inl (hall x hx)

/-! ## Integers in other radixes -/

/-- Whether the character stands in an integer of the radix. -/
def isRadixPart (radix : Nat) (c : Char) : Bool := isDigitOf radix c || c == '_'

theorem radixNumeral_eq (radix : Nat) (start : Position) (text : List Char) (position : Position) :
    ∃ stop, radixNumeral radix start ⟨text, position⟩ =
      if (withoutSeparators (text.takeWhile (isRadixPart radix))).isEmpty then
        .error (.error (.located (.scan (.digitsExpected radix)) start))
          ⟨text.dropWhile (isRadixPart radix), stop⟩
      else .ok (.based radix (withoutSeparators (text.takeWhile (isRadixPart radix))))
        ⟨text.dropWhile (isRadixPart radix), stop⟩ := by
  obtain ⟨stop, hreads⟩ := reads_takeWhile (isRadixPart radix) text position
  refine ⟨stop, hreads.bind_eq.trans ?_⟩
  change (if (withoutSeparators (text.takeWhile (isRadixPart radix))).isEmpty = true then _ else _ :
    Scan Numeral) _ = _
  split <;> rfl

theorem isDigitOf_of_mem_takeWhile {radix : Nat} {text : List Char} :
    ∀ x ∈ withoutSeparators (text.takeWhile (isRadixPart radix)), isDigitOf radix x = true := by
  intro x hx
  obtain ⟨hx, hplain⟩ := List.mem_filter.1 hx
  have hpart := List.all_eq_true.1 (List.all_takeWhile (p := isRadixPart radix)) x hx
  rw [isRadixPart, Bool.or_eq_true, beq_iff_eq] at hpart
  exact hpart.resolve_right (bne_iff_ne.1 hplain)

/-! ## Ends of literals -/

def endNumber (token : Token) : Scan Token := do
  if ← nextIs isIdStart then fail .identifierAfterNumber (← here)
  return token

theorem endNumber_of_other {token : Token} {c : Cursor} (h : c.rest.head?.any isIdStart = false) :
    Returns (endNumber token) c token c := by
  refine .nextIs ?_
  rw [h]
  exact .pure

theorem endNumber_of_idStart {token : Token} {c : Cursor} (h : c.rest.head?.any isIdStart = true) :
    endNumber token c = .error (.error (.located (.scan .identifierAfterNumber) c.position)) c := by
  change (if c.rest.head?.any isIdStart = true then _ else _ : Scan Token) c = _
  rw [if_pos h]
  rfl

theorem nextIs_bind {α : Type} (p : Char → Bool) (q : Bool → Scan α) (c : Cursor) :
    (nextIs p >>= q) c = q (c.rest.head?.any p) c := rfl

/-- What a numeral becomes in front of the suffix. -/
theorem closeNumber_of_suffix (literal : Numeral) (start : Position) (rest : List Char)
    (position : Position) :
    (∃ text stop, literal.integerText? = some text ∧
        closeNumber literal start ⟨'n' :: rest, position⟩ =
          endNumber (.bigInt text) ⟨rest, stop⟩) ∨
      closeNumber literal start ⟨'n' :: rest, position⟩ =
        .error (.error (.located (.scan .invalidBigInt) start)) ⟨'n' :: rest, position⟩ := by
  cases htext : literal.integerText? with
  | some text =>
    refine .inl ⟨text, position.past 'n' rest.head?, rfl, ?_⟩
    rw [closeNumber, nextIs_bind]
    dsimp only
    rw [htext]
    rfl
  | none =>
    refine .inr ?_
    rw [closeNumber, nextIs_bind]
    dsimp only
    rw [htext]
    rfl

/-- What a numeral becomes in front of anything else. -/
theorem closeNumber_of_other (literal : Numeral) (start : Position) (c : Cursor)
    (h : c.rest.head?.any (· == 'n') = false) :
    (∃ value, literal.value? = some value ∧
        closeNumber literal start c = endNumber (.number value) c) ∨
      literal.value? = none ∧
        closeNumber literal start c = .error (.error (.located (.scan .invalidNumber) start)) c := by
  cases hvalue : literal.value? with
  | some value =>
    refine .inl ⟨value, rfl, ?_⟩
    rw [closeNumber, nextIs_bind, h]
    dsimp only
    rw [hvalue]
    rfl
  | none =>
    refine .inr ⟨rfl, ?_⟩
    rw [closeNumber, nextIs_bind, h]
    dsimp only
    rw [hvalue]
    rfl

/-- No name stands behind a number. What is one is a text in front of the suffix, or a value. -/
theorem of_closeNumber {literal : Numeral} {start : Position} {c d : Cursor} {token : Token}
    (h : Returns (closeNumber literal start) c token d) :
    d.rest.head?.any isIdStart = false ∧
      ((∃ text, token = .bigInt text ∧ literal.integerText? = some text ∧ c.rest = 'n' :: d.rest) ∨
        ∃ value, token = .number value ∧ literal.value? = some value ∧ d = c) := by
  have hend {token' : Token} {c' : Cursor} (h : Returns (endNumber token') c' token d) :
      d.rest.head?.any isIdStart = false ∧ token = token' ∧ d = c' := by
    cases hname : c'.rest.head?.any isIdStart with
    | true => cases (endNumber_of_idStart hname).symm.trans h
    | false =>
      cases (endNumber_of_other hname).symm.trans h
      exact ⟨hname, rfl, rfl⟩
  cases hsuffix : c.rest.head?.any (· == 'n') with
  | true =>
    obtain ⟨_ | ⟨x, rest⟩, position⟩ := c
    · cases hsuffix
    obtain rfl : x = 'n' := by simpa using hsuffix
    rcases closeNumber_of_suffix literal start rest position with
      ⟨text, stop, htext, heq⟩ | hfails
    · obtain ⟨hname, rfl, rfl⟩ := hend (heq.symm.trans h)
      exact ⟨hname, .inl ⟨text, rfl, htext, rfl⟩⟩
    · cases hfails.symm.trans h
  | false =>
    rcases closeNumber_of_other literal start c hsuffix with ⟨value, hvalue, heq⟩ | ⟨-, hfails⟩
    · obtain ⟨hname, rfl, rfl⟩ := hend (heq.symm.trans h)
      exact ⟨hname, .inr ⟨value, rfl, hvalue, rfl⟩⟩
    · cases hfails.symm.trans h

/-- A numeral is refused as an invalid number only if it has no value. -/
theorem value?_of_closeNumber {literal : Numeral} {start : Position} {c d : Cursor}
    (h : closeNumber literal start c = .error (.error (.located (.scan .invalidNumber) start)) d) :
    literal.value? = none := by
  have hend {token : Token} {c' : Cursor}
      (h : endNumber token c' = .error (.error (.located (.scan .invalidNumber) start)) d) :
      False := by
    cases hname : c'.rest.head?.any isIdStart with
    | true => cases (endNumber_of_idStart hname).symm.trans h
    | false => cases (endNumber_of_other hname).symm.trans h
  cases hsuffix : c.rest.head?.any (· == 'n') with
  | true =>
    obtain ⟨_ | ⟨x, rest⟩, position⟩ := c
    · cases hsuffix
    obtain rfl : x = 'n' := by simpa using hsuffix
    rcases closeNumber_of_suffix literal start rest position with ⟨_, _, _, heq⟩ | hfails
    · exact (hend (heq.symm.trans h)).elim
    · cases hfails.symm.trans h
  | false =>
    rcases closeNumber_of_other literal start c hsuffix with ⟨_, _, heq⟩ | ⟨hvalue, -⟩
    · exact (hend (heq.symm.trans h)).elim
    · exact hvalue

/-! ## Literals -/

theorem lowerMark_of_radix {mark : Char} {radix : Nat} (h : Numeral.radixOf? mark = some radix)
    (digits : List Char) : (Numeral.radixMark radix).toList ++ withoutSeparators digits =
      lowerMark (withoutSeparators ('0' :: mark :: digits)) := by
  unfold Numeral.radixOf? at h
  split at h <;> cases h <;> rfl

theorem eq_zero_of_markedRadix? {first : Char} {next : Option Char} {radix : Nat}
    (h : markedRadix? first next = some radix) : first = '0' ∧
      ∃ mark, next = some mark ∧ Numeral.radixOf? mark = some radix := by
  unfold markedRadix? at h
  split at h
  · next hzero =>
    obtain ⟨mark, hmark, hradix⟩ := Option.bind_eq_some_iff.1 h
    exact ⟨eq_of_beq hzero, mark, hmark, hradix⟩
  · cases h

theorem lowerMark_of_digits {digits : List Char} (h : ∀ x ∈ digits, isDecimalDigit x = true) :
    lowerMark digits = digits := by
  unfold lowerMark
  split
  · next mark rest =>
    have hlower := of_isDecimalDigit (p := fun d => d.toLower == d) (by decide) (h mark (by simp))
    rw [eq_of_beq hlower]
  · rfl

/-- What a numeral is read from says its text, if it is an integer. -/
theorem integer_of_numeral {first : Char} (hfirst : isDecimalDigit first = true ∨ first = '.')
    {start : Position} {c d : Cursor} {literal : Numeral} {text : String}
    (h : Returns (numeral first start) c literal d) (htext : literal.integerText? = some text) :
    ∃ written, first :: c.rest = written ++ d.rest ∧ IsInteger written ∧
      text.toList = lowerMark (withoutSeparators written) := by
  obtain ⟨rest, position⟩ := c
  cases hradix : markedRadix? first rest.head? with
  | none =>
    rcases numeral_cases hfirst hradix start position with
      ⟨written, _, _, hreturns, hwritten, hliteral⟩ | ⟨_, _, _, _, _, _, _, _, hfails⟩
    · cases hreturns.symm.trans h
      obtain ⟨hdigits, hall⟩ := hliteral.integer text htext
      have hpoint : ¬(written.head? == some '.') = true := by
        intro hpoint
        rw [digitBuffer, if_pos hpoint] at hall
        obtain ⟨written, rfl⟩ := List.head?_eq_some_iff.1 (eq_of_beq hpoint)
        exact absurd (hall '.' (by simp [withoutSeparators])) (by decide)
      rw [digitBuffer, if_neg hpoint] at hdigits hall
      exact ⟨written, hwritten, .inl hall, hdigits.trans (lowerMark_of_digits hall).symm⟩
    · cases hfails.symm.trans h
  | some radix =>
    obtain ⟨rfl, mark, hnext, hmark⟩ := eq_zero_of_markedRadix? hradix
    obtain ⟨rest, rfl⟩ := List.head?_eq_some_iff.1 hnext
    rw [Returns, numeral_of_radix hradix] at h
    obtain ⟨stop, heq⟩ := radixNumeral_eq radix start rest (position.past mark rest.head?)
    rw [heq] at h
    split at h
    · cases h
    cases h
    cases htext
    refine ⟨'0' :: mark :: rest.takeWhile (isRadixPart radix), ?_, .inr ?_, ?_⟩
    · rw [List.cons_append, List.cons_append, List.takeWhile_append_dropWhile]
    · exact ⟨mark, radix, _, rfl, hmark, isDigitOf_of_mem_takeWhile⟩
    · rw [← lowerMark_of_radix hmark, String.toList_append, String.toList_ofList]

/-- The digits of an integer in another radix are read up to what follows them. -/
theorem radixNumeral_append {radix : Nat} {digits following : List Char}
    (hdigits : ∀ x ∈ withoutSeparators digits, isDigitOf radix x = true)
    (hne : withoutSeparators digits ≠ [])
    (hstop : following.head?.any (isRadixPart radix) = false) (start position : Position) :
    ∃ stop, Returns (radixNumeral radix start) ⟨digits ++ following, position⟩
      (.based radix (withoutSeparators digits)) ⟨following, stop⟩ := by
  have hpart : ∀ x ∈ digits, isRadixPart radix x = true := by
    intro x hx
    rw [isRadixPart, Bool.or_eq_true, beq_iff_eq]
    by_cases hmark : x = '_'
    · exact .inr hmark
    · exact .inl (hdigits x (List.mem_filter.2 ⟨hx, bne_iff_ne.2 hmark⟩))
  have hnone : following.takeWhile (isRadixPart radix) = [] ∧
      following.dropWhile (isRadixPart radix) = following := by
    cases following with
    | nil => exact ⟨rfl, rfl⟩
    | cons x following =>
      have hx : ¬isRadixPart radix x = true := Bool.eq_false_iff.1 hstop
      exact ⟨List.takeWhile_cons_of_neg hx, List.dropWhile_cons_of_neg hx⟩
  obtain ⟨stop, heq⟩ := radixNumeral_eq radix start (digits ++ following) position
  rw [List.takeWhile_append_of_pos hpart, List.dropWhile_append_of_pos hpart, hnone.1, hnone.2,
    List.append_nil, if_neg (by simpa using hne)] at heq
  exact ⟨stop, heq⟩

/-- What the scanner makes of a number, of which the first character has been read. A token with a
text is an integer in front of the suffix. An integer in another radix has a value if it is below
`2 ^ 64`. The text of a decimal has a value wherever the scanner is about to convert it, and what is
wrong with a decimal that is an invalid number is its exponent. No name follows a number. -/
theorem numericLiteral_denotes (first : Char) (hfirst : isDecimalDigit first = true ∨ first = '.')
    (start : Position) (rest : List Char) (position : Position) :
    let c : Cursor := ⟨rest, position⟩
    let invalid : Failure := .error (.located (.scan .invalidNumber) start)
    (∀ text d, Returns (numericLiteral first start) c (.bigInt text) d →
      ∃ written, first :: rest = written ++ 'n' :: d.rest ∧ IsInteger written ∧
        text.toList = lowerMark (withoutSeparators written)) ∧
    (∀ mark radix digits following, markedRadix? first (some mark) = some radix →
      rest = mark :: (digits ++ following) →
      (∀ x ∈ withoutSeparators digits, isDigitOf radix x = true) → withoutSeparators digits ≠ [] →
      following.head?.any (fun x => isDigitOf radix x || isIdStart x) = false →
      let n := digitsValue radix (withoutSeparators digits)
      (n < 2 ^ 64 → ∃ stop, Returns (numericLiteral first start) c (.number (.ofNat n))
        ⟨following, stop⟩) ∧
      (2 ^ 64 ≤ n → ∃ d, numericLiteral first start c = .error invalid d)) ∧
    (markedRadix? first rest.head? = none →
      (∀ literal d, Returns (numeral first start) c literal d →
        ∃ written value, first :: rest = written ++ d.rest ∧ literal.value? = some value ∧
          Binary64.ofText? (digitBuffer written) = some value) ∧
      ∀ d, numericLiteral first start c = .error invalid d →
        LacksDigits (numericLiteral first start) start (first :: rest) c) ∧
    ∀ token d, Returns (numericLiteral first start) c token d →
      d.rest.head?.any isIdStart = false := by
  intro c invalid
  refine ⟨fun text d h => ?_, fun mark radix digits following hradix hrest hdigits hne hstop => ?_,
    fun hradix => ⟨fun literal d h => ?_, fun d h => ?_⟩, fun token d h => ?_⟩
  · rw [numericLiteral_eq] at h
    obtain ⟨literal, middle, hnumeral, hclose⟩ := h.of_bind
    obtain ⟨-, ⟨_, heq, htext, hsuffix⟩ | ⟨_, heq, -⟩⟩ := of_closeNumber hclose
    · cases heq
      obtain ⟨written, hwritten, hinteger, hlower⟩ := integer_of_numeral hfirst hnumeral htext
      rw [hsuffix] at hwritten
      exact ⟨written, hwritten, hinteger, hlower⟩
    · cases heq
  · have hpart : following.head?.any (isRadixPart radix) = false ∧
        following.head?.any isIdStart = false ∧ following.head?.any (· == 'n') = false := by
      cases following with
      | nil => exact ⟨rfl, rfl, rfl⟩
      | cons x following =>
        obtain ⟨hdigit, hname⟩ := Bool.or_eq_false_iff.1 hstop
        have hne (y : Char) (hy : isIdStart y = true) : (x == y) = false := by
          refine beq_false_of_ne ?_
          rintro rfl
          rw [hy] at hname
          cases hname
        refine ⟨?_, hname, hne 'n' (by decide +kernel)⟩
        rw [List.head?_cons, Option.any_some, isRadixPart, hdigit, hne '_' (by decide +kernel)]
        rfl
    obtain ⟨hpart, hname, hsuffix⟩ := hpart
    subst hrest
    obtain ⟨stop, hnumeral⟩ := radixNumeral_append hdigits hne hpart start
      (position.past mark (digits ++ following).head?)
    have hread : numericLiteral first start c = closeNumber
        (.based radix (withoutSeparators digits)) start ⟨following, stop⟩ := by
      rw [numericLiteral_eq]
      exact Returns.bind_eq ((numeral_of_radix hradix start _ position).trans hnumeral)
    rcases closeNumber_of_other (.based radix (withoutSeparators digits)) start
      ⟨following, stop⟩ hsuffix with
      ⟨value, hvalue, heq⟩ | ⟨hvalue, heq⟩
    · rw [Numeral.value?, Option.ite_none_right_eq_some] at hvalue
      obtain ⟨hless, hvalue⟩ := hvalue
      cases hvalue
      exact ⟨fun _ => ⟨stop, hread.trans (heq.trans (endNumber_of_other hname))⟩,
        fun hle => absurd hless (Nat.not_lt.2 hle)⟩
    · rw [Numeral.value?, ite_eq_right_iff] at hvalue
      exact ⟨fun hless => absurd (hvalue hless) (by rintro ⟨⟩), fun _ => ⟨_, hread.trans heq⟩⟩
  · rcases numeral_cases hfirst hradix start position with
      ⟨written, _, _, hreturns, hwritten, hliteral⟩ | ⟨_, _, _, _, _, _, _, _, hfails⟩
    · cases hreturns.symm.trans h
      obtain ⟨value, hvalue, htext⟩ := hliteral.value
      exact ⟨written, value, hwritten, hvalue, htext⟩
    · cases hfails.symm.trans h
  · rcases numeral_cases hfirst hradix start position with
      ⟨written, literal, middle, hreturns, -, hliteral⟩ |
        ⟨written, mark, behind, stop, htext, hfront, hmark, hbare, hfails⟩
    · have hclose : numericLiteral first start c = closeNumber literal start middle := by
        rw [numericLiteral_eq]
        exact hreturns.bind_eq
      obtain ⟨value, hvalue, -⟩ := hliteral.value
      cases hvalue.symm.trans (value?_of_closeNumber (hclose.symm.trans h))
    · refine ⟨written, mark, behind, stop, htext, hfront, hmark, hbare, ?_⟩
      rw [numericLiteral_eq]
      exact bind_of_error hfails
  · rw [numericLiteral_eq] at h
    obtain ⟨literal, middle, -, hclose⟩ := h.of_bind
    exact (of_closeNumber hclose).1

/-- The largest integer in radix 16 that has a value, with separators, and one more. -/
theorem numericLiteral_denotes_of_radix :
    isDecimalDigit '0' = true ∧
      (∃ stop, Returns (numericLiteral '0' .start) ⟨"X_ffFFffFF_ffFFffFF;".toList, ⟨1, 1, 1⟩⟩
        (.number (.ofNat (2 ^ 64 - 1))) ⟨";".toList, stop⟩) ∧
      ∃ d, numericLiteral '0' .start ⟨"X1_00000000_00000000;".toList, ⟨1, 1, 1⟩⟩ =
        .error (.error (.located (.scan .invalidNumber) .start)) d := by
  have hzero : isDecimalDigit '0' = true := by decide
  have hlargest := (numericLiteral_denotes '0' (.inl hzero) .start "X_ffFFffFF_ffFFffFF;".toList
    ⟨1, 1, 1⟩).2.1 'X' 16 "_ffFFffFF_ffFFffFF".toList ";".toList rfl rfl
    (List.all_eq_true.1 (by decide)) (by decide) (by decide +kernel)
  have hmore := (numericLiteral_denotes '0' (.inl hzero) .start "X1_00000000_00000000;".toList
    ⟨1, 1, 1⟩).2.1 'X' 16 "1_00000000_00000000".toList ";".toList rfl rfl
    (List.all_eq_true.1 (by decide)) (by decide) (by decide +kernel)
  exact ⟨hzero, hlargest.1 (by decide +kernel), hmore.2 (by decide +kernel)⟩

end Scan

end EcmaScript
