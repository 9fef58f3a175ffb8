import EcmaScript.Proofs.Lexer
import EcmaScript.Proofs.Locality
import Mathlib.Data.List.Chain

/-!
String literals, written and read.

Between its quotes a string literal is a row of pieces: a character that stands for itself, an
escape, or a line continuation. `StringPiece.text` is how a piece is written and
`StringPiece.denoted` what it stands for. Escapes interact with what stands behind them: `\0` must
not be followed by a digit, and a high surrogate that is alone not by a low one. With these
exceptions every row of pieces is read back to the text that it denotes.
-/

namespace EcmaScript

/-! ## Written code points -/

abbrev HexDigit := { c : Char // isHexDigit c = true }

theorem HexDigit.value_lt (digit : HexDigit) : (digitValue? digit.val).getD 0 < 16 := by
  obtain ⟨c, hc⟩ := digit
  unfold isHexDigit isDigitOf at hc
  cases hvalue : digitValue? c with
  | none => decide
  | some n =>
    rw [hvalue] at hc
    exact of_decide_eq_true hc

/-- A code point as a Unicode escape writes it: with four digits, or with any number of them in
braces. -/
inductive WrittenCode where
  | four (a b c d : HexDigit)
  | braced (first : HexDigit) (others : List HexDigit)

namespace WrittenCode

/-- The digits, of which there may be more than needed. -/
def digits : WrittenCode → List Char
  | four a b c d => [a, b, c, d].map Subtype.val
  | braced first others => (first :: others).map Subtype.val

/-- What stands behind the `u` of the escape. -/
def body : WrittenCode → List Char
  | code@(four _ _ _ _) => code.digits
  | code@(braced _ _) => '\x7b' :: (code.digits ++ ['\x7d'])

/-- The escape. -/
def text (code : WrittenCode) : List Char := '\\' :: 'u' :: code.body

/-- The number that is written. -/
def value (code : WrittenCode) : Nat := digitsValue 16 code.digits

/-- The number is the first half of a surrogate pair. -/
def IsHigh (code : WrittenCode) : Prop := 0xD800 ≤ code.value ∧ code.value ≤ 0xDBFF

/-- The number is the second half of a surrogate pair. -/
def IsLow (code : WrittenCode) : Prop := 0xDC00 ≤ code.value ∧ code.value ≤ 0xDFFF

instance (code : WrittenCode) : Decidable code.IsHigh := inferInstanceAs (Decidable (_ ∧ _))

instance (code : WrittenCode) : Decidable code.IsLow := inferInstanceAs (Decidable (_ ∧ _))

/-- The character that a surrogate pair denotes. -/
def join (high low : WrittenCode) : Char :=
  Char.ofNat (0x10000 + (high.value - 0xD800) * 0x400 + (low.value - 0xDC00))

end WrittenCode

/-! ## Pieces -/

/-- The letters that stand for a control character behind a backslash, with that character. -/
def controlLetters : List (Char × Char) :=
  [('n', '\n'), ('t', '\t'), ('r', '\r'), ('b', '\x08'), ('f', '\x0C'), ('v', '\x0B')]

/-- The line breaks that a string literal may be continued behind. -/
def continuedBreaks : List (List Char) := [['\n'], ['\r'], ['\r', '\n'], ['\u2028'], ['\u2029']]

/-- Whether the character stands for itself behind a backslash. -/
def escapesItself (c : Char) : Bool :=
  !(controlLetters.map (·.1)).contains c && c != 'x' && c != 'u' && !isDecimalDigit c &&
    !isLineTerminator c

/-- A piece of a string literal in the given quotes. -/
inductive StringPiece (quote : Char) where
  /-- A character that stands for itself. -/
  | plain (c : Char) (h : c ≠ quote ∧ c ≠ '\\' ∧ c ≠ '\n' ∧ c ≠ '\r')
  /-- A control character, written as a backslash and a letter. -/
  | control (letter denoted : Char) (h : (letter, denoted) ∈ controlLetters)
  /-- The character NUL, written `\0`. -/
  | null
  /-- A character below U+0100, written `\x` and two digits. -/
  | byte (high low : HexDigit)
  /-- A Unicode escape of a character. -/
  | character (code : WrittenCode) (h : code.value.isValidChar)
  /-- Two Unicode escapes that make a surrogate pair. -/
  | pair (high low : WrittenCode) (hhigh : high.IsHigh) (hlow : low.IsLow)
  /-- A Unicode escape of a surrogate that belongs to no pair. -/
  | lone (code : WrittenCode) (h : code.IsHigh ∨ code.IsLow)
  /-- A character that stands for itself behind a backslash, too. -/
  | itself (c : Char) (h : escapesItself c = true)
  /-- A backslash and a line break, which denote nothing. -/
  | continued (lineBreak : List Char) (h : lineBreak ∈ continuedBreaks)

namespace StringPiece

variable {quote : Char}

/-- How the piece is written. -/
def text : StringPiece quote → List Char
  | plain c _ => [c]
  | control letter _ _ => ['\\', letter]
  | null => ['\\', '0']
  | byte high low => ['\\', 'x', high, low]
  | character code _ => code.text
  | pair high low _ _ => high.text ++ low.text
  | lone code _ => code.text
  | itself c _ => ['\\', c]
  | continued lineBreak _ => '\\' :: lineBreak

/-- The characters that the piece denotes. -/
def denoted : StringPiece quote → List Char
  | plain c _ => [c]
  | control _ c _ => [c]
  | null => ['\x00']
  | byte high low => [Char.ofNat (digitsValue 16 [high.val, low.val])]
  | character code _ => [Char.ofNat code.value]
  | pair high low _ _ => [high.join low]
  | lone _ _ => ['\uFFFD']
  | itself c _ => [c]
  | continued _ _ => []

/-- Whether the second piece may stand behind the first one: no digit behind `\0`, and no low
surrogate that is alone behind a high one that is alone. -/
def MayPrecede : StringPiece quote → StringPiece quote → Prop
  | null, plain c _ => isDecimalDigit c = false
  | lone high _, lone low _ => ¬(high.IsHigh ∧ low.IsLow)
  | _, _ => True

instance (p q : StringPiece quote) : Decidable (p.MayPrecede q) := by
  unfold MayPrecede
  split <;> infer_instance

end StringPiece

namespace Scan

variable {α β : Type}

/-! ## Reading on -/

namespace Reads

variable {p : Scan α} {q : α → Scan β} {text middle rest : List Char} {a : α} {b : β}

theorem pure : Reads (Pure.pure a) text a text := fun position => ⟨position, rfl⟩

theorem bind (hp : Reads p text a middle) (hq : Reads (q a) middle b rest) :
    Reads (p >>= q) text b rest := by
  intro position
  obtain ⟨between, hfirst⟩ := hp position
  obtain ⟨stop, hsecond⟩ := hq between
  exact ⟨stop, hfirst.bind hsecond⟩

theorem here {q : Position → Scan β} (h : ∀ position, Reads (q position) text b rest) :
    Reads (Scan.here >>= q) text b rest :=
  fun position => h position position

theorem peek {q : Option Char → Scan β} (h : Reads (q text.head?) text b rest) :
    Reads (Scan.peek >>= q) text b rest := h

theorem peekSecond {q : Option Char → Scan β} (h : Reads (q text.tail.head?) text b rest) :
    Reads (Scan.peekSecond >>= q) text b rest := h

theorem nextIs {p : Char → Bool} {q : Bool → Scan β}
    (h : Reads (q (text.head?.any p)) text b rest) : Reads (Scan.nextIs p >>= q) text b rest := h

theorem advance (x : Char) (rest : List Char) : Reads Scan.advance (x :: rest) x rest :=
  fun _ => ⟨_, rfl⟩

theorem revisit {x : Char} {q : Unit → Scan β} (hx : isLineTerminator x = false)
    (h : Reads (q ()) (x :: text) b rest) : Reads (Scan.revisit >>= q) (x :: text) b rest := by
  intro position
  obtain ⟨stop, hread⟩ := h position
  exact ⟨stop, Returns.bind (revisit_eq hx text position) hread⟩

theorem skip (x : Char) (rest : List Char) : Reads (Scan.skip 1) (x :: rest) () rest :=
  fun _ => ⟨_, rfl⟩

theorem accept (x : Char) (rest : List Char) : Reads (Scan.accept x) (x :: rest) true rest := by
  refine peek ?_
  rw [List.head?_cons, if_pos (beq_self_eq_true (some x))]
  exact (advance x rest).bind pure

theorem declines {x : Char} (h : text.head? ≠ some x) : Reads (Scan.accept x) text false text := by
  refine peek ?_
  rw [if_neg (by simpa using h)]
  exact pure

end Reads

/-! ## Reading escapes -/

theorem scalar?_eq_some {n : Nat} (h : n.isValidChar) : scalar? n = some (Char.ofNat n) := by
  unfold scalar? Char.ofNat
  rw [dif_pos h, dif_pos h]

theorem scalar?_eq_none {n : Nat} (hlow : 0xD800 ≤ n) (hhigh : n ≤ 0xDFFF) : scalar? n = none := by
  unfold scalar?
  rw [dif_neg (by simp only [Nat.isValidChar]; omega)]

theorem le_of_isValidChar {n : Nat} (h : n.isValidChar) : n ≤ 0x10FFFF := by
  simp only [Nat.isValidChar] at h
  omega

theorem isHighSurrogate_iff {n : Nat} : isHighSurrogate n = true ↔ 0xD800 ≤ n ∧ n ≤ 0xDBFF := by
  simp only [isHighSurrogate, Bool.and_eq_true, decide_eq_true_eq]

theorem isLowSurrogate_iff {n : Nat} : isLowSurrogate n = true ↔ 0xDC00 ≤ n ∧ n ≤ 0xDFFF := by
  simp only [isLowSurrogate, Bool.and_eq_true, decide_eq_true_eq]

/-- Two halves of a surrogate pair denote a character. -/
theorem scalar?_joinSurrogates {high low : WrittenCode} (hhigh : high.IsHigh) (hlow : low.IsLow) :
    scalar? (joinSurrogates high.value low.value) = some (high.join low) := by
  obtain ⟨hhigh_ge, hhigh_le⟩ := hhigh
  obtain ⟨hlow_ge, hlow_le⟩ := hlow
  unfold joinSurrogates WrittenCode.join
  apply scalar?_eq_some
  simp only [Nat.isValidChar]
  omega

/-- As many hexadecimal digits as are asked for. -/
theorem reads_hexDigits (bad : Scan Unit) (digits : List HexDigit) (rest : List Char) :
    Reads (hexDigits bad digits.length) (digits.map Subtype.val ++ rest)
      (digits.map Subtype.val) rest := by
  induction digits with
  | nil => exact Reads.pure
  | cons digit digits ih =>
    refine Reads.nextIs ?_
    have hdigit : ((digit :: digits).map Subtype.val ++ rest).head?.any isHexDigit = true :=
      digit.property
    rw [hdigit]
    exact (Reads.advance _ _).bind (ih.bind Reads.pure)

/-- The digits of an escape in braces end at the closing brace. -/
theorem reads_bracedDigits (digits : List HexDigit) (rest : List Char) :
    Reads (takeWhile isHexDigit) (digits.map Subtype.val ++ '\x7d' :: rest)
      (digits.map Subtype.val) ('\x7d' :: rest) := by
  have hdigits : ∀ c ∈ digits.map Subtype.val, isHexDigit c = true := by
    intro c hc
    obtain ⟨digit, -, rfl⟩ := List.mem_map.1 hc
    exact digit.property
  have hread := reads_takeWhile isHexDigit (digits.map Subtype.val ++ '\x7d' :: rest)
  rw [List.takeWhile_append_of_pos hdigits, List.dropWhile_append_of_pos hdigits,
    List.takeWhile_cons_of_neg (by decide), List.dropWhile_cons_of_neg (by decide),
    List.append_nil] at hread
  exact hread

/-- A Unicode escape is read to the number that it writes, whether its backslash has been read
before or not. -/
theorem reads_unicodeEscape {mark : List Char} (hmark : mark = [] ∨ mark = ['\\'])
    (code : WrittenCode) (h : code.value ≤ 0x10FFFF) (rest : List Char) :
    Reads unicodeEscape (mark ++ 'u' :: (code.body ++ rest)) code.value rest := by
  have hbackslash : ∃ b, Reads (accept '\\') (mark ++ 'u' :: (code.body ++ rest)) b
      ('u' :: (code.body ++ rest)) := by
    rcases hmark with rfl | rfl
    · exact ⟨false, Reads.declines (by simp)⟩
    · exact ⟨true, Reads.accept _ _⟩
  obtain ⟨_, hbackslash⟩ := hbackslash
  refine Reads.here fun start => hbackslash.bind ((Reads.accept _ _).bind ?_)
  rw [if_pos rfl]
  have hbounds : Reads (do
      if 0x10FFFF < code.value then fail .codePointOutOfBounds start
      return code.value) rest code.value rest := by
    rw [if_neg (by omega)]
    exact Reads.pure
  cases code with
  | four a b c d =>
    -- The first digit is no brace.
    have hfirst : ((WrittenCode.four a b c d).body ++ rest).head? ≠ some '\x7b' := by
      intro hbrace
      have hdigit := a.property
      rw [Option.some.inj hbrace] at hdigit
      cases hdigit
    exact (Reads.declines hfirst).bind ((reads_hexDigits _ [a, b, c, d] rest).bind hbounds)
  | braced first others =>
    have hbody : (WrittenCode.braced first others).body ++ rest =
        '\x7b' :: ((first :: others).map Subtype.val ++ '\x7d' :: rest) := by
      simp [WrittenCode.body, WrittenCode.digits]
    rw [hbody]
    refine (Reads.accept _ _).bind ((reads_bracedDigits (first :: others) rest).bind ?_)
    exact (Reads.accept _ _).bind hbounds

theorem reads_textUnicodeEscape_character (code : WrittenCode) (h : code.value.isValidChar)
    (rest : List Char) :
    Reads textUnicodeEscape ('u' :: (code.body ++ rest)) (Char.ofNat code.value) rest := by
  refine (reads_unicodeEscape (.inl rfl) code (le_of_isValidChar h) rest).bind ?_
  rw [scalar?_eq_some h]
  exact Reads.pure

/-- Behind a high surrogate a low one completes the pair. -/
theorem reads_textUnicodeEscape_pair {high low : WrittenCode} (hhigh : high.IsHigh)
    (hlow : low.IsLow) (rest : List Char) :
    Reads textUnicodeEscape ('u' :: (high.body ++ (low.text ++ rest))) (high.join low) rest := by
  have hhigh_le : high.value ≤ 0x10FFFF := Nat.le_trans hhigh.2 (by decide)
  have hlow_le : low.value ≤ 0x10FFFF := Nat.le_trans hlow.2 (by decide)
  refine (reads_unicodeEscape (.inl rfl) high hhigh_le _).bind ?_
  rw [scalar?_eq_none hhigh.1 (Nat.le_trans hhigh.2 (by decide))]
  refine Reads.peek (Reads.peekSecond ?_)
  have hsecond : (isHighSurrogate high.value && (low.text ++ rest).head? == some '\\' &&
      (low.text ++ rest).tail.head? == some 'u') = true := by
    rw [isHighSurrogate_iff.2 hhigh]
    rfl
  rw [if_pos hsecond]
  intro position
  obtain ⟨stop, hread⟩ := reads_unicodeEscape (.inr rfl) low hlow_le rest position
  refine ⟨stop, ?_⟩
  change Returns (unicodeEscape >>= _) _ _ _
  refine hread.bind ?_
  rw [if_pos (isLowSurrogate_iff.2 hlow), scalar?_joinSurrogates hhigh hlow, Option.getD_some]
  exact Returns.pure

/-- No escape of a low surrogate stands at the start of the text: it begins with no Unicode escape,
or with that of another number. -/
def BeginsNoLow (text : List Char) : Prop :=
  ¬(text.head? = some '\\' ∧ text.tail.head? = some 'u') ∨
    ∃ (code : WrittenCode) (rest : List Char), text = code.text ++ rest ∧
      code.value ≤ 0x10FFFF ∧ ¬code.IsLow

/-- A surrogate that belongs to no pair is read as the replacement character. What has been read
behind a high one is given back. -/
theorem reads_textUnicodeEscape_lone {code : WrittenCode} (h : code.IsHigh ∨ code.IsLow)
    {rest : List Char} (hrest : code.IsHigh → BeginsNoLow rest) :
    Reads textUnicodeEscape ('u' :: (code.body ++ rest)) '\uFFFD' rest := by
  have hsurrogate : 0xD800 ≤ code.value ∧ code.value ≤ 0xDFFF := by
    rcases h with ⟨hge, hle⟩ | ⟨hge, hle⟩ <;> omega
  refine (reads_unicodeEscape (.inl rfl) code (by omega) _).bind ?_
  rw [scalar?_eq_none hsurrogate.1 hsurrogate.2]
  refine Reads.peek (Reads.peekSecond ?_)
  split
  · next hpair =>
    simp only [Bool.and_eq_true, beq_iff_eq] at hpair
    obtain ⟨⟨hhigh, hbackslash⟩, hmark⟩ := hpair
    rcases hrest (isHighSurrogate_iff.1 hhigh) with hnone | ⟨other, more, rfl, hbound, hlow⟩
    · exact absurd ⟨hbackslash, hmark⟩ hnone
    · intro position
      obtain ⟨stop, hread⟩ := reads_unicodeEscape (.inr rfl) other hbound more position
      refine ⟨position, ?_⟩
      change Returns (unicodeEscape >>= _) _ _ _
      refine hread.bind ?_
      rw [if_neg fun h => hlow (isLowSurrogate_iff.1 h)]
      rfl
  · exact Reads.pure

/-! ## Reading pieces -/

/-- The text behind a piece does not change what the piece denotes. -/
def StandsBefore {quote : Char} (rest : List Char) : StringPiece quote → Prop
  | .null => rest.head?.any isDecimalDigit = false
  | .lone code _ => code.IsHigh → BeginsNoLow rest
  | .continued _ _ => rest.head? ≠ some '\n'
  | _ => True

/-- A character that is no control letter denotes no control character. -/
theorem simpleEscape?_of_escapesItself {c : Char} (h : escapesItself c = true) :
    simpleEscape? c = none := by
  unfold simpleEscape?
  split <;> first | rfl | cases h

/-- A piece is a character that stands for itself, or a backslash behind which is read what the
piece denotes. -/
theorem exists_textEscape {quote : Char} (piece : StringPiece quote) {rest : List Char}
    (hrest : StandsBefore rest piece) (start : Position) :
    (∃ c h, piece = .plain c h) ∨ ∃ x tail, piece.text = '\\' :: x :: tail ∧
      Reads (textEscape x false start) (x :: (tail ++ rest)) piece.denoted rest := by
  have hcode (code : WrittenCode) {more : List Char} {c : Char}
      (h : Reads textUnicodeEscape ('u' :: (code.body ++ more)) c rest) :
      Reads (textEscape 'u' false start) ('u' :: (code.body ++ more)) [c] rest :=
    Reads.revisit rfl (h.bind Reads.pure)
  cases piece with
  | plain c h => exact .inl ⟨c, h, rfl⟩
  | control letter denoted h =>
    have hletter : simpleEscape? letter = some denoted ∧ letter ≠ 'u' := by
      have hall : ∀ p ∈ controlLetters, simpleEscape? p.1 = some p.2 ∧ p.1 ≠ 'u' := by decide
      exact hall _ h
    refine .inr ⟨letter, [], rfl, ?_⟩
    unfold textEscape
    rw [if_neg (by simpa using hletter.2), hletter.1]
    exact (Reads.skip _ _).bind Reads.pure
  | null =>
    refine .inr ⟨'0', [], rfl, (Reads.skip _ _).bind (Reads.nextIs ?_)⟩
    rw [List.nil_append, show rest.head?.any isDecimalDigit = false from hrest]
    exact Reads.pure
  | byte high low =>
    refine .inr ⟨'x', [high.val, low.val], rfl, (Reads.skip _ _).bind (Reads.nextIs ?_)⟩
    have hvalid : (digitsValue 16 [high.val, low.val]).isValidChar := by
      have hhigh := high.value_lt
      have hlow := low.value_lt
      simp only [digitsValue, List.foldl_cons, List.foldl_nil, Nat.isValidChar]
      omega
    refine (reads_hexDigits _ [high, low] rest).bind ?_
    change Reads (Pure.pure (scalar? (digitsValue 16 [high.val, low.val])).toList) _ _ _
    rw [scalar?_eq_some hvalid]
    exact Reads.pure
  | character code h =>
    exact .inr ⟨'u', code.body, rfl, hcode code (reads_textUnicodeEscape_character code h rest)⟩
  | pair high low hhigh hlow =>
    refine .inr ⟨'u', high.body ++ low.text, rfl, ?_⟩
    rw [List.append_assoc]
    exact hcode high (reads_textUnicodeEscape_pair hhigh hlow rest)
  | lone code h =>
    exact .inr ⟨'u', code.body, rfl, hcode code (reads_textUnicodeEscape_lone h hrest)⟩
  | itself c h =>
    refine .inr ⟨c, [], rfl, ?_⟩
    have hnone := simpleEscape?_of_escapesItself h
    simp only [escapesItself, Bool.and_eq_true, bne_iff_ne, Bool.not_eq_true'] at h
    obtain ⟨⟨⟨⟨-, hx⟩, hu⟩, hdigit⟩, hbreak⟩ := h
    have hzero : (c == '0') = false := by
      rw [beq_eq_false_iff_ne]
      rintro rfl
      cases hdigit
    have hreturn : c ≠ '\r' := by
      rintro rfl
      cases hbreak
    unfold textEscape
    rw [if_neg (by simpa using hu), hnone]
    refine (Reads.skip _ _).bind (Reads.nextIs ?_)
    simp only [beq_iff_eq, hzero, hdigit, hx, hreturn, hbreak, Bool.false_and, Bool.false_eq_true,
      if_false]
    exact Reads.pure
  | continued lineBreak h =>
    simp only [continuedBreaks, List.mem_cons, List.not_mem_nil, or_false] at h
    rcases h with rfl | rfl | rfl | rfl | rfl
    · exact .inr ⟨_, _, rfl, (Reads.skip _ _).bind (Reads.nextIs Reads.pure)⟩
    · refine .inr ⟨_, _, rfl, (Reads.skip _ _).bind (Reads.nextIs ?_)⟩
      exact (Reads.declines hrest).bind Reads.pure
    · refine .inr ⟨_, _, rfl, (Reads.skip _ _).bind (Reads.nextIs ?_)⟩
      exact (Reads.accept _ _).bind Reads.pure
    · exact .inr ⟨_, _, rfl, (Reads.skip _ _).bind (Reads.nextIs Reads.pure)⟩
    · exact .inr ⟨_, _, rfl, (Reads.skip _ _).bind (Reads.nextIs Reads.pure)⟩

/-- The loop over a string, some of which has been read before. -/
def stringLoop (quote : Char) (start : Position) (read : List Char) : Scan (List Char) :=
  loop (fun read => do stringStep quote start read (← peek)) read

theorem stringLoop_goesOn (quote : Char) (start : Position) (read : List Char) (c : Cursor) :
    GoesOn (stringLoop quote start read) c :=
  Goes.loopOn (fun read _ => Goes.stringStep quote start read) read

/-- The loop over a string takes a piece and goes on behind it with what the piece denotes. -/
theorem exists_stringLoop_piece {quote : Char} (hquote : quote ≠ '\\')
    (piece : StringPiece quote) {rest : List Char} (hrest : StandsBefore rest piece)
    (start : Position) (read : List Char) (position : Position) :
    ∃ position', stringLoop quote start read ⟨piece.text ++ rest, position⟩ =
      stringLoop quote start (piece.denoted.reverse ++ read) ⟨rest, position'⟩ := by
  have hgoes := stringLoop_goesOn quote start
  rcases exists_textEscape piece hrest start with ⟨c, h, rfl⟩ | ⟨x, tail, htext, hescape⟩
  · obtain ⟨hplain, hbackslash, hfeed, hreturn⟩ := h
    refine ⟨position.past c rest.head?, loop_again hgoes (.peek ?_)⟩
    change Returns (stringStep quote start read (some c)) _ _ _
    have hbreak : ¬(c == '\n' || c == '\r') = true := by simp [hfeed, hreturn]
    rw [stringStep, if_neg (by simpa using hplain), if_neg (by simpa using hbackslash),
      if_neg hbreak]
    exact Returns.skip.bind .pure
  · rw [htext]
    obtain ⟨stop, hread⟩ := hescape (position.past '\\' (some x))
    refine ⟨stop, loop_again hgoes (.peek ?_)⟩
    change Returns (stringStep quote start read (some '\\')) _ _ _
    rw [stringStep, if_neg (by simpa using hquote.symm), if_pos (by rfl)]
    exact Returns.skip.bind (.peek (hread.bind .pure))

/-- The loop over a string ends at the quote. -/
theorem stringLoop_quote (quote : Char) (start : Position) (read rest : List Char)
    (position : Position) :
    Returns (stringLoop quote start read) ⟨quote :: rest, position⟩ read.reverse
      ⟨rest, position.past quote rest.head?⟩ := by
  refine loop_stop (stringLoop_goesOn quote start) (.peek ?_)
  change Returns (stringStep quote start read (some quote)) _ _ _
  rw [stringStep, if_pos (beq_self_eq_true quote)]
  exact Returns.skip.bind .pure

end Scan

namespace StringPiece

variable {quote : Char}

/-- No piece begins with a line feed, and none but a character that stands for itself with a
digit. -/
theorem standsBefore_of_mayPrecede {p q : StringPiece quote} (h : p.MayPrecede q)
    (rest : List Char) : Scan.StandsBefore (q.text ++ rest) p := by
  cases p with
  | null =>
    cases q with
    | plain c hc =>
      have hdigit : isDecimalDigit c = false := h
      simpa [Scan.StandsBefore, text] using hdigit
    | _ => rfl
  | lone code hcode =>
    intro hhigh
    cases q with
    | plain c hc => exact .inl fun hmark => hc.2.1 (Option.some.inj hmark.1)
    | control letter denoted hletter =>
      have hall : ∀ p ∈ controlLetters, p.1 ≠ 'u' := by decide
      exact .inl fun hmark => hall _ hletter (Option.some.inj hmark.2)
    | null => exact .inl fun hmark => absurd hmark.2 (by simp [text])
    | byte high low => exact .inl fun hmark => absurd hmark.2 (by simp [text])
    | character other hvalid =>
      refine .inr ⟨other, rest, rfl, Scan.le_of_isValidChar hvalid, fun hlow => ?_⟩
      have hnone := Scan.scalar?_eq_none (Nat.le_trans (by decide) hlow.1) hlow.2
      rw [Scan.scalar?_eq_some hvalid] at hnone
      cases hnone
    | pair high low hhigh' hlow =>
      refine .inr ⟨high, low.text ++ rest, List.append_assoc _ _ _, ?_, fun hboth => ?_⟩
      · exact Nat.le_trans hhigh'.2 (by decide)
      · have hle := hhigh'.2
        have hge := hboth.1
        omega
    | lone other hother =>
      refine .inr ⟨other, rest, rfl, ?_, fun hlow => h ⟨hhigh, hlow⟩⟩
      rcases hother with hother | hother
      · exact Nat.le_trans hother.2 (by decide)
      · exact Nat.le_trans hother.2 (by decide)
    | itself c hc =>
      refine .inl fun hmark => ?_
      obtain rfl : c = 'u' := Option.some.inj hmark.2
      cases hc
    | continued lineBreak hbreak =>
      have hall : ∀ b ∈ continuedBreaks, ∀ more : List Char, (b ++ more).head? ≠ some 'u' := by
        simp [continuedBreaks]
      exact .inl fun hmark => hall _ hbreak rest hmark.2
  | continued lineBreak hbreak =>
    cases q with
    | plain c hc => exact fun hfeed => hc.2.2.1 (Option.some.inj hfeed)
    | _ => exact fun hfeed => absurd (Option.some.inj hfeed) (by decide)
  | _ => trivial

/-- A closing quote goes on with no piece. -/
theorem standsBefore_quote (hquote : quote = '"' ∨ quote = '\'') (p : StringPiece quote)
    (rest : List Char) : Scan.StandsBefore (quote :: rest) p := by
  have hplain : isDecimalDigit quote = false ∧ quote ≠ '\\' ∧ quote ≠ '\n' := by
    rcases hquote with rfl | rfl <;> decide
  cases p with
  | null => exact hplain.1
  | lone code hcode => exact fun _ => .inl fun hmark => hplain.2.1 (Option.some.inj hmark.1)
  | continued lineBreak hbreak => exact fun hfeed => hplain.2.2 (Option.some.inj hfeed)
  | _ => trivial

end StringPiece

namespace Scan

variable {quote : Char} {pieces : List (StringPiece quote)}

/-- The loop over a string reads its pieces up to the closing quote. -/
theorem exists_stringLoop (hquote : quote = '"' ∨ quote = '\'')
    (hpieces : pieces.IsChain StringPiece.MayPrecede) (start : Position) (rest read : List Char)
    (position : Position) :
    ∃ stop, Returns (stringLoop quote start read)
      ⟨pieces.flatMap StringPiece.text ++ quote :: rest, position⟩
      (read.reverse ++ pieces.flatMap StringPiece.denoted) ⟨rest, stop⟩ := by
  have hbackslash : quote ≠ '\\' := by
    rcases hquote with rfl | rfl <;> decide
  induction pieces generalizing read position with
  | nil =>
    rw [List.flatMap_nil, List.flatMap_nil, List.append_nil]
    exact ⟨_, stringLoop_quote quote start read rest position⟩
  | cons piece pieces ih =>
    have hstands : StandsBefore (pieces.flatMap StringPiece.text ++ quote :: rest) piece := by
      cases pieces with
      | nil => exact piece.standsBefore_quote hquote rest
      | cons next pieces =>
        rw [List.flatMap_cons, List.append_assoc]
        exact StringPiece.standsBefore_of_mayPrecede (List.isChain_cons_cons.1 hpieces).1 _
    obtain ⟨middle, hpiece⟩ := exists_stringLoop_piece hbackslash piece hstands start read position
    obtain ⟨stop, hrest⟩ := ih hpieces.tail (piece.denoted.reverse ++ read) middle
    refine ⟨stop, ?_⟩
    rw [List.flatMap_cons, List.flatMap_cons, List.append_assoc, Returns, hpiece]
    rwa [List.reverse_append, List.reverse_reverse, List.append_assoc] at hrest

theorem reads_stringLiteral (hquote : quote = '"' ∨ quote = '\'')
    (hpieces : pieces.IsChain StringPiece.MayPrecede) (start : Position) (rest : List Char) :
    Reads (stringLiteral quote start) (pieces.flatMap StringPiece.text ++ quote :: rest)
      (.string (String.ofList (pieces.flatMap StringPiece.denoted))) rest := by
  intro position
  obtain ⟨stop, hloop⟩ := exists_stringLoop hquote hpieces start rest [] position
  refine ⟨stop, ?_⟩
  rw [stringLiteral_eq]
  exact Returns.bind hloop .pure

/-- A quote begins a string literal. -/
theorem token_quote {rules : List TokenRule} (hquote : quote = '"' ∨ quote = '\'')
    (hrules : ∀ rule ∈ rules, rule quote = pure none) (rest : List Char) (position : Position) :
    token rules ⟨quote :: rest, position⟩ =
      stringLiteral quote position ⟨rest, position.past quote rest.head?⟩ := by
  rw [token_eq_languageToken hrules, languageToken_eq]
  rcases hquote with rfl | rfl
  · rfl
  · rfl

end Scan

namespace Lexing

variable {quote : Char}

/-- A lexer in front of a string literal takes the whole literal, and it is the text that its pieces
denote. -/
theorem next_stringLiteral (hquote : quote = '"' ∨ quote = '\'') (pieces : List (StringPiece quote))
    (hpieces : pieces.IsChain StringPiece.MayPrecede) (following : List Char) (lexer : Lexer)
    (hnone : lexer.lookahead = none) (hrules : ∀ rule ∈ lexer.rules, rule quote = pure none)
    (hrest : lexer.cursor.rest =
      quote :: (pieces.flatMap StringPiece.text ++ quote :: following)) :
    ∃ stop,
      next lexer = .ok (.string (String.ofList (pieces.flatMap StringPiece.denoted)))
        { lexer with
          cursor := ⟨following, stop⟩
          lastSpan := ⟨lexer.cursor.position, stop⟩ } ∧
      stop.offset =
        lexer.cursor.position.offset + (pieces.flatMap StringPiece.text).length + 2 := by
  obtain ⟨⟨⟨rest, position⟩, held, lastSpan⟩, source, rules⟩ := lexer
  cases hnone
  cases hrest
  obtain ⟨stop, hliteral⟩ := Scan.reads_stringLiteral hquote hpieces position following
    (position.past quote (pieces.flatMap StringPiece.text ++ quote :: following).head?)
  have htoken := (Scan.token_quote hquote hrules _ position).trans hliteral
  have hopens : opensTrivia (quote :: (pieces.flatMap StringPiece.text ++ quote :: following)) =
      false := by
    rcases hquote with rfl | rfl <;> rfl
  refine ⟨stop, next_of_returns rfl (Scan.skipTrivia_stop hopens position) htoken, ?_⟩
  have htotal := ((Scan.Goes.stringLiteral quote position).of_ok hliteral).1.total_eq
  simp only [List.length_append, List.length_cons, Position.past_offset] at htotal ⊢
  omega

/-- A surrogate that is alone, a pair, and each other kind of piece between them. -/
def mixedPieces : List (StringPiece '"') :=
  let high : WrittenCode := .four ⟨'d', rfl⟩ ⟨'8', rfl⟩ ⟨'3', rfl⟩ ⟨'D', rfl⟩
  let low : WrittenCode := .braced ⟨'0', rfl⟩ [⟨'D', rfl⟩, ⟨'e', rfl⟩, ⟨'0', rfl⟩, ⟨'0', rfl⟩]
  [.lone high (.inl (by decide)), .pair high low (by decide) (by decide), .plain '\'' (by decide),
    .control 'n' '\n' (by decide), .lone low (.inr (by decide)), .continued ['\r', '\n'] (by decide),
    .byte ⟨'4', rfl⟩ ⟨'1', rfl⟩, .character (.braced ⟨'6', rfl⟩ [⟨'2', rfl⟩]) (by decide),
    .itself '"' (by decide), .null]

theorem next_stringLiteral_mixedPieces : ∃ stop,
    next (.ofSource (String.ofList ('"' :: (mixedPieces.flatMap StringPiece.text ++ ['"', '+'])))
      [.privateName]) =
      .ok (.string (String.ofList
          ['\uFFFD', Char.ofNat 0x1F600, '\'', '\n', '\uFFFD', 'A', 'b', '"', '\x00']))
        { source := '"' :: (mixedPieces.flatMap StringPiece.text ++ ['"', '+'])
          rules := [.privateName]
          cursor := ⟨['+'], stop⟩
          lookahead := none
          lastSpan := ⟨.start, stop⟩ } ∧
      stop.offset = 52 := by
  have hdenoted : mixedPieces.flatMap StringPiece.denoted =
      ['\uFFFD', Char.ofNat 0x1F600, '\'', '\n', '\uFFFD', 'A', 'b', '"', '\x00'] := by decide
  have hlength : (mixedPieces.flatMap StringPiece.text).length = 50 := by decide
  have hinitial (rest : List Char) :
      Lexer.ofSource (String.ofList ('"' :: rest)) [.privateName] =
        { source := '"' :: rest
          rules := [.privateName]
          cursor := ⟨'"' :: rest, .start⟩
          lookahead := none
          lastSpan := ⟨.start, .start⟩ } := by
    rw [Lexer.ofSource, String.toList_ofList]
    rfl
  have hread := next_stringLiteral (.inl rfl) mixedPieces (by decide) ['+'] _ rfl
    (by
      intro rule hrule
      rw [List.mem_singleton.1 hrule]
      rfl)
    (congrArg (fun lexer : Lexer => lexer.cursor.rest) (hinitial _))
  rw [hdenoted, hlength, hinitial] at hread
  exact hread

end Lexing

end EcmaScript
