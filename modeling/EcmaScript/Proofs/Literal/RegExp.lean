import EcmaScript.Proofs.Scan
import EcmaScript.Proofs.Session

/-!
Where a regular expression ends.

The text behind an opening slash is looked at as it stands: a backslash that is not escaped itself
escapes the character behind it, and a class reaches from an opening bracket to the next closing
one, both not escaped. The expression closes at the first slash that is neither escaped nor in a
class and has no line terminator in front of it (`ClosesAt`). A slash that has been consumed, alone
or with an equals sign, is read again as a regular expression exactly if there is such a slash.
-/

namespace EcmaScript

/-! ## Texts behind a slash -/

section

variable (text : List Char)

/-- A backslash that is not escaped itself stands in front of the place. -/
def Escaped : Nat → Prop
  | 0 => False
  | n + 1 => text[n]? = some '\\' ∧ ¬Escaped n

/-- A bracket that opens a class stands in front of the place, and none that closes it between
them. -/
def InClass (n : Nat) : Prop :=
  ∃ i < n, text[i]? = some '[' ∧ ¬Escaped text i ∧
    ∀ j < n, i < j → text[j]? = some ']' → Escaped text j

/-- A regular expression may end with the slash at the place. -/
structure ClosesAt (n : Nat) : Prop where
  slash : text[n]? = some '/'
  unescaped : ¬Escaped text n
  outside : ¬InClass text n
  line : ∀ c ∈ text.take n, isLineTerminator c = false

/-- The regular expression ends with the slash at the place. -/
structure EndsAt (n : Nat) : Prop extends ClosesAt text n where
  first : ∀ m < n, ¬ClosesAt text m

instance Escaped.decidable : (n : Nat) → Decidable (Escaped text n)
  | 0 => isFalse id
  | n + 1 => @instDecidableAnd _ _ _ (@instDecidableNot _ (decidable n))

theorem not_inClass_zero : ¬InClass text 0 := fun ⟨_, hi, _⟩ => absurd hi (Nat.not_lt_zero _)

/-- A class is open behind a place if one opens there, or one is open there that is not closed. -/
theorem inClass_succ_iff {n : Nat} : InClass text (n + 1) ↔ text[n]? = some '[' ∧ ¬Escaped text n ∨
    InClass text n ∧ (text[n]? = some ']' → Escaped text n) := by
  constructor
  · rintro ⟨i, hi, hopen, hplain, hstays⟩
    rcases Nat.lt_succ_iff_lt_or_eq.1 hi with hlt | rfl
    · exact .inr ⟨⟨i, hlt, hopen, hplain, fun j hjn hij => hstays j (by omega) hij⟩,
        hstays n (by omega) hlt⟩
    · exact .inl ⟨hopen, hplain⟩
  · rintro (⟨hopen, hplain⟩ | ⟨⟨i, hi, hopen, hplain, hstays⟩, hclose⟩)
    · exact ⟨n, by omega, hopen, hplain, fun j hjn hij => by omega⟩
    · refine ⟨i, by omega, hopen, hplain, fun j hjn hij => ?_⟩
      rcases Nat.lt_succ_iff_lt_or_eq.1 hjn with hlt | rfl
      · exact hstays j hlt hij
      · exact hclose

instance InClass.decidable : (n : Nat) → Decidable (InClass text n)
  | 0 => isFalse (not_inClass_zero text)
  | n + 1 =>
    have := decidable n
    decidable_of_iff _ (inClass_succ_iff text).symm

instance (n : Nat) : Decidable (ClosesAt text n) :=
  have : Decidable (∀ c ∈ text.take n, isLineTerminator c = false) := List.decidableBAll _ _
  decidable_of_iff (text[n]? = some '/' ∧ ¬Escaped text n ∧ ¬InClass text n ∧
      ∀ c ∈ text.take n, isLineTerminator c = false)
    ⟨fun ⟨hslash, hplain, houtside, hline⟩ => ⟨hslash, hplain, houtside, hline⟩,
      fun h => ⟨h.slash, h.unescaped, h.outside, h.line⟩⟩

instance (n : Nat) : Decidable (EndsAt text n) :=
  decidable_of_iff (ClosesAt text n ∧ ∀ m < n, ¬ClosesAt text m)
    ⟨fun ⟨hcloses, hfirst⟩ => ⟨hcloses, hfirst⟩, fun h => ⟨h.toClosesAt, h.first⟩⟩

end

section

variable {text : List Char} {n : Nat}

theorem EndsAt.unique {m : Nat} (hm : EndsAt text m) (hn : EndsAt text n) : m = n := by
  rcases Nat.lt_trichotomy m n with hlt | heq | hgt
  · exact absurd hm.toClosesAt (hn.first m hlt)
  · exact heq
  · exact absurd hn.toClosesAt (hm.first n hgt)

/-- What is escaped neither opens nor closes a class. -/
theorem inClass_succ_of_escaped (h : Escaped text n) :
    InClass text (n + 1) ↔ InClass text n := by
  rw [inClass_succ_iff]
  simp [h]

/-- No regular expression ends behind a line terminator. -/
theorem not_closesAt_of_lineTerminator {c : Char} (hc : text[n]? = some c)
    (hline : isLineTerminator c = true) {m : Nat} (h : n ≤ m) : ¬ClosesAt text m := by
  intro hcloses
  rcases Nat.lt_or_eq_of_le h with hlt | rfl
  · have hmem : c ∈ text.take m :=
      List.mem_of_getElem? (i := n) (by rw [List.getElem?_take_of_lt hlt, hc])
    rw [hcloses.line c hmem] at hline
    cases hline
  · cases hc.symm.trans hcloses.slash
    cases hline

end

namespace Scan

variable {text rest : List Char} {state : PatternRead} {start position : Position} {x : Char}

/-! ## Reading a pattern -/

/-- What has been read of the text, no slash of which closes it, and what is left. -/
structure PatternRead.StandsIn (text rest : List Char) (state : PatternRead) : Prop where
  text_eq : text = state.read.reverse ++ rest
  plain : ¬Escaped text state.read.length
  inClass : state.inClass = true ↔ InClass text state.read.length
  line : ∀ c ∈ state.read, isLineTerminator c = false
  goesOn : ∀ m < state.read.length, ¬ClosesAt text m

namespace PatternRead.StandsIn

theorem getElem?_eq (h : state.StandsIn text rest) (k : Nat) :
    text[state.read.length + k]? = rest[k]? := by
  rw [h.text_eq, List.getElem?_append_right (by rw [List.length_reverse]; omega),
    List.length_reverse, Nat.add_sub_cancel_left]

theorem take_eq (h : state.StandsIn text rest) :
    text.take state.read.length = state.read.reverse := by
  rw [h.text_eq, ← List.length_reverse, List.take_left]

theorem drop_eq (h : state.StandsIn text (x :: rest)) : text.drop (state.read.length + 1) = rest := by
  rw [h.text_eq, List.append_cons, ← List.length_reverse]
  exact List.drop_left' (by simp)

/-- Where the text or its line ends, no slash closes it any more. -/
theorem not_closesAt (h : state.StandsIn text rest) {k : Nat}
    (hread : ∀ m < k, rest[m]? ≠ some '/')
    (hend : (rest.drop k).head?.any (!isLineTerminator ·) = false) (n : Nat) :
    ¬ClosesAt text n := by
  intro hcloses
  rcases Nat.lt_or_ge n state.read.length with hlt | hge
  · exact h.goesOn n hlt hcloses
  obtain ⟨m, rfl⟩ := Nat.exists_eq_add_of_le hge
  have hslash := hcloses.slash
  rw [h.getElem?_eq] at hslash
  rcases Nat.lt_or_ge m k with hlt | hge
  · exact hread m hlt hslash
  rw [List.head?_drop] at hend
  cases hnext : rest[k]? with
  | none =>
    have hlength := List.getElem?_eq_none_iff.1 hnext
    rw [List.getElem?_eq_none (by omega)] at hslash
    cases hslash
  | some c =>
    rw [hnext] at hend
    have hc : isLineTerminator c = true := by simpa using hend
    refine not_closesAt_of_lineTerminator (n := state.read.length + k) ?_ hc (by omega) hcloses
    rw [h.getElem?_eq, hnext]

/-- A character that neither escapes nor closes is read. -/
theorem step (h : state.StandsIn text (x :: rest)) (hline : isLineTerminator x = false)
    (hbackslash : x ≠ '\\') (hslash : x = '/' → state.inClass = true) :
    (PatternRead.mk (x :: state.read)
      (if x == '[' then true else if x == ']' then false else state.inClass)).StandsIn text rest := by
  have hx : text[state.read.length]? = some x := h.getElem?_eq 0
  refine ⟨?_, ?_, ?_, ?_, ?_⟩
  · simpa using h.text_eq
  · rintro ⟨hmark, -⟩
    rw [hx] at hmark
    exact hbackslash (Option.some.inj hmark)
  · rw [List.length_cons, inClass_succ_iff, hx, ← h.inClass]
    by_cases hopen : x = '['
    · simp [hopen, h.plain]
    · by_cases hclose : x = ']'
      · simp [hclose, h.plain]
      · simp [hopen, hclose]
  · rintro c (_ | ⟨_, hc⟩)
    · exact hline
    · exact h.line c hc
  · intro m hm hcloses
    rcases Nat.lt_succ_iff_lt_or_eq.1 hm with hlt | rfl
    · exact h.goesOn m hlt hcloses
    · cases hx.symm.trans hcloses.slash
      exact hcloses.outside (h.inClass.1 (hslash rfl))

/-- An escaped character is read with the backslash in front of it. -/
theorem escape {y : Char} (h : state.StandsIn text ('\\' :: y :: rest))
    (hline : isLineTerminator y = false) :
    (PatternRead.mk (y :: '\\' :: state.read) state.inClass).StandsIn text rest := by
  have hbackslash : text[state.read.length]? = some '\\' := h.getElem?_eq 0
  have hescaped : Escaped text (state.read.length + 1) := ⟨hbackslash, h.plain⟩
  refine ⟨?_, ?_, ?_, ?_, ?_⟩
  · simpa using h.text_eq
  · exact fun hplain => hplain.2 hescaped
  · rw [List.length_cons, List.length_cons, inClass_succ_of_escaped hescaped, inClass_succ_iff,
      hbackslash, ← h.inClass]
    simp
  · rintro c (_ | ⟨_, _ | ⟨_, hc⟩⟩)
    · exact hline
    · rfl
    · exact h.line c hc
  · intro m hm hcloses
    simp only [List.length_cons] at hm
    rcases Nat.lt_trichotomy m state.read.length with hlt | rfl | hgt
    · exact h.goesOn m hlt hcloses
    · cases hbackslash.symm.trans hcloses.slash
    · obtain rfl : m = state.read.length + 1 := by omega
      exact hcloses.unescaped hescaped

/-- A slash outside of classes closes the text. -/
theorem endsAt (h : state.StandsIn text ('/' :: rest)) (hclass : state.inClass = false) :
    EndsAt text state.read.length := by
  refine ⟨⟨h.getElem?_eq 0, h.plain, ?_, ?_⟩, h.goesOn⟩
  · rw [← h.inClass, hclass]
    exact Bool.false_ne_true
  · rw [h.take_eq]
    exact fun c hc => h.line c (List.mem_reverse.1 hc)

end PatternRead.StandsIn

/-- The loop over a pattern, some of which has been read before. -/
def patternLoop (start : Position) (state : PatternRead) : Scan (List Char) :=
  loop (patternStep start) state

theorem patternLoop_goesOn (start : Position) (state : PatternRead) (c : Cursor) :
    GoesOn (patternLoop start state) c :=
  Goes.loopOn (fun state _ => Goes.patternStep start state) state

/-- A pattern does not go on behind its line. -/
theorem patternLoop_stuck (start position : Position) (state : PatternRead)
    (hend : rest.head?.any (!isLineTerminator ·) = false) :
    ∃ e c, patternLoop start state ⟨rest, position⟩ = .error e c := by
  refine ⟨.error (.located (.scan .unterminatedRegExp) start), ⟨rest, position⟩, ?_⟩
  rw [patternLoop, loop_eq (patternLoop_goesOn start)]
  have hround : patternStep start state ⟨rest, position⟩ =
      .error (.error (.located (.scan .unterminatedRegExp) start)) ⟨rest, position⟩ := by
    change (if rest.head?.any (!isLineTerminator ·) = true then _ else _ : Scan _) _ = _
    rw [hend]
    rfl
  rw [hround]

theorem patternStep_cons (hline : isLineTerminator x = false) (rest : List Char)
    (position : Position) : patternStep start state ⟨x :: rest, position⟩ =
      patternTake state x ⟨rest, position.past x rest.head?⟩ := by
  change (if (!isLineTerminator x) = true then _ else _ : Scan _) _ = _
  rw [hline]
  rfl

theorem patternLoop_again {next : PatternRead} {c : Cursor} (hline : isLineTerminator x = false)
    (h : Returns (patternTake state x) ⟨rest, position.past x rest.head?⟩ (.again next) c) :
    patternLoop start state ⟨x :: rest, position⟩ = patternLoop start next c :=
  loop_again (patternLoop_goesOn start) ((patternStep_cons hline rest position).trans h)

/-- The loop takes an escaped character with its backslash. -/
theorem exists_patternLoop_escape (start position : Position) (state : PatternRead) {y : Char}
    (hline : isLineTerminator y = false) (rest : List Char) :
    ∃ stop, patternLoop start state ⟨'\\' :: y :: rest, position⟩ =
      patternLoop start ⟨y :: '\\' :: state.read, state.inClass⟩ ⟨rest, stop⟩ := by
  have htake {position : Position} : Returns (patternTake state '\\') ⟨y :: rest, position⟩
      (.again ⟨y :: '\\' :: state.read, state.inClass⟩) ⟨rest, position.past y rest.head?⟩ := by
    rw [patternTake, if_pos (beq_self_eq_true _)]
    refine .nextIs ?_
    rw [List.head?_cons, Option.any_some, hline]
    exact Returns.advance.bind .pure
  exact ⟨_, patternLoop_again rfl htake⟩

/-- The loop takes a backslash at the end of a line alone. -/
theorem exists_patternLoop_backslash (start position : Position) (state : PatternRead)
    (hend : rest.head?.any (!isLineTerminator ·) = false) :
    ∃ stop, patternLoop start state ⟨'\\' :: rest, position⟩ =
      patternLoop start ⟨'\\' :: state.read, state.inClass⟩ ⟨rest, stop⟩ := by
  have htake {position : Position} : Returns (patternTake state '\\') ⟨rest, position⟩
      (.again ⟨'\\' :: state.read, state.inClass⟩) ⟨rest, position⟩ := by
    rw [patternTake, if_pos (beq_self_eq_true _)]
    refine .nextIs ?_
    rw [hend]
    exact .pure
  exact ⟨_, patternLoop_again rfl htake⟩

/-- The loop stops at a slash outside of classes. -/
theorem exists_patternLoop_slash (start position : Position) {state : PatternRead}
    (hclass : state.inClass = false) (rest : List Char) :
    ∃ stop, Returns (patternLoop start state) ⟨'/' :: rest, position⟩ state.read.reverse
      ⟨rest, stop⟩ := by
  have htake {position : Position} : Returns (patternTake state '/') ⟨rest, position⟩
      (.stop state.read.reverse) ⟨rest, position⟩ := by
    rw [patternTake, if_neg (by decide), hclass, if_pos (by decide)]
    exact .pure
  exact ⟨_, loop_stop (patternLoop_goesOn start) ((patternStep_cons rfl rest position).trans htake)⟩

/-- The loop takes any other character, which may open or close a class. -/
theorem exists_patternLoop_step (start position : Position) {state : PatternRead}
    (hline : isLineTerminator x = false) (hbackslash : x ≠ '\\')
    (hslash : x = '/' → state.inClass = true) (rest : List Char) :
    ∃ stop, patternLoop start state ⟨x :: rest, position⟩ =
      patternLoop start ⟨x :: state.read,
        if x == '[' then true else if x == ']' then false else state.inClass⟩ ⟨rest, stop⟩ := by
  have htake {position : Position} : Returns (patternTake state x) ⟨rest, position⟩
      (.again ⟨x :: state.read,
        if x == '[' then true else if x == ']' then false else state.inClass⟩)
      ⟨rest, position⟩ := by
    rw [patternTake, if_neg (by simpa using hbackslash), if_neg (by simpa using hslash)]
    exact .pure
  exact ⟨_, patternLoop_again hline htake⟩

/-- The loop over a pattern ends at the slash that closes the text, and fails if there is none. -/
theorem exists_patternLoop (start position : Position) (h : state.StandsIn text rest) :
    (∃ n stop, EndsAt text n ∧ Returns (patternLoop start state) ⟨rest, position⟩ (text.take n)
        ⟨text.drop (n + 1), stop⟩) ∨
      (∀ n, ¬ClosesAt text n) ∧
        ∃ e c, patternLoop start state ⟨rest, position⟩ = .error e c := by
  induction hlength : rest.length using Nat.strongRecOn generalizing rest state position with
  | _ n ih =>
  subst hlength
  by_cases hend : rest.head?.any (!isLineTerminator ·) = false
  · exact .inr ⟨h.not_closesAt (k := 0) nofun hend, patternLoop_stuck start position state hend⟩
  obtain ⟨x, rest, rfl⟩ : ∃ x tail, rest = x :: tail := by
    cases rest with
    | nil => exact absurd rfl hend
    | cons x rest => exact ⟨x, rest, rfl⟩
  have hline : isLineTerminator x = false := by simpa using hend
  by_cases hbackslash : x = '\\'
  · subst hbackslash
    by_cases hmore : rest.head?.any (!isLineTerminator ·) = false
    · obtain ⟨stop, hagain⟩ := exists_patternLoop_backslash start position state hmore
      have hnone : ∀ m < 1, ('\\' :: rest)[m]? ≠ some '/' := by
        intro m hm
        obtain rfl : m = 0 := by omega
        simp
      rw [hagain]
      exact .inr ⟨h.not_closesAt hnone hmore, patternLoop_stuck _ _ _ hmore⟩
    · obtain ⟨y, rest, rfl⟩ : ∃ y tail, rest = y :: tail := by
        cases rest with
        | nil => exact absurd rfl hmore
        | cons y rest => exact ⟨y, rest, rfl⟩
      have hy : isLineTerminator y = false := by simpa using hmore
      obtain ⟨stop, hagain⟩ := exists_patternLoop_escape start position state hy rest
      simp only [Returns, hagain]
      exact ih rest.length (by simp only [List.length_cons]; omega) stop (h.escape hy) rfl
  · by_cases hcloses : x = '/' ∧ state.inClass = false
    · obtain ⟨rfl, hclass⟩ := hcloses
      obtain ⟨stop, hstop⟩ := exists_patternLoop_slash start position hclass rest
      refine .inl ⟨state.read.length, stop, h.endsAt hclass, ?_⟩
      rw [h.take_eq, h.drop_eq]
      exact hstop
    · have hslash : x = '/' → state.inClass = true := by simpa using hcloses
      obtain ⟨stop, hagain⟩ := exists_patternLoop_step start position hline hbackslash hslash
        rest
      simp only [Returns, hagain]
      exact ih rest.length (by simp) stop (h.step hline hbackslash hslash) rfl

/-- A regular expression is read to the slash that closes the text and on through its flags. -/
theorem exists_regExp (text : List Char) (start position : Position) :
    (∃ n stop, EndsAt text n ∧ Returns (regExp start) ⟨text, position⟩
        (.regExp (String.ofList (text.take n))
          (String.ofList ((text.drop (n + 1)).takeWhile isIdContinue)))
        ⟨(text.drop (n + 1)).dropWhile isIdContinue, stop⟩) ∨
      (∀ n, ¬ClosesAt text n) ∧ ∃ e c, regExp start ⟨text, position⟩ = .error e c := by
  have hinitial : PatternRead.StandsIn text text {} :=
    ⟨rfl, id, ⟨nofun, fun h => absurd h (not_inClass_zero text)⟩, nofun, nofun⟩
  rcases exists_patternLoop start position hinitial with
    ⟨n, middle, hends, hpattern⟩ | ⟨hnone, e, c, hpattern⟩
  · obtain ⟨stop, hflags⟩ := reads_takeWhile isIdContinue (text.drop (n + 1)) middle
    exact .inl ⟨n, stop, hends, Returns.bind hpattern (hflags.bind .pure)⟩
  · refine .inr ⟨hnone, e, c, ?_⟩
    change (patternLoop start {} >>= _) _ = _
    simp only [Bind.bind, EStateM.bind, hpattern]

end Scan

/-! ## Slashes of a source -/

namespace Lexing

variable {source : List Char} {lexer : Lexer}

/-- What is read again behind the last token, which starts with a slash. -/
theorem exists_rescanRegExp (hfits : lexer.Fits source)
    (hslash : ['/'] <+: source.drop lexer.lastSpan.start.offset) :
    let text := source.drop (lexer.lastSpan.start.offset + 1)
    (∃ n lexer', EndsAt text n ∧
        rescanRegExp lexer = .ok (.regExp (String.ofList (text.take n))
          (String.ofList ((text.drop (n + 1)).takeWhile isIdContinue))) lexer' ∧
        lexer'.lastSpan.start = lexer.lastSpan.start ∧
        source.extract lexer'.lastSpan.start.offset lexer'.lastSpan.stop.offset =
          '/' :: (text.take n ++ '/' :: (text.drop (n + 1)).takeWhile isIdContinue)) ∨
      (∀ n, ¬ClosesAt text n) ∧ ∃ e lexer', rescanRegExp lexer = .error e lexer' := by
  intro text
  have hbehind : cursorBehind lexer.source lexer.lastSpan.start =
      ⟨text, ⟨lexer.lastSpan.start.line, lexer.lastSpan.start.column + 1,
        lexer.lastSpan.start.offset + 1⟩⟩ := by
    rw [hfits.source_eq]
    rfl
  have hrescan : rescanRegExp lexer = rescan (fun start => do
      set (cursorBehind lexer.source start)
      Scan.regExp start) lexer := rfl
  rcases Scan.exists_regExp text lexer.lastSpan.start _ with
    ⟨n, stop, hends, hregExp⟩ | ⟨hnone, e, c, hregExp⟩
  · rw [← hbehind] at hregExp
    refine .inl ⟨n, _, hends, hrescan.trans (rescan_of_ok hregExp), rfl, ?_⟩
    have htotal := ((Scan.Goes.regExp lexer.lastSpan.start).of_ok hregExp).1.total_eq
    rw [hbehind] at htotal
    have hsource : source.drop lexer.lastSpan.start.offset = '/' :: text := by
      obtain ⟨tail, htail⟩ := hslash
      have hdrop := congrArg (List.drop 1) htail
      rw [List.drop_drop] at hdrop
      rw [← htail]
      exact congrArg (List.cons '/') hdrop
    -- What is read tells the pattern, the closing slash and the flags.
    have htext : text = (text.take n ++ '/' :: (text.drop (n + 1)).takeWhile isIdContinue) ++
        (text.drop (n + 1)).dropWhile isIdContinue := by
      obtain ⟨hn, hclose⟩ := List.getElem?_eq_some_iff.1 hends.slash
      rw [List.append_assoc, List.cons_append, List.takeWhile_append_dropWhile, ← hclose,
        ← List.drop_eq_getElem_cons hn, List.take_append_drop]
    have hlength := congrArg List.length htext
    rw [List.length_append] at hlength
    have hcount : stop.offset - lexer.lastSpan.start.offset =
        (text.take n ++ '/' :: (text.drop (n + 1)).takeWhile isIdContinue).length + 1 := by
      dsimp only at htotal
      omega
    rw [List.extract_eq_take_drop, hsource, hcount, List.take_succ_cons]
    exact congrArg (List.cons '/') (List.prefix_iff_eq_take.1 ⟨_, htext.symm⟩).symm
  · rw [← hbehind] at hregExp
    exact .inr ⟨hnone, e, _, hrescan.trans (rescan_of_error hregExp)⟩

end Lexing

namespace Session

/-- A slash that has just been consumed, alone or with an equals sign, is read again as a regular
expression exactly if some slash behind it closes the expression. The first one does: up to it
reaches the pattern, behind it stand the flags, and all of this is what the source holds in the span
of the token. -/
theorem rescanRegExp_of_next (source : String) {rules : List TokenRule}
    (hrules : ∀ rule ∈ rules, rule.IsSigil) (calls : List LexerCall) {symbol : Punctuator}
    (hsymbol : symbol = .slash ∨ symbol = .slashEq) {lexer : Lexer}
    (hnext : Lexing.next ((start source rules).afterAll calls).lexer =
      .ok (.punctuator symbol) lexer) :
    let text := source.toList.drop (lexer.lastSpan.start.offset + 1)
    ((∃ token lexer', Lexing.rescanRegExp lexer = .ok token lexer') ↔ ∃ n, ClosesAt text n) ∧
      ∀ n, EndsAt text n → ∃ lexer',
        Lexing.rescanRegExp lexer = .ok (.regExp (String.ofList (text.take n))
          (String.ofList ((text.drop (n + 1)).takeWhile isIdContinue))) lexer' ∧
        lexer'.lastSpan.start = lexer.lastSpan.start ∧
        source.toList.extract lexer'.lastSpan.start.offset lexer'.lastSpan.stop.offset =
          '/' :: (text.take n ++ '/' :: (text.drop (n + 1)).takeWhile isIdContinue) := by
  intro text
  have hsession : ((start source rules).afterAll calls).Fits source.toList :=
    afterAll_fits calls (start_fits source hrules)
  obtain ⟨hfits, hspelled⟩ := (Lexing.next_fits hsession.lexer).of_ok hnext
  have hslash : ['/'] <+: source.toList.drop lexer.lastSpan.start.offset := by
    have hprefix : ['/'] <+: symbol.spelling.toList := by
      rcases hsymbol with rfl | rfl <;> decide
    exact hprefix.trans hspelled.begins
  rcases Lexing.exists_rescanRegExp hfits hslash with
    ⟨n, lexer', hends, hresult⟩ | ⟨hnone, e, lexer', hresult⟩
  · refine ⟨⟨fun _ => ⟨n, hends.toClosesAt⟩, fun _ => ⟨_, lexer', hresult.1⟩⟩, fun m hm => ?_⟩
    obtain rfl : m = n := hm.unique hends
    exact ⟨lexer', hresult⟩
  · refine ⟨⟨?_, fun ⟨n, hn⟩ => absurd hn (hnone n)⟩, fun n hn => absurd hn.toClosesAt (hnone n)⟩
    rintro ⟨token, behind, hread⟩
    cases hresult.symm.trans hread

/-- A slash in a class and an escaped one stay in the pattern. -/
theorem rescanRegExp_of_next_slashEq :
    ∃ lexer, Lexing.next ((start "/=[/]\\//gi;" [.privateName]).afterAll [.peek]).lexer =
        .ok (.punctuator .slashEq) lexer ∧
      ∃ lexer', Lexing.rescanRegExp lexer = .ok (.regExp "=[/]\\/" "gi") lexer' ∧
        lexer'.lastSpan.start = lexer.lastSpan.start ∧
        "/=[/]\\//gi;".toList.extract lexer'.lastSpan.start.offset lexer'.lastSpan.stop.offset =
          "/=[/]\\//gi".toList := by
  have hrules : ∀ rule ∈ [TokenRule.privateName], rule.IsSigil := by
    simp only [List.forall_mem_singleton, TokenRule.IsSigil.privateName]
  obtain ⟨lexer, hnext, hspan⟩ := exists_of_readsAt (show readsAt (.punctuator .slashEq)
    ⟨.start, ⟨1, 2, 2⟩⟩
    (Lexing.next ((start "/=[/]\\//gi;" [.privateName]).afterAll [.peek]).lexer) = true
    by decide +kernel)
  refine ⟨lexer, hnext, ?_⟩
  have htext : "/=[/]\\//gi;".toList.drop (lexer.lastSpan.start.offset + 1) =
      "=[/]\\//gi;".toList := by
    rw [hspan]
    decide
  have hread := (rescanRegExp_of_next "/=[/]\\//gi;" hrules [.peek] (.inr rfl) hnext).2 6
  have hpattern : "=[/]\\//gi;".toList.take 6 = "=[/]\\/".toList := by decide
  have hflags : ("=[/]\\//gi;".toList.drop (6 + 1)).takeWhile isIdContinue = "gi".toList := by
    decide +kernel
  rw [htext, hpattern, hflags, String.ofList_toList, String.ofList_toList] at hread
  exact hread (by decide +kernel)

end Session

end EcmaScript
