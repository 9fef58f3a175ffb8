import EcmaScript.Proofs.Exact.Scan
import EcmaScript.Proofs.Lexer
import EcmaScript.Proofs.Locality

/-!
Words of the source.

A word that is written without escapes stands in the source letter by letter, and no longer word
does: `StandsAt` says so. `Words` says that words stand one behind the other with nothing but trivia
behind each. A token shows its wording: a keyword, or a name without escapes, is what stands there;
and a name that is spelled like a keyword was written with an escape.
-/

namespace EcmaScript

structure StandsAt (source : List Char) (offset : Nat) (text : String) : Prop where
  begins : text.toList <+: source.drop offset
  whole : text.toList.all isIdContinue = true →
    (source.drop (offset + text.toList.length)).head?.any isIdContinue = false

/-- There is nothing but trivia from `low` up to `high`, and no more trivia behind it. -/
structure Gap (source : List Char) (low high : Nat) : Prop where
  le : low ≤ high
  trivia : Trivia (source.drop high) ((source.drop low).take (high - low))
  stop : opensTrivia (source.drop high) = false

/-- No line terminator stands in the trivia behind the offset. -/
def OnLine (source : List Char) (offset : Nat) : Prop :=
  ∃ next, Gap source offset next ∧
    ∀ c ∈ (source.drop offset).take (next - offset), isLineTerminator c = false

/-- The words stand one behind the other from `start` on, and trivia behind each, up to an offset. -/
inductive Words (source : List Char) (start : Nat) : List String → Nat → Prop where
  | nil : Words source start [] start
  | snoc {words : List String} {word : String} {offset next : Nat}
      (h : Words source start words offset) (hword : StandsAt source offset word)
      (hgap : Gap source (offset + word.toList.length) next) :
      Words source start (words ++ [word]) next

/-- Where no words stand, the offset is still the start. -/
theorem Words.eq_of_nil {source : List Char} {start offset : Nat}
    (h : Words source start [] offset) : offset = start := by
  generalize hwords : ([] : List String) = words at h
  cases h with
  | nil => rfl
  | snoc => simp at hwords

/-- How the token is written, if that is known from the token. -/
def Token.text? : Token → Option String
  | .keyword word => some word.spelling
  | .identifier name false => some name
  | .punctuator symbol => some symbol.spelling
  | _ => none

structure Token.IsWritten (source : List Char) (start stop : Nat) (token : Token) : Prop where
  text : ∀ text, token.text? = some text → StandsAt source start text ∧
    stop = start + text.toList.length
  escape : ∀ name escaped, token = .identifier name escaped →
    Scan.hasEscape (source.drop start) = escaped ∧
      (escaped = false → Keyword.ofWord? name = none)

/-- What is skipped behind a cursor is a gap, in which no line terminator stands if no line ends. -/
theorem Gap.of_skipTrivia {source : List Char} {c d : Cursor} (hc : c.At source) (hd : d.At source)
    (h : Scan.Returns Scan.skipTrivia c () d) :
    Gap source c.position.offset d.position.offset ∧
      (¬c.position.line < d.position.line → OnLine source c.position.offset) := by
  obtain ⟨gap, htext, htrivia, hstop⟩ := Scan.trivia_of_skipTrivia h
  have hlength := congrArg List.length htext
  rw [hc.rest_eq, hd.rest_eq, List.length_append, List.length_drop, List.length_drop] at hlength
  have hle := hc.position.offset_le
  have hle' := hd.position.offset_le
  have hoffset : d.position.offset = c.position.offset + gap.length := by omega
  have htake : (source.drop c.position.offset).take (d.position.offset - c.position.offset) =
      gap := by
    rw [← hc.rest_eq, htext, hoffset, Nat.add_sub_cancel_left, List.take_left]
  rw [hd.rest_eq] at htrivia hstop
  have hgap : Gap source c.position.offset d.position.offset :=
    ⟨by omega, by rwa [htake], hstop⟩
  refine ⟨hgap, fun hline => ⟨_, hgap, ?_⟩⟩
  have hlines := (line_le_and_lt_iff gap (hc.rest_eq.symm.trans htext)
    (by rw [hd.rest_eq]; exact ne_lineFeed_of_not_opensTrivia hstop)).2
  rw [← hoffset, ← hc.position.line_column, ← hd.position.line_column] at hlines
  rw [htake]
  intro x hx
  refine Bool.eq_false_iff.2 fun hterminator => hline (hlines.2 ?_)
  exact List.any_eq_true.2 ⟨x, hx, hterminator⟩

namespace Scan

/-- A word without escapes is what stands there. -/
theorem append_eq_of_word {c d : Cursor} {text : List Char}
    (hplain : hasEscape c.rest = false) (h : Returns word c text d) : c.rest = text ++ d.rest := by
  -- The rounds that are left, with some characters of the word read before.
  have hloop (bound : Nat) : ∀ (read : List Char) (c : Cursor), hasEscape c.rest = false →
      Returns (repeatRounds (fun read => do wordStep read (← peek) (← peekSecond)) bound read) c
        text d → read.reverse ++ c.rest = text ++ d.rest := by
    induction bound with
    | zero => exact fun _ _ _ h => by cases h
    | succ bound ih =>
      rintro read ⟨rest, position⟩ hplain h
      obtain ⟨next, middle, hround, hrest⟩ := Returns.of_bind h
      change Returns (wordStep read rest.head? rest.tail.head?) _ _ _ at hround
      cases rest with
      | nil =>
        obtain ⟨rfl, rfl⟩ := hround.of_pure
        obtain ⟨rfl, rfl⟩ := hrest.of_pure
        rfl
      | cons x rest =>
        have hx : x ≠ '\\' := by
          rintro rfl
          cases hplain
        rw [List.head?_cons, Same.wordStep_plain fun h => hx h.1] at hround
        split at hround
        · next hfit =>
          obtain ⟨_, _, hskip, hround⟩ := hround.of_bind
          obtain ⟨rfl, rfl⟩ := hround.of_pure
          cases hskip
          have hcontinue : isIdContinue x = true := by
            unfold fitsWord at hfit
            split at hfit
            · exact isIdContinue_of_isIdStart hfit
            · exact hfit
          have hmore : hasEscape rest = false := by
            simpa [hasEscape, List.takeWhile_cons, hcontinue, Ne.symm hx] using hplain
          have htext := ih (x :: read) ⟨rest, _⟩ hmore hrest
          rwa [List.reverse_cons, List.append_assoc] at htext
        · obtain ⟨rfl, rfl⟩ := hround.of_pure
          obtain ⟨rfl, rfl⟩ := hrest.of_pure
          rfl
  rw [word_eq] at h
  change repeatAlong _ c.rest [] c = _ at h
  rw [repeatAlong_eq] at h
  exact hloop _ [] c hplain h

/-- All characters of a word may stand in words. -/
theorem isIdContinue_of_word {c d : Cursor} {text : List Char} (h : Returns word c text d) :
    ∀ x ∈ text, isIdContinue x = true := by
  have hfits {read : List Char} {x : Char} (hread : ∀ y ∈ read, isIdContinue y = true)
      (hx : fitsWord read x = true) : ∀ y ∈ x :: read, isIdContinue y = true := by
    refine List.forall_mem_cons.2 ⟨?_, hread⟩
    unfold fitsWord at hx
    split at hx
    · exact isIdContinue_of_isIdStart hx
    · exact hx
  have hword : Goes word c fun text _ => ∀ x ∈ text, isIdContinue x = true := by
    refine Goes.loop (I := fun read _ => ∀ x ∈ read, isIdContinue x = true)
      (fun read c hread => .peek (.peekSecond ?_)) nofun
    have hstop : Goes (pure (Round.stop read.reverse) : Scan (Round (List Char) (List Char))) c
        fun r c' => r.Holds (fun read' => (∀ x ∈ read', isIdContinue x = true) ∧
          c'.rest.length < c.rest.length) fun text => ∀ x ∈ text, isIdContinue x = true :=
      .pure fun x hx => hread x (List.mem_reverse.1 hx)
    split
    · next hnext _ =>
      refine .here (.one (Goes.length_pos_of_peek hnext) fun c' hless => ?_)
      refine Goes.scalarEscape.bind fun x c'' hlead _ => .ite (fun hx => .pure ⟨hfits hread hx, ?_⟩)
        fun _ => .failed (.fail _ _)
      exact Nat.lt_of_le_of_lt hlead.length_le hless
    · next hnext _ =>
      exact .ite (fun hx => .one (Goes.length_pos_of_peek hnext) fun c' hless =>
        .pure ⟨hfits hread hx, hless⟩) fun _ => hstop
    · exact hstop
  exact (hword.of_ok h).2

/-- The run of characters at the start of a word holds a backslash exactly if the word is written
with one, or if one stands right behind it. -/
theorem hasEscape_iff_of_word {c d : Cursor} {text written : List Char} (htext : text ≠ [])
    (h : Returns word c text d) (hwritten : c.rest = written ++ d.rest) :
    hasEscape c.rest = true ↔ '\\' ∈ written ∨ d.rest.head? = some '\\' := by
  have hstop := Same.not_isIdContinue_of_word h htext
  constructor
  · intro hescape
    by_cases hnext : d.rest.head? = some '\\'
    · exact .inr hnext
    · rw [hwritten, Same.hasEscape_append hnext hstop] at hescape
      have hmem : '\\' ∈ written.takeWhile fun c => c == '\\' || isIdContinue c := by
        simpa [hasEscape] using hescape
      exact .inl ((List.takeWhile_sublist _).subset hmem)
  · intro hbackslash
    -- Without an escape what is written is the word itself, of which no backslash is a part.
    by_contra hplain
    rw [Bool.not_eq_true] at hplain
    have hsame := append_eq_of_word hplain h
    have hletters := isIdContinue_of_word h
    obtain rfl : written = text := List.append_cancel_right (hwritten.symm.trans hsame)
    have hnone : '\\' ∉ written := fun hmem => by cases hletters '\\' hmem
    obtain ⟨behind, hbehind⟩ := List.head?_eq_some_iff.1 (hbackslash.resolve_left hnone)
    rw [hwritten, hbehind, hasEscape, List.takeWhile_append_of_pos] at hplain
    · simp at hplain
    · exact fun x hx => by simp [hletters x hx]

end Scan

/-- A text that stands in front of the cursor's rest stands at an offset of the source. -/
theorem StandsAt.of_cursor {source : List Char} {c d : Cursor} {text : String} (hc : c.At source)
    (hd : d.At source) (htext : c.rest = text.toList ++ d.rest)
    (hwhole : text.toList.all isIdContinue = true → d.rest.head?.any isIdContinue = false) :
    StandsAt source c.position.offset text ∧
      d.position.offset = c.position.offset + text.toList.length := by
  have hoffset : d.position.offset = c.position.offset + text.toList.length := by
    have hlength := congrArg List.length htext
    rw [hc.rest_eq, hd.rest_eq, List.length_append, List.length_drop, List.length_drop] at hlength
    have hle := hd.position.offset_le
    have hle' := hc.position.offset_le
    omega
  refine ⟨⟨?_, fun hall => ?_⟩, hoffset⟩
  · rw [← hc.rest_eq, htext]
    exact List.prefix_append _ _
  · rw [← hoffset, ← hd.rest_eq]
    exact hwhole hall

/-- Whether the token is neither a word nor a punctuator. -/
def Token.isWordless : Token → Bool
  | .identifier _ _ | .keyword _ | .punctuator _ => false
  | _ => true

namespace Scan

/-- What holds of all ten digits holds of every digit. -/
theorem of_isDecimalDigit {p : Char → Bool} (hp : "0123456789".toList.all p = true) {c : Char}
    (h : isDecimalDigit c = true) : p c = true := by
  have hrange : 0x30 ≤ c.toNat ∧ c.toNat ≤ 0x39 := by
    simp only [isDecimalDigit, isDigitOf, digitValue?, Bool.and_eq_true, decide_eq_true_eq] at h
    grind
  refine List.all_eq_true.1 hp c ?_
  rw [← Char.ofNat_toNat c]
  generalize c.toNat = n at hrange
  obtain ⟨hlow, hhigh⟩ := hrange
  interval_cases n <;> decide

/-- A token of the language is neither a word nor a punctuator, and starts as none, or it is a
punctuator that is spelled out, or it is a word. -/
theorem cases_of_languageToken {first : Char} {start : Position} {c d : Cursor} {token : Token}
    (h : Returns (languageToken first start) c token d) :
    (token.isWordless = true ∧ isIdStart first = false) ∨
      (∃ symbol : Punctuator, token = .punctuator symbol ∧
        c.rest = symbol.spelling.toList ++ d.rest) ∨
      Returns (identifier first start) c token d := by
  have hwordless {p : Scan Token} (hp : Yields (·.isWordless) p) (hfirst : isIdStart first = false)
      (h : Returns p c token d) : (token.isWordless = true ∧ isIdStart first = false) ∨
        (∃ symbol : Punctuator, token = .punctuator symbol ∧
          c.rest = symbol.spelling.toList ++ d.rest) ∨
        Returns (identifier first start) c token d :=
    .inl ⟨hp _ _ _ h, hfirst⟩
  have hnumber (first : Char) : Yields (·.isWordless) (numericLiteral first start) :=
    yields_numericLiteral (fun _ => rfl) (fun _ => rfl) first start
  rw [Returns, languageToken_eq] at h
  change Returns (tokenOf _ _ _) _ _ _ at h
  unfold tokenOf at h
  split at h
  · next hpoint =>
    rw [Bool.and_eq_true, beq_iff_eq] at hpoint
    exact hwordless (.step fun _ => hnumber _) (hpoint.1 ▸ by decide) h
  cases hsymbol : Punctuator.ofText? c.rest with
  | some symbol =>
    rw [hsymbol] at h
    obtain ⟨_, middle, hskip, hrest⟩ := h.of_bind
    obtain ⟨rfl, rfl⟩ := hrest.of_pure
    obtain ⟨behind, hbehind⟩ := Punctuator.prefix_of_ofText? hsymbol
    obtain ⟨-, hrest⟩ := drop_of_skip hskip
    rw [← hbehind, ← String.length_toList, List.drop_left] at hrest
    exact .inr (.inl ⟨symbol, rfl, by rw [hrest, hbehind]⟩)
  | none =>
    rw [hsymbol] at h
    dsimp only at h
    unfold plainToken at h
    split at h
    · next hdigit =>
      refine hwordless (.step fun _ => hnumber _) ?_ h
      have hstart := of_isDecimalDigit (p := (!isIdStart ·)) (by decide +kernel) hdigit
      rwa [Bool.not_eq_true'] at hstart
    split at h
    · next hquote =>
      refine hwordless (.step fun _ => .step fun _ => .done rfl) ?_ h
      rw [Bool.or_eq_true, beq_iff_eq, beq_iff_eq] at hquote
      rcases hquote with rfl | rfl <;> decide
    split at h
    · next hquote =>
      refine hwordless (.step fun _ => yields_templateStart (fun _ => rfl) (fun _ => rfl) _) ?_ h
      rw [eq_of_beq hquote]
      decide
    split at h
    · exact .inr (.inr h)
    · obtain ⟨_, middle, -, hfails⟩ := h.of_bind
      cases hfails

end Scan

/-- The rule reads neither words nor punctuators. -/
def TokenRule.IsWordless (rule : TokenRule) : Prop :=
  rule.Reads fun _ p => Scan.Yields (·.isWordless) p

theorem TokenRule.isWordless_sigil (mark : Char) : (TokenRule.sigil mark).IsWordless :=
  reads_sigil (.step fun _ => .step fun _ => .done rfl)

theorem TokenRule.isWordless_privateName : TokenRule.privateName.IsWordless := isWordless_sigil '#'

theorem TokenRule.isWordless_refuse (mark : Char) (text : String) :
    (TokenRule.refuse mark text).IsWordless := by
  refine reads_refuse (.step fun _ => .step fun _ => ?_)
  rintro c a c' ⟨⟩

/-- The rule claims nothing that starts like a word. -/
def TokenRule.SparesWords (rule : TokenRule) : Prop :=
  ∀ first, isIdStart first = true → rule first = pure none

theorem TokenRule.sparesWords_sigil {mark : Char} (hmark : isIdStart mark = false) :
    (TokenRule.sigil mark).SparesWords := by
  intro first hfirst
  rw [TokenRule.sigil, if_neg]
  rw [beq_iff_eq]
  rintro rfl
  rw [hmark] at hfirst
  cases hfirst

theorem TokenRule.sparesWords_refuse {mark : Char} (hmark : isIdStart mark = false)
    (text : String) : (TokenRule.refuse mark text).SparesWords := by
  intro first hfirst
  rw [TokenRule.refuse, if_neg]
  rw [beq_iff_eq]
  rintro rfl
  rw [hmark] at hfirst
  cases hfirst

namespace Token.IsWritten

variable {source : List Char} {c d : Cursor} {token : Token}

theorem of_isWordless {start stop : Nat} (h : token.isWordless = true) :
    token.IsWritten source start stop where
  text text htext := by
    cases token with
    | identifier | keyword | punctuator => cases h
    | _ => cases htext
  escape name escaped hname := by
    subst hname
    cases h

theorem of_identifier {first : Char} {start : Position} (hc : c.At source) (hd : d.At source)
    (h : Scan.Returns (Scan.identifier first start) c token d) :
    token.IsWritten source c.position.offset d.position.offset := by
  rw [Scan.Returns, Scan.Same.identifier_eq] at h
  obtain ⟨-, h⟩ := Scan.Returns.of_ahead h
  obtain ⟨text, middle, hword, hrest⟩ := Scan.Returns.of_bind h
  split at hrest
  · cases hrest
  · next htext =>
    obtain ⟨rfl, rfl⟩ := hrest.of_pure
    rw [hc.rest_eq]
    have hends := Scan.Same.not_isIdContinue_of_word hword (by simpa using htext)
    -- The word as it stands in the source, if it has no escape.
    have hstands (hplain : Scan.hasEscape (source.drop c.position.offset) = false) (name : String)
        (hname : name.toList = text) : StandsAt source c.position.offset name ∧
          d.position.offset = c.position.offset + name.toList.length := by
      refine StandsAt.of_cursor hc hd ?_ fun _ => hends
      rw [hname]
      exact Scan.append_eq_of_word (by rw [hc.rest_eq]; exact hplain) hword
    unfold Scan.Same.wordToken
    cases hescape : Scan.hasEscape (source.drop c.position.offset) with
    | true =>
      refine ⟨by rintro name ⟨⟩, ?_⟩
      rintro name escaped ⟨⟩
      exact ⟨hescape, by rintro ⟨⟩⟩
    | false =>
      cases hword : Keyword.ofWord? (String.ofList text) with
      | some keyword =>
        have hspelling : keyword.spelling = String.ofList text := by
          simpa using List.find?_some hword
        refine ⟨?_, by rintro name escaped ⟨⟩⟩
        rintro name ⟨⟩
        exact hstands hescape _ (by rw [hspelling, String.toList_ofList])
      | none =>
        refine ⟨?_, ?_⟩
        · rintro name ⟨⟩
          exact hstands hescape _ String.toList_ofList
        · rintro name escaped ⟨⟩
          exact ⟨hescape, fun _ => hword⟩

theorem of_languageToken {first : Char} {start : Position} (hc : c.At source) (hd : d.At source)
    (h : Scan.Returns (Scan.languageToken first start) c token d) :
    token.IsWritten source c.position.offset d.position.offset := by
  rcases Scan.cases_of_languageToken h with ⟨hwordless, -⟩ | ⟨symbol, rfl, htext⟩ | hword
  · exact .of_isWordless hwordless
  · refine ⟨?_, by rintro name escaped ⟨⟩⟩
    rintro text ⟨⟩
    refine StandsAt.of_cursor hc hd htext fun hword => ?_
    -- No punctuator is made of characters of words.
    exact absurd hword (by cases symbol <;> decide)
  · exact of_identifier hc hd hword

end Token.IsWritten

theorem Keyword.ofWord?_spelling (word : Keyword) : ofWord? word.spelling = some word := by
  cases word <;> rfl

/-- The token is written as the text, in front of what follows it. The flag of a name is raised
also by a backslash that is no part of the text but stands right behind it. -/
structure Token.WrittenAs (text following : List Char) (token : Token) : Prop where
  escaped_iff : ∀ name escaped, token = .identifier name escaped →
    (escaped = true ↔ '\\' ∈ text ∨ following.head? = some '\\')
  name_eq : ∀ name, token = .identifier name false →
    name.toList = text ∧ Keyword.ofWord? name = none
  keyword_eq : ∀ word, token = .keyword word → word.spelling.toList = text
  symbol_eq : ∀ symbol, token = .punctuator symbol → symbol.spelling.toList = text
  keyword_of_eq : ∀ word : Keyword, word.spelling.toList = text →
    token = .keyword word ∨ (∃ name, token = .identifier name true) ∧ following.head? = some '\\'

namespace Token.WrittenAs

variable {text following : List Char} {token : Token}

theorem of_isWordless (htoken : token.isWordless = true) (htext : text.head?.any isIdStart = false) :
    token.WrittenAs text following where
  escaped_iff name escaped h := by
    subst h
    cases htoken
  name_eq name h := by
    subst h
    cases htoken
  keyword_eq word h := by
    subst h
    cases htoken
  symbol_eq symbol h := by
    subst h
    cases htoken
  keyword_of_eq word h := by
    rw [← h] at htext
    exact absurd htext (by cases word <;> decide +kernel)

theorem of_punctuator {symbol : Punctuator} (h : symbol.spelling.toList = text) :
    (Token.punctuator symbol).WrittenAs text following where
  escaped_iff := by rintro name escaped ⟨⟩
  name_eq := by rintro name ⟨⟩
  keyword_eq := by rintro word ⟨⟩
  symbol_eq := by
    rintro _ ⟨⟩
    exact h
  keyword_of_eq word hspelled := by
    have hword : word.spelling.toList.head?.any isIdStart = true := by
      cases word <;> decide +kernel
    have hsymbol : symbol.spelling.toList.head?.any isIdStart = false := by
      cases symbol <;> decide +kernel
    rw [h, ← hspelled, hword] at hsymbol
    cases hsymbol

theorem of_identifier {first : Char} {start : Position} {c d : Cursor}
    (h : Scan.Returns (Scan.identifier first start) c token d) (htext : c.rest = text ++ d.rest) :
    token.WrittenAs text d.rest := by
  rw [Scan.Returns, Scan.Same.identifier_eq] at h
  obtain ⟨-, h⟩ := Scan.Returns.of_ahead h
  obtain ⟨name, middle, hword, hrest⟩ := Scan.Returns.of_bind h
  split at hrest
  · cases hrest
  next hname =>
  obtain ⟨rfl, rfl⟩ := hrest.of_pure
  have hescape := Scan.hasEscape_iff_of_word (by simpa using hname) hword htext
  unfold Scan.Same.wordToken
  cases hescaped : Scan.hasEscape c.rest with
  | true =>
    rw [hescaped] at hescape
    refine ⟨?_, by rintro _ ⟨⟩, by rintro _ ⟨⟩, by rintro _ ⟨⟩, ?_⟩
    · rintro _ _ ⟨⟩
      exact hescape
    · intro word hspelled
      have hplain : '\\' ∉ text := by
        rw [← hspelled]
        cases word <;> decide
      exact .inr ⟨⟨_, rfl⟩, (hescape.1 rfl).resolve_left hplain⟩
  | false =>
    rw [hescaped] at hescape
    have hsame : text = name :=
      List.append_cancel_right (htext.symm.trans (Scan.append_eq_of_word hescaped hword))
    subst hsame
    cases hkeyword : Keyword.ofWord? (String.ofList text) with
    | some keyword =>
      have hspelling : keyword.spelling = String.ofList text := by
        simpa using List.find?_some hkeyword
      refine ⟨by rintro _ _ ⟨⟩, by rintro _ ⟨⟩, ?_, by rintro _ ⟨⟩, ?_⟩
      · rintro _ ⟨⟩
        rw [hspelling, String.toList_ofList]
      · intro word hspelled
        rw [← hspelled, String.ofList_toList, Keyword.ofWord?_spelling] at hkeyword
        cases hkeyword
        exact .inl rfl
    | none =>
      refine ⟨?_, ?_, by rintro _ ⟨⟩, by rintro _ ⟨⟩, ?_⟩
      · rintro _ _ ⟨⟩
        exact hescape
      · rintro _ ⟨⟩
        exact ⟨String.toList_ofList, hkeyword⟩
      · intro word hspelled
        rw [← hspelled, String.ofList_toList, Keyword.ofWord?_spelling] at hkeyword
        cases hkeyword

end Token.WrittenAs

/-- What a token is written as is what is left out of the rest behind it. -/
theorem Scan.writtenAs_of_token {rules : List TokenRule} (hwordless : ∀ rule ∈ rules, rule.IsWordless)
    (hspares : ∀ rule ∈ rules, rule.SparesWords) {c d : Cursor} {token : Token} {text : List Char}
    (h : Scan.Returns (Scan.token rules) c token d) (htext : c.rest = text ++ d.rest) :
    token.WrittenAs text d.rest := by
  obtain ⟨rest, position⟩ := c
  cases rest with
  | nil =>
    cases h
    obtain ⟨rfl, -⟩ := List.append_eq_nil_iff.1 htext.symm
    exact .of_isWordless rfl rfl
  | cons first rest =>
    have hhead (hfirst : isIdStart first = false) : text.head?.any isIdStart = false := by
      cases text with
      | nil => rfl
      | cons x text =>
        cases htext
        exact hfirst
    rw [Returns] at h
    rcases token_cases hwordless first with
      ⟨-, hlanguage⟩ | ⟨rule, hrule, p, hfirst, hp, hclaimed⟩
    · rw [hlanguage] at h
      rcases cases_of_languageToken h with ⟨htoken, hfirst⟩ | ⟨symbol, rfl, hsymbol⟩ | hword
      · exact .of_isWordless htoken (hhead hfirst)
      · exact .of_punctuator (List.append_cancel_right (hsymbol.symm.trans htext))
      · exact .of_identifier hword htext
    · rw [hclaimed] at h
      refine .of_isWordless (hp _ _ _ h) (hhead (Bool.eq_false_iff.2 fun hword => ?_))
      exact map_some_ne_declined h (hfirst.symm.trans (hspares rule hrule first hword))

/-- A token is written where it is read. -/
theorem Scan.isWritten_of_token {source : List Char} {rules : List TokenRule}
    (hrules : ∀ rule ∈ rules, rule.IsWordless) {c d : Cursor} {t : Token} (hc : c.At source)
    (hd : d.At source) (h : Scan.Returns (token rules) c t d) :
    t.IsWritten source c.position.offset d.position.offset := by
  obtain ⟨rest, position⟩ := c
  cases rest with
  | nil =>
    cases h
    exact .of_isWordless rfl
  | cons first rest =>
    rw [Scan.Returns] at h
    rcases token_cases hrules first with ⟨-, hlanguage⟩ | ⟨-, -, p, -, hp, hclaimed⟩
    · rw [hlanguage] at h
      exact .of_languageToken hc hd h
    · rw [hclaimed] at h
      exact .of_isWordless (hp _ _ _ h)

/-! ## Private names at most -/

def ClaimPrivateNames (rules : List TokenRule) : Prop := ∀ rule ∈ rules, rule = .privateName

namespace ClaimPrivateNames

variable {rules : List TokenRule}

theorem of_eq (h : rules = [] ∨ rules = [TokenRule.privateName]) : ClaimPrivateNames rules := by
  rcases h with rfl | rfl
  · exact nofun
  · exact List.forall_mem_singleton.2 rfl

theorem advances (h : ClaimPrivateNames rules) : ∀ rule ∈ rules, rule.Advances :=
  fun rule hrule => h rule hrule ▸ TokenRule.advances_privateName

theorem isLocal (h : ClaimPrivateNames rules) : ∀ rule ∈ rules, rule.IsLocal :=
  fun rule hrule => h rule hrule ▸ TokenRule.isLocal_privateName

theorem isWordless (h : ClaimPrivateNames rules) : ∀ rule ∈ rules, rule.IsWordless :=
  fun rule hrule => h rule hrule ▸ TokenRule.isWordless_privateName

theorem sparesWords (h : ClaimPrivateNames rules) : ∀ rule ∈ rules, rule.SparesWords :=
  fun rule hrule => h rule hrule ▸ TokenRule.sparesWords_sigil (by decide +kernel)

/-- Nothing but the sign of a private name is claimed. -/
theorem declines (h : ClaimPrivateNames rules) {first : Char} (hfirst : first ≠ '#') :
    ∀ rule ∈ rules, rule first = pure none := by
  intro rule hrule
  rw [h rule hrule, TokenRule.privateName, TokenRule.sigil, if_neg (by simpa using hfirst)]

/-- A text that does not begin with the sign of a private name is scanned by the language alone. -/
theorem token_eq (h : ClaimPrivateNames rules) {first : Char} (hfirst : first ≠ '#')
    (text : List Char) (position : Position) : Scan.token rules ⟨first :: text, position⟩ =
      Scan.languageToken first position ⟨first :: text, position⟩ :=
  Scan.token_eq_languageToken (h.declines hfirst) text position

end ClaimPrivateNames

end EcmaScript
