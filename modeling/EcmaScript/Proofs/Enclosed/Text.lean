import EcmaScript.Proofs.Enclosed.Use
import EcmaScript.Proofs.LayoutIndependence
import EcmaScript.Proofs.Operators.RoundTrip

/-!
The text of an expression in parentheses.

A text that is read to its end, and that has nothing but white space behind its last token, goes on
with a closing parenthesis without any of its tokens being read in another way.
-/

namespace EcmaScript

/-- White space and line terminators are trivia in front of anything. -/
theorem Trivia.of_separators {following gap : List Char} (h : ∀ c ∈ gap, isSeparator c = true) :
    Trivia following gap := by
  induction gap with
  | nil => exact .nil
  | cons c gap ih =>
    obtain ⟨hc, hgap⟩ := List.forall_mem_cons.1 h
    exact .separator hc (ih hgap)

theorem lastStop_eq (before : Span) (tokens : List Placed) :
    lastStop before.stop.offset tokens = (Placed.lastSpan before tokens).stop.offset := by
  induction tokens generalizing before with
  | nil => rfl
  | cons placed tokens ih => exact ih placed.span

variable {rules : List TokenRule} {low : Nat} {consumed : List Placed} {text following : List Char}
  {rest : List Lexeme} {newline : Bool} {span : Span}

/-- Whatever stands behind a closing parenthesis, it is one. -/
theorem ClaimPrivateNames.reads_rParen (hrules : ClaimPrivateNames rules) (following : List Char) :
    Scan.Reads (Scan.token rules) (')' :: following) (.punctuator .rParen) following :=
  fun position => ⟨position.past ')' following.head?,
    (hrules.token_eq (by decide) _ position).trans rfl⟩

/-- Unless the last one of the tokens is the end of the source, none is. -/
theorem Stand.ne_endOfInput {placed : Placed} {after : List Placed}
    (h : Stand rules low (placed :: (consumed ++ after)) text)
    (hstops : Placed.StopsShort (placed :: consumed)) : placed.token ≠ .endOfInput := by
  intro hend
  obtain ⟨gap, u, behind, hstands, hbehind⟩ := h
  obtain ⟨-, -, rfl⟩ := hstands.atEnd hend
  have hall : ∀ other ∈ placed :: consumed, other.token = .endOfInput :=
    List.forall_mem_cons.2 ⟨hend, fun other hother =>
      hbehind.token_eq other (List.mem_append_left _ hother)⟩
  have hlast := List.getLast?_eq_some_getLast (List.cons_ne_nil placed consumed)
  exact hstops _ hlast (hall _ (List.getLast_mem _))

/-- A closing parenthesis ends the text that ended with the source. -/
theorem Stand.closed (hrules : ClaimPrivateNames rules)
    (h : Stand rules low (consumed ++ [⟨.ending newline, span⟩]) text)
    (hstops : Placed.StopsShort consumed)
    (hblank : ∀ c ∈ text.drop (lastStop low consumed - low), isSeparator c = true)
    (hrest : Spells rules rest following) :
    Scan.Compatible text (text ++ ')' :: following) ∧
      Spells rules (consumed.map Placed.toLexeme ++ .closing newline :: rest)
        (text ++ ')' :: following) := by
  induction consumed generalizing low text with
  | nil =>
    obtain ⟨gap, u, behind, hstands, -⟩ := h
    obtain ⟨-, rfl, rfl⟩ := hstands.atEnd rfl
    obtain rfl : text = gap := hstands.text_eq.trans (by simp)
    rw [lastStop, Nat.sub_self, List.drop_zero] at hblank
    refine ⟨.inl ?_, text, _, following, rfl, .of_separators hblank, rfl, hstands.newline,
      hrules.reads_rParen following, hrest⟩
    cases text with
    | nil => rfl
    | cons c text =>
      have hc := hblank c List.mem_cons_self
      simp [Scan.delimits, hc]
  | cons placed consumed ih =>
    have hmore := h.ne_endOfInput hstops
    obtain ⟨gap, u, behind, hstands, hbehind⟩ := h
    have hoccupies := hstands.occupies hmore
    have hle := hbehind.le_lastStop
    have hstop := hstands.stop_eq
    obtain rfl := hstands.text_eq
    have hdrop : (gap ++ (u ++ behind)).drop (lastStop low (placed :: consumed) - low) =
        behind.drop (lastStop placed.span.stop.offset consumed - placed.span.stop.offset) := by
      have hoffset : lastStop low (placed :: consumed) - low = (gap ++ u).length +
          (lastStop placed.span.stop.offset consumed - placed.span.stop.offset) := by
        rw [lastStop, List.length_append]
        omega
      rw [← List.append_assoc, hoffset, List.drop_length_add_append]
    rw [hdrop] at hblank
    obtain ⟨hcompatible, hspells⟩ := ih hbehind hstops.tail hblank
    constructor
    · rw [← List.append_assoc gap, List.append_assoc (gap ++ u)]
      refine hcompatible.append (by simp [hoccupies.nonempty]) fun hpoint => ?_
      obtain ⟨rfl, hu⟩ | ⟨-, hu⟩ := List.append_eq_singleton_iff.1 hpoint
      · exact hoccupies.point hu
      · exact absurd hu hoccupies.nonempty
    · refine ⟨gap, u ++ (behind ++ ')' :: following), _, by simp, hstands.trivia.congr ?_,
        hcompatible.opensTrivia hoccupies.nonempty hstands.stops, hstands.newline,
        hoccupies.reads _ hcompatible, hspells⟩
      rw [List.head?_append_of_ne_nil _ hoccupies.nonempty,
        List.head?_append_of_ne_nil _ hoccupies.nonempty]

/-- A semicolon stands where it has been read. -/
theorem Stand.getElem?_semicolon (hrules : ClaimPrivateNames rules) {placed : Placed}
    {after : List Placed} (h : Stand rules low (consumed ++ placed :: after) text)
    (htoken : placed.token = .punctuator .semicolon) (hkept : placed.reread = none) :
    low < placed.span.stop.offset ∧ text[placed.span.stop.offset - low - 1]? = some ';' := by
  induction consumed generalizing low text with
  | nil =>
    obtain ⟨gap, u, behind, hstands, -⟩ := h
    obtain rfl := hstands.text_eq
    have hstop := hstands.stop_eq
    have hread : Scan.Reads (Scan.token rules) (u ++ behind) (.punctuator .semicolon) behind := by
      have hread := hstands.isReadFrom
      unfold Lexeme.IsReadFrom at hread
      rwa [hkept, htoken] at hread
    obtain ⟨_, hreturns⟩ := hread .start
    have hspelled : u ++ behind = [';'] ++ behind := Scan.append_eq_of_punctuator hrules hreturns
    obtain rfl := List.append_cancel_right hspelled
    rw [List.length_singleton] at hstop
    have hindex : placed.span.stop.offset - low - 1 = gap.length := by omega
    rw [hindex]
    exact ⟨by omega, by simp⟩
  | cons first consumed ih =>
    obtain ⟨gap, u, behind, hstands, hbehind⟩ := h
    obtain rfl := hstands.text_eq
    have hstop := hstands.stop_eq
    obtain ⟨hless, hsemicolon⟩ := ih hbehind
    have hindex : placed.span.stop.offset - low - 1 =
        (gap ++ u).length + (placed.span.stop.offset - first.span.stop.offset - 1) := by
      rw [List.length_append]
      omega
    rw [← List.append_assoc, hindex, List.getElem?_append_right (Nat.le_add_right _ _),
      Nat.add_sub_cancel_left]
    exact ⟨by omega, hsemicolon⟩

section

variable (hrules : rules = [] ∨ rules = [TokenRule.privateName]) {source : String} {lexer : Lexer}
  (hmark : source.toList.take 2 ≠ ['#', '!'])
  (htrail : Trail consumed (.ofSource source rules) lexer)
include hrules hmark htrail

/-- What the lexer of a source feeds up to its end stands in the source. -/
theorem Trail.stand {tokens : List Placed} {last : Placed}
    (horderly : ∀ placed ∈ tokens ++ [last], placed.IsOrderly) (hlast : last.token = .endOfInput)
    (hfeeds : lexer.FeedsAt (tokens ++ [last])) :
    Stand rules 0 (consumed ++ (tokens ++ [last])) source.toList := by
  have htracks := (Lexer.Rests.start source hrules).tracks
  have hstand := Lexer.FeedsAt.stand hrules htracks rfl rfl (fun placed hplaced =>
    (List.mem_append.1 hplaced).elim (htrail.orderly placed) (horderly placed)) (by
    rw [← List.append_assoc, List.getLast?_append]
    rintro _ ⟨⟩
    exact hlast) (htrail.feedsAt _ hfeeds)
  change Stand rules (Lexer.initialCursor source.toList).position.offset _
    (Lexer.initialCursor source.toList).rest at hstand
  rwa [Lexer.initialCursor_eq hmark] at hstand

/-- A closing parenthesis ends a source behind its last token. -/
theorem Trail.spells_closed (hstops : Placed.StopsShort consumed)
    (hend : lexer.FeedsAt [⟨.ending newline, span⟩])
    (hblank : ∀ c ∈ source.toList.drop lexer.lastSpan.stop.offset, isSeparator c = true)
    (hrest : Spells rules rest following) :
    Spells rules (consumed.map Placed.toLexeme ++ .closing newline :: rest)
      (source.toList ++ ')' :: following) := by
  have hstand := @Trail.stand _ _ hrules _ _ hmark htrail [] ⟨.ending newline, span⟩
    (List.forall_mem_singleton.2 (.of_kept rfl)) rfl hend
  have hlast : lastStop 0 consumed = lexer.lastSpan.stop.offset := by
    rw [htrail.lastSpan_eq]
    exact lastStop_eq (.empty .start) consumed
  refine (hstand.closed (.of_eq hrules) hstops ?_ hrest).2
  rwa [hlast]

/-- A source that ends with a semicolon does. -/
theorem Trail.getElem?_semicolon {semicolon last : Placed}
    (htoken : semicolon.token = .punctuator .semicolon) (hkept : semicolon.reread = none)
    (hlast : last.token = .endOfInput) (hend : last.reread = none)
    (hfeeds : lexer.FeedsAt [semicolon, last]) :
    source.toList[semicolon.span.stop.offset - 1]? = some ';' := by
  have hstand := @Trail.stand _ _ hrules _ _ hmark htrail [semicolon] last
    (by simpa using ⟨.of_kept hkept, .of_kept hend⟩) hlast hfeeds
  exact (hstand.getElem?_semicolon (.of_eq hrules) htoken hkept).2

end

namespace OperandUse

theorem toList_text (use : OperandUse) (source : String) : (use.text source).toList =
    use.front.toList ++ (source.toList ++ ')' :: use.back.toList) := by
  simp [text, String.toList_append]

/-- The text of a use has no `#!` line. -/
theorem take_text_ne (use : OperandUse) (source : String) :
    (use.text source).toList.take 2 ≠ ['#', '!'] := by
  rw [toList_text]
  cases use <;> simp [front]

variable (hrules : ClaimPrivateNames rules)
include hrules

theorem spells_lParen (hrest : Spells rules rest following) :
    Spells rules (.of (.punctuator .lParen) :: rest) ('(' :: following) :=
  .cons rfl (fun position => ⟨position.past '(' following.head?,
    (hrules.token_eq (by decide) _ position).trans rfl⟩) hrest

/-- A token in front of whatever may end it. -/
theorem spells_word (token : Token) (word : String) (hspelled : token.isSpelledBy word = true)
    (hfirst : word.toList.head?.any (· ≠ '#') = true)
    (hopens : opensTrivia (word.toList ++ following) = false)
    (hfollowing : following.head?.all Scan.delimits = true) (hrest : Spells rules rest following) :
    Spells rules (.of token :: rest) (word.toList ++ following) :=
  .cons hopens (hrules.reads hspelled hfirst hfollowing) hrest

theorem spells_back (use : OperandUse) :
    Spells rules (use.backLexemes ++ [.of .endOfInput]) use.back.toList := by
  have hone {following : List Char} {rest : List Lexeme}
      (hfollowing : following.head?.all Scan.delimits = true)
      (hrest : Spells rules rest following) :
      Spells rules (.of (.number (.ofNat 1)) :: rest) ('1' :: following) :=
    spells_word hrules _ "1" (by decide +kernel) rfl rfl hfollowing hrest
  have hsum : Spells rules (summand.backLexemes ++ [.of .endOfInput]) " + 1".toList :=
    (spells_word hrules (.punctuator .plus) "+" (by decide +kernel) rfl rfl rfl
      (hone rfl .endOfInput).space).space
  cases use with
  | callee =>
    exact spells_lParen hrules (.cons rfl (hrules.reads_rParen []) .endOfInput)
  | object =>
    have hname : Spells rules [.of (.identifier "m" false), .of .endOfInput] ['m'] :=
      spells_word hrules _ "m" (by decide +kernel) rfl rfl rfl .endOfInput
    exact .cons rfl (fun position => ⟨position.past '.' (some 'm'),
      (hrules.token_eq (by decide) _ position).trans rfl⟩) hname
  | summand => exact hsum
  | alternative => exact hsum
  | test =>
    have htwo : Spells rules [.of (.number (.ofNat 2)), .of .endOfInput] ['2'] :=
      spells_word hrules _ "2" (by decide +kernel) rfl rfl rfl .endOfInput
    have hcolon := spells_word hrules (.punctuator .colon) ":" (by decide +kernel) rfl rfl rfl
      htwo.space
    exact (spells_word hrules (.punctuator .question) "?" (by decide +kernel) rfl rfl rfl
      (hone rfl hcolon.space).space).space

/-- What is spelled in front of a closing parenthesis is spelled there in every use. -/
theorem spells_text (use : OperandUse) {source : String} {inside : List Lexeme}
    (hinside : ∀ ⦃following rest⦄, Spells rules rest following →
      Spells rules (inside ++ rest) (source.toList ++ ')' :: following)) :
    Spells rules (use.frontLexemes ++ (inside ++ (use.backLexemes ++ [.of .endOfInput])))
      (use.text source).toList := by
  have hparen := spells_lParen hrules (hinside (use.spells_back hrules))
  rw [toList_text]
  cases use with
  | alternative =>
    exact spells_word hrules (.identifier "a" false) "a" (by decide +kernel) rfl rfl rfl
      (spells_word hrules (.punctuator .orOr) "||" (by decide +kernel) rfl rfl rfl
        hparen.space).space
  | _ => exact hparen

/-- What is fed in front of a closing parenthesis is fed there in every use. -/
theorem feeds_text (use : OperandUse) {source : String} {inside : List Lexeme}
    (hinside : ∀ ⦃following rest⦄, Spells rules rest following →
      Spells rules (inside ++ rest) (source.toList ++ ')' :: following)) :
    (Lexer.ofSource (use.text source) rules).Feeds
      (use.frontLexemes ++ (inside ++ (use.backLexemes ++ [.of .endOfInput]))) := by
  have htracks := Lexer.tracks_ofSource (use.text source) hrules.advances
    (fun rule hrule => hrules rule hrule ▸ TokenRule.isExact_privateName _)
    fun rule hrule => hrules rule hrule ▸ TokenRule.isWordless_privateName
  refine Lexer.feeds_of_spells htracks rfl ?_
  change Spells _ _ (Lexer.initialCursor (use.text source).toList).rest
  rw [Lexer.initialCursor_eq (use.take_text_ne source)]
  exact use.spells_text hrules hinside

end OperandUse

end EcmaScript
