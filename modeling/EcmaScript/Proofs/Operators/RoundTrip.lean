import EcmaScript.Proofs.Operators.Tree

/-!
The text of a tree of operators reads back as the tree.

The text spells the tokens of the tree: a name, an operator or a closing parenthesis ends in front
of a space, of a closing parenthesis, of a semicolon or at the end of the source, wherever it
stands.
-/

namespace EcmaScript

def Token.isSpelledBy (token : Token) (text : String) : Bool :=
  match Scan.token [] (.ofSource text.toList) with
  | .ok read stop => read == token && stop.rest.isEmpty
  | .error _ _ => false

/-- The text, in front of whatever may end a token, spells the tokens. -/
def Writes (rules : List TokenRule) (lexemes : List Lexeme) (text : List Char) : Prop :=
  ∀ ⦃following rest⦄, following.head?.all Scan.delimits = true → Spells rules rest following →
    Spells rules (lexemes ++ rest) (text ++ following)

section

variable {rules : List TokenRule} {lexeme : Lexeme} {lexemes rest : List Lexeme} {token : Token}
  {text following : List Char} {word : String}

theorem Token.returns_of_isSpelledBy (h : token.isSpelledBy word = true) :
    ∃ stop, Scan.Returns (Scan.token []) (.ofSource word.toList) token ⟨[], stop⟩ := by
  unfold isSpelledBy at h
  split at h
  · next read stop hread =>
    rw [Bool.and_eq_true, beq_iff_eq, List.isEmpty_iff] at h
    obtain ⟨rfl, hrest⟩ := h
    refine ⟨stop.position, ?_⟩
    rw [← hrest]
    exact hread
  · cases h

/-- White space in front of the first token changes nothing. -/
theorem Spells.space (h : Spells rules lexemes text) : Spells rules lexemes (' ' :: text) := by
  cases lexemes with
  | nil => trivial
  | cons lexeme lexemes =>
    obtain ⟨gap, tokens, rest, rfl, htrivia, hstop, hnewline, hread, hrest⟩ := h
    exact ⟨' ' :: gap, tokens, rest, rfl, .separator rfl htrivia, hstop, hnewline, hread, hrest⟩

theorem Spells.cons (hopens : opensTrivia text = false)
    (hread : Scan.Reads (Scan.token rules) text token following)
    (hrest : Spells rules rest following) : Spells rules (.of token :: rest) text :=
  ⟨[], text, following, rfl, .nil, hopens, rfl, hread, hrest⟩

theorem Spells.endOfInput : Spells rules [.of .endOfInput] [] :=
  ⟨[], [], [], rfl, .nil, rfl, rfl, fun position => ⟨position, rfl⟩, trivial⟩

def Scan.beginsNothing (first : Char) : Bool :=
  first != '.' && (Punctuator.candidates first).isEmpty && !isDecimalDigit first &&
    !(first == '"' || first == '\'') && first != '\x60' && !(isIdStart first || first == '\\')

theorem Scan.beginsNothing_of_isSeparator {first : Char} (h : isSeparator first = true) :
    beginsNothing first = true := by
  have hall : delimiters.all (fun c => !isSeparator c || beginsNothing c) = true := by
    decide +kernel
  have hmem : first ∈ delimiters := mem_delimiters (by rw [delimits, h]; rfl)
  simpa [h] using List.all_eq_true.1 hall first hmem

theorem Scan.not_returns_of_beginsNothing {first : Char} (h : beginsNothing first = true)
    {start : Position} {text : List Char} {position : Position} {c : Cursor} :
    ¬Returns (languageToken first start) ⟨first :: text, position⟩ token c := by
  simp only [beginsNothing, Bool.and_eq_true, Bool.not_eq_true', bne_iff_ne, ne_eq,
    List.isEmpty_iff] at h
  obtain ⟨⟨⟨⟨⟨hdot, hcandidates⟩, hdigit⟩, hquote⟩, htick⟩, hword⟩ := h
  rintro hreturns
  rw [Returns, languageToken_eq, tokenOf, if_neg (by simp [hdot]),
    Punctuator.ofText?_eq_none hcandidates] at hreturns
  dsimp only at hreturns
  rw [plainToken, if_neg (by simp [hdigit]), if_neg (by simp [hquote]),
    if_neg (by simpa using htick), if_neg (by simp [hword])] at hreturns
  cases hreturns

namespace ClaimPrivateNames

/-- A token that is alone is there in front of whatever may end a token as well. -/
theorem reads (h : ClaimPrivateNames rules) (hspelled : token.isSpelledBy word = true)
    (hfirst : word.toList.head?.any (· ≠ '#') = true)
    (hfollowing : following.head?.all Scan.delimits = true) :
    Scan.Reads (Scan.token rules) (word.toList ++ following) token following := by
  obtain ⟨stop, hstop⟩ := Token.returns_of_isSpelledBy hspelled
  have hcompatible : Scan.Compatible [] following := .inl hfollowing
  have hscan : Scan.Returns (Scan.token rules) ⟨word.toList ++ [], .start⟩ token ⟨[], stop⟩ := by
    rw [List.append_nil]
    unfold Cursor.ofSource at hstop
    cases hword : word.toList with
    | nil =>
      rw [hword] at hfirst
      cases hfirst
    | cons first text =>
      rw [hword, List.head?_cons, Option.any_some, decide_eq_true_iff] at hfirst
      rw [hword] at hstop
      rw [Scan.Returns, h.token_eq hfirst text]
      exact hstop
  refine Scan.reads_token h.advances h.isLocal ?_ hcompatible (.inl (by simp)) hscan
  rintro hnil
  rw [hnil] at hfirst
  cases hfirst

end ClaimPrivateNames

/-- A text that is an identifier begins neither like a private name nor like trivia. -/
theorem Token.first_of_isSpelledBy {name : String} {escaped : Bool}
    (h : (Token.identifier name escaped).isSpelledBy word = true) (following : List Char) :
    word.toList.head?.any (· ≠ '#') = true ∧ opensTrivia (word.toList ++ following) = false := by
  obtain ⟨stop, hstop⟩ := Token.returns_of_isSpelledBy h
  unfold Cursor.ofSource at hstop
  cases hword : word.toList with
  | nil =>
    rw [hword] at hstop
    cases hstop
  | cons first text =>
    rw [hword, Scan.Returns, Scan.token_eq_languageToken (by simp)] at hstop
    change Scan.Returns (Scan.languageToken first .start) _ _ _ at hstop
    constructor
    · rw [List.head?_cons, Option.any_some, decide_eq_true_iff]
      rintro rfl
      exact Scan.not_returns_of_beginsNothing (by decide +kernel) hstop
    · have hseparator : isSeparator first = false := Bool.eq_false_iff.2 fun hseparator =>
        Scan.not_returns_of_beginsNothing (Scan.beginsNothing_of_isSeparator hseparator) hstop
      have hslash : first ≠ '/' := by
        rintro rfl
        rw [Scan.Returns, Scan.languageToken_eq] at hstop
        cases hsymbol : Punctuator.ofText? ('/' :: text) with
        | none => cases Punctuator.candidates_eq_nil hsymbol
        | some symbol =>
          unfold Scan.tokenOf at hstop
          rw [if_neg (by simp)] at hstop
          dsimp only at hstop
          rw [hsymbol] at hstop
          obtain ⟨_, _, -, hpure⟩ := Scan.Returns.of_bind hstop
          cases hpure
      rw [List.cons_append, opensTrivia_cons, if_neg hslash, hseparator]

/-- A name, in front of whatever may end a token. -/
theorem writes_name (hrules : ClaimPrivateNames rules)
    (hname : (Token.identifier word false).isSpelledBy word = true) :
    Writes rules [.of (.identifier word false)] word.toList := by
  intro following rest hfollowing hrest
  obtain ⟨hfirst, hopens⟩ := Token.first_of_isSpelledBy hname following
  exact .cons hopens (hrules.reads hname hfirst hfollowing) hrest

/-- An operator in front of a space. -/
theorem spells_operator (hrules : ClaimPrivateNames rules) (operator : InfixOperator)
    (hrest : Spells rules rest (' ' :: following)) :
    Spells rules (.of operator.token :: rest)
      (operator.spelling.toList ++ ' ' :: following) := by
  have hspelled : operator.token.isSpelledBy operator.spelling = true := by
    rcases operator with operator | operator <;> cases operator <;> decide +kernel
  have hfirst : operator.spelling.toList.head?.any (· ≠ '#') = true := by
    rcases operator with operator | operator <;> cases operator <;> rfl
  have hopens : opensTrivia (operator.spelling.toList ++ ' ' :: following) = false := by
    rcases operator with operator | operator <;> cases operator <;> rfl
  exact .cons hopens (hrules.reads hspelled hfirst rfl) hrest

end

namespace OperatorTree

variable {rules : List TokenRule} {lexemes rest : List Lexeme} {following : List Char}

/-- The word is an identifier at the top level of a source with the given goal. -/
structure IsName (word : String) (goal : Goal) : Prop where
  spelled : (Token.identifier word false).isSpelledBy word = true
  unreserved : rejectWord? word (goal == .module) goal = none

/-- Parentheses around a text are parentheses around its tokens. -/
theorem writes_bracketed (hrules : ClaimPrivateNames rules) {text : String}
    (h : Writes rules lexemes text.toList) (brackets : Bool) :
    Writes rules (bracketedLexemes brackets lexemes) (bracketed brackets text).toList := by
  intro following rest hfollowing hrest
  cases brackets with
  | false => exact h hfollowing hrest
  | true =>
    have hspelled : (Token.punctuator .rParen).isSpelledBy ")" = true := by decide +kernel
    have hclose : Spells rules (.of (.punctuator .rParen) :: rest) (')' :: following) :=
      .cons rfl (hrules.reads hspelled rfl hfollowing) hrest
    have hopen : Scan.Reads (Scan.token rules) ('(' :: (text.toList ++ ')' :: following))
        (.punctuator .lParen) (text.toList ++ ')' :: following) := fun position =>
      ⟨position.past '(' (text.toList ++ ')' :: following).head?,
        (hrules.token_eq (by decide) _ position).trans rfl⟩
    have hspells := Spells.cons rfl hopen (h rfl hclose)
    simpa [bracketedLexemes, bracketed] using hspells

/-- The text of a tree spells its tokens. -/
theorem writes (hrules : ClaimPrivateNames rules) (tree : OperatorTree)
    (hnames : ∀ word ∈ tree.names, (Token.identifier word false).isSpelledBy word = true) :
    Writes rules tree.lexemes tree.print.toList := by
  induction tree with
  | name word => exact writes_name hrules (hnames word List.mem_cons_self)
  | node operator left right ihl ihr =>
    intro following rest hfollowing hrest
    have hleft := writes_bracketed hrules
      (ihl fun word hword => hnames word (List.mem_append_left _ hword))
    have hright := writes_bracketed hrules
      (ihr fun word hword => hnames word (List.mem_append_right _ hword))
    have hspells := hleft (left.operator?.any (bracketsLeft operator)) rfl
      (spells_operator hrules operator (hright (right.operator?.any (bracketsRight operator))
        hfollowing hrest).space).space
    simpa [lexemes, print] using hspells

/-- The text of a tree does not begin like a `#!` line. -/
theorem print_first (tree : OperatorTree)
    (hnames : ∀ word ∈ tree.names, (Token.identifier word false).isSpelledBy word = true) :
    tree.print.toList.head?.any (· ≠ '#') = true := by
  induction tree with
  | name word =>
    exact (Token.first_of_isSpelledBy (hnames word List.mem_cons_self) []).1
  | node operator left right ihl _ =>
    have hleft := ihl fun word hword => hnames word (List.mem_append_left _ hword)
    unfold print bracketed
    split
    · simp
    · simp only [String.toList_append, List.append_assoc]
      rw [List.head?_append]
      cases hhead : left.print.toList.head? with
      | none =>
        rw [hhead] at hleft
        cases hleft
      | some first =>
        rw [hhead] at hleft
        exact hleft

/-- A statement terminator, if there is one. -/
def terminator (semicolon : Bool) : String := if semicolon then ";" else ""

theorem spells_closing (hrules : ClaimPrivateNames rules) (semicolon : Bool) :
    (terminator semicolon).toList.head?.all Scan.delimits = true ∧
      Spells rules (Lexeme.closingStatement semicolon) (terminator semicolon).toList := by
  cases semicolon with
  | false => exact ⟨rfl, .endOfInput⟩
  | true =>
    have hspelled : (Token.punctuator .semicolon).isSpelledBy ";" = true := by decide +kernel
    have hread := hrules.reads hspelled rfl (show ([] : List Char).head?.all _ = true from rfl)
    exact ⟨rfl, .cons rfl hread .endOfInput⟩

theorem take_ne_of_first {text : List Char} (h : text.head?.any (· ≠ '#') = true) :
    text.take 2 ≠ ['#', '!'] := by
  cases text with
  | nil => cases h
  | cons first text =>
    rintro htake
    rw [List.take_succ_cons, List.cons.injEq] at htake
    rw [htake.1] at h
    cases h

/-- With hooks that let names and operations pass, the text of a tree parses to the tree. -/
theorem parseWith_print {σ : Type} (tree : OperatorTree) (options : Options) (hooks : Hooks σ)
    (initial : σ) (hpass : hooks.PassOperations fun _ => True)
    (hrules : ClaimPrivateNames hooks.tokenRules)
    (hnames : ∀ word ∈ tree.names, IsName word options.goal) (semicolon : Bool) :
    ∃ p, parseWith (tree.print ++ terminator semicolon) options hooks initial = .ok p ∧
      p.bare = tree.toProgram := by
  have hspelled : ∀ word ∈ tree.names, (Token.identifier word false).isSpelledBy word = true :=
    fun word hword => (hnames word hword).spelled
  let source := tree.print ++ terminator semicolon
  have htext : source.toList = tree.print.toList ++ (terminator semicolon).toList :=
    String.toList_append
  have hfirst : source.toList.head?.any (· ≠ '#') = true := by
    have hfirst := print_first tree hspelled
    rw [htext, List.head?_append]
    cases hhead : tree.print.toList.head? with
    | none =>
      rw [hhead] at hfirst
      cases hfirst
    | some first =>
      rw [hhead] at hfirst
      exact hfirst
  obtain ⟨hends, hclosing⟩ := spells_closing hrules semicolon
  have htracks := Lexer.tracks_ofSource source hrules.advances
    (fun rule hrule => hrules rule hrule ▸ TokenRule.isExact_privateName _)
    fun rule hrule => hrules rule hrule ▸ TokenRule.isWordless_privateName
  have hfeeds : (Lexer.ofSource source hooks.tokenRules).Feeds
      (tree.lexemes ++ Lexeme.closingStatement semicolon) := by
    refine Lexer.feeds_of_spells htracks rfl ?_
    change Spells _ _ (Lexer.initialCursor source.toList).rest
    rw [Lexer.initialCursor_eq (take_ne_of_first hfirst), htext]
    exact writes hrules tree hspelled hends hclosing
  have hfits : tree.FitsIn { strict := options.goal == .module } options.goal :=
    ⟨rfl, fun word hword => (hnames word hword).unreserved⟩
  have hprogram : Parses (fun _ => True)
      (Parser.ofSource source options hooks initial).grammar.program _ _ _ _ :=
    parses_program hpass (fun _ _ => trivial) tree hfits semicolon _
  exact exists_program_of_parses hrules.advances trivial hfeeds hprogram

theorem passOperations_silent (rules : List TokenRule) :
    (Hooks.silent rules).PassOperations fun _ => True :=
  fun _ _ => ⟨fun _ _ => rfl, fun _ _ _ => rfl⟩

theorem passOperations_privateNames : Hooks.privateNames.PassOperations fun _ => True := by
  refine fun e he => ⟨fun s _ => ?_, fun next s _ => ?_⟩
  · refine (PrivateNames.afterUnary_eq e s).trans (if_neg ?_)
    cases e <;> first | exact Bool.false_ne_true | cases he
  · refine (PrivateNames.afterAtom_eq e next s).trans (if_neg ?_)
    cases e <;> first | exact Bool.false_ne_true | cases he

/-- The text of a tree of operators, with or without a semicolon behind it, parses to the tree as
the only statement of the program, up to spans. -/
theorem parse_print (tree : OperatorTree) (options : Options)
    (hnames : ∀ word ∈ tree.names, IsName word options.goal) (semicolon : Bool) :
    (∃ p, parsePlain (tree.print ++ terminator semicolon) options = .ok p ∧
      p.bare = tree.toProgram) ∧
    ∃ p, parse (tree.print ++ terminator semicolon) options = .ok p ∧ p.bare = tree.toProgram :=
  ⟨parseWith_print tree options (.silent []) () (passOperations_silent []) nofun hnames semicolon,
    parseWith_print tree options .privateNames {} passOperations_privateNames
      (List.forall_mem_singleton.2 rfl) hnames semicolon⟩

/-- A sum in parentheses as the base of a power that is a factor. -/
theorem parse_print_of_power :
    (∃ p, parsePlain "a * (b + c) ** d;" {} = .ok p ∧
      p.bare = ⟨[.expression (.binary .mul (.identifier "a" (.empty .start))
        (.binary .exp (.binary .add (.identifier "b" (.empty .start))
          (.identifier "c" (.empty .start)) (.empty .start)) (.identifier "d" (.empty .start))
          (.empty .start)) (.empty .start)) (.empty .start)], .empty .start⟩) ∧
    ∃ p, parse "a * (b + c) ** d;" {} = .ok p ∧
      p.bare = ⟨[.expression (.binary .mul (.identifier "a" (.empty .start))
        (.binary .exp (.binary .add (.identifier "b" (.empty .start))
          (.identifier "c" (.empty .start)) (.empty .start)) (.identifier "d" (.empty .start))
          (.empty .start)) (.empty .start)) (.empty .start)], .empty .start⟩ := by
  have hname {word : String} (hword : word ∈ ["a", "b", "c", "d"]) : IsName word .script := by
    simp only [List.mem_cons, List.not_mem_nil, or_false] at hword
    rcases hword with rfl | rfl | rfl | rfl <;> exact ⟨by decide +kernel, by decide +kernel⟩
  exact parse_print (.node (.binary .mul) (.name "a") (.node (.binary .exp)
    (.node (.binary .add) (.name "b") (.name "c")) (.name "d"))) {} (fun _ => hname) true

end OperatorTree

end EcmaScript
